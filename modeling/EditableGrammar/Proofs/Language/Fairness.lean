import Mathlib.Data.FinEnum
import Mathlib.Data.Set.Card
import Mathlib.Order.Interval.Finset.Nat
import Mathlib.SetTheory.Cardinal.NatCard
import EditableGrammar.Proofs.Grammar.History
import EditableGrammar.Proofs.Language.Drawing

set_option autoImplicit false

/-!
# Draws are fair

A word ends a draw below `n` with `x` when its multiple by `n` lies in a stretch of length
`n * 2 ^ k`, so there are `2 ^ k` such words for every `x` (`ncard_result?`).  Words can therefore
be exchanged so that a draw that ended with one number ends with another and all else stays as it
was (`exists_exchange`); hence from sequences of words of any length each number is drawn equally
often.

The number drawn last names the production that a sample takes.  Each production is named by one
number, so the productions of a symbol are taken equally often.
-/

namespace EditableGrammar

section

variable {σ : Type} {next : Generator σ} {supply : σ} {n x y : Nat} {w : Word} {words : List Word}

/-! ## The words that end a draw -/

/-- A supply gives these words first. -/
def Supplies (next : Generator σ) : List Word → σ → Prop
  | [], _ => True
  | w :: words, supply => (next supply).1 = w ∧ Supplies next words (next supply).2

/-- A draw below `n` ends with `x` within some words, whatever supply they come first in. -/
def DrawnFrom (n : Nat) (words : List Word) (x : Nat) : Prop :=
  ∃ used ≤ words.length, ∀ (σ : Type) (next : Generator σ) (supply : σ),
    Supplies next words supply → next.draw n supply = some (x, afterWords next used supply)

/-- The number that a word stands for in a draw below `n`, unless it is passed over. -/
def result? (n : Nat) (w : Word) : Option Nat :=
  if accepts n w.toNat then some (w.toNat * n / UInt32.size) else none

/-- The number of the first word that is not passed over. -/
def firstResult? (n : Nat) (words : List Word) : Option Nat := words.findSome? (result? n)

/-- A draw below a number of one word reads one word, and begins again if that is passed over. -/
theorem draw_of_small (hsmall : n < 2 ^ 32) (next : Generator σ) (supply : σ) :
    next.draw n supply =
      match result? n (next supply).1 with
      | some x => some (x, (next supply).2)
      | none => next.draw n (next supply).2 := by
  have hone := wordsFor_eq_one hsmall
  have hread : (readWords next 1 supply).1 = (next supply).1.toNat := by
    simp [readWords]
  have hvalues : wordValues 1 = UInt32.size := rfl
  rw [draw_eq, hone, hread, hvalues, result?]
  split <;> rfl

/-- Where one of the words ends the draw it does so in every supply that gives these words first. -/
theorem exists_draw_of_firstResult? (hsmall : n < 2 ^ 32) (h : firstResult? n words = some x) :
    ∃ used ≤ words.length, ∀ (σ : Type) (next : Generator σ) (supply : σ),
      Supplies next words supply → next.draw n supply = some (x, afterWords next used supply) := by
  induction words with
  | nil => cases h
  | cons w words ih =>
    rw [firstResult?, List.findSome?_cons] at h
    cases hw : result? n w with
    | some x' =>
      rw [hw] at h
      cases h
      refine ⟨1, by simp, fun σ next supply hsupply => ?_⟩
      rw [draw_of_small hsmall, hsupply.1, hw]
      rfl
    | none =>
      rw [hw] at h
      obtain ⟨used, hused, hdraw⟩ := ih h
      refine ⟨used + 1, by simpa using hused, fun σ next supply hsupply => ?_⟩
      rw [draw_of_small hsmall, hsupply.1, hw, Nat.add_comm, afterWords_add]
      exact hdraw σ next _ hsupply.2

/-- Where all words are passed over the draw goes on behind them. -/
theorem draw_of_firstResult?_eq_none (hsmall : n < 2 ^ 32) (h : firstResult? n words = none)
    (hsupply : Supplies next words supply) :
    next.draw n supply = next.draw n (afterWords next words.length supply) := by
  induction words generalizing supply with
  | nil => rfl
  | cons w words ih =>
    rw [firstResult?, List.findSome?_cons] at h
    cases hw : result? n w with
    | some x' =>
      rw [hw] at h
      cases h
    | none =>
      rw [hw] at h
      rw [draw_of_small hsmall, hsupply.1, hw, List.length_cons, Nat.add_comm, afterWords_add]
      exact ih h hsupply.2

theorem supplies_atHand (words more : List Word) (seed : UInt64) :
    Supplies WordSource.next words ⟨words ++ more, seed⟩ := by
  induction words with
  | nil => trivial
  | cons w words ih => exact ⟨rfl, ih⟩

/-- Some word stands for each number below the bound. -/
theorem exists_result? (hsmall : n < 2 ^ 32) (hx : x < n) : ∃ w, result? n w = some x := by
  obtain ⟨v, hv, haccepted, hscaled⟩ := exists_accepted hx
  rw [wordsFor_eq_one hsmall] at hv hscaled
  have hword : (UInt32.ofNat v).toNat = v := UInt32.toNat_ofNat_of_lt' hv
  exact ⟨UInt32.ofNat v, by rw [result?, hword, if_pos haccepted]; exact congrArg some hscaled⟩

/-- A draw ends within some words with the number of the first that is not passed over. -/
theorem drawnFrom_iff (hpositive : 0 < n) (hsmall : n < 2 ^ 32) :
    DrawnFrom n words x ↔ firstResult? n words = some x := by
  constructor
  · rintro ⟨used, hused, hdraw⟩
    cases h : firstResult? n words with
    | some x' =>
      obtain ⟨used', -, hdraw'⟩ := exists_draw_of_firstResult? hsmall h
      have hat := supplies_atHand words [] 0
      have := (hdraw _ _ _ hat).symm.trans (hdraw' _ _ _ hat)
      rw [Option.some.injEq, Prod.mk.injEq] at this
      rw [this.1]
    | none =>
      -- one more word behind them ends the draw, which therefore takes more than these words
      obtain ⟨w, hw⟩ := exists_result? hsmall hpositive
      have hat := supplies_atHand words [w] 0
      have hlate : WordSource.next.draw n ⟨words ++ [w], 0⟩ = some (0, ⟨[], 0⟩) := by
        rw [draw_of_firstResult?_eq_none hsmall h hat, WordSource.afterWords_atHand (by simp),
          List.drop_left, draw_of_small hsmall]
        simp only [WordSource.next, hw]
      have hearly := hdraw _ _ _ hat
      rw [WordSource.afterWords_atHand (by simp; omega), hlate] at hearly
      have hlength : (0 : Nat) = ((words ++ [w]).drop used).length := by
        simp only [Option.some.injEq, Prod.mk.injEq, WordSource.mk.injEq] at hearly
        rw [← hearly.2.1, List.length_nil]
      simp at hlength
      omega
  · exact exists_draw_of_firstResult? hsmall

/-! ## Counting them -/

/-- How far a number is shifted until its first bit is that of a word. -/
def shift (n : Nat) : Nat := 31 - Nat.log2 n

theorem shift_bounds (hpositive : 0 < n) (hsmall : n < 2 ^ 32) :
    2 ^ 31 ≤ n * 2 ^ shift n ∧ n * 2 ^ shift n < 2 ^ 32 := by
  have hlog : Nat.log2 n < 32 := (Nat.log2_lt (by omega)).2 hsmall
  have hexp : Nat.log2 n + shift n = 31 := by unfold shift; omega
  have hlow : 2 ^ Nat.log2 n ≤ n := Nat.log2_self_le (by omega)
  have hhigh : n < 2 ^ (Nat.log2 n + 1) := Nat.lt_log2_self
  constructor
  · calc 2 ^ 31 = 2 ^ Nat.log2 n * 2 ^ shift n := by rw [← Nat.pow_add, hexp]
      _ ≤ n * 2 ^ shift n := Nat.mul_le_mul_right _ hlow
  · calc n * 2 ^ shift n < 2 ^ (Nat.log2 n + 1) * 2 ^ shift n :=
          Nat.mul_lt_mul_of_pos_right hhigh (Nat.two_pow_pos _)
      _ = 2 ^ 32 := by rw [← Nat.pow_add, Nat.add_right_comm, hexp]

/-- A word stands for a number when its multiple lies in the stretch that begins at that number of
word sizes. -/
theorem result?_eq_some_iff (hpositive : 0 < n) (hsmall : n < 2 ^ 32) :
    result? n w = some x ↔
      UInt32.size * x ≤ w.toNat * n ∧ w.toNat * n < UInt32.size * x + n * 2 ^ shift n := by
  have hzone : zone n = n * 2 ^ shift n - 1 := by
    rw [zone, wordsFor_eq_one hsmall, Nat.shiftLeft_eq]
    rfl
  have hvalues : wordValues 1 = UInt32.size := rfl
  obtain ⟨hlow, hhigh⟩ := shift_bounds hpositive hsmall
  rw [result?, accepts, wordsFor_eq_one hsmall, hvalues, hzone]
  simp only [decide_eq_true_eq, Option.ite_none_right_eq_some, Option.some.injEq, UInt32.size]
  generalize w.toNat * n = multiple
  omega

/-- The numbers whose multiple lies in a stretch follow each other, as many as the stretch holds. -/
theorem multiple_mem_iff (hpositive : 0 < n) (start count v : Nat) :
    start ≤ v * n ∧ v * n < start + n * count ↔
      (start + (n - 1)) / n ≤ v ∧ v < (start + (n - 1)) / n + count := by
  have hbelow (bound : Nat) : bound ≤ v * n ↔ (bound + (n - 1)) / n ≤ v := by
    rw [Nat.div_le_iff_le_mul_add_pred hpositive, Nat.mul_comm]
    omega
  have hend : (start + n * count + (n - 1)) / n = (start + (n - 1)) / n + count := by
    rw [Nat.add_right_comm, Nat.add_mul_div_left _ _ hpositive]
  rw [hbelow, ← Nat.not_le, hbelow, hend, Nat.not_le]

/-- Each number is that of as many words. -/
theorem ncard_result? (hsmall : n < 2 ^ 32) (hx : x < n) :
    {w | result? n w = some x}.ncard = 2 ^ shift n := by
  have hpositive := Nat.zero_lt_of_lt hx
  have hstretch := (shift_bounds hpositive hsmall).2
  -- the words are numbers that follow each other, and all of these numbers are words
  have himage : UInt32.toNat '' {w | result? n w = some x} =
      Finset.Ico ((UInt32.size * x + (n - 1)) / n)
        ((UInt32.size * x + (n - 1)) / n + 2 ^ shift n) := by
    ext v
    rw [Finset.coe_Ico, Set.mem_Ico, ← multiple_mem_iff hpositive]
    constructor
    · rintro ⟨w, hw, rfl⟩
      exact (result?_eq_some_iff hpositive hsmall).1 hw
    · intro hv
      have hword : v < UInt32.size := by
        apply Nat.lt_of_mul_lt_mul_right (a := n)
        calc v * n < UInt32.size * x + n * 2 ^ shift n := hv.2
          _ ≤ UInt32.size * (x + 1) := by
            rw [Nat.mul_succ]
            exact Nat.add_le_add_left (Nat.le_of_lt hstretch) _
          _ ≤ UInt32.size * n := Nat.mul_le_mul_left _ hx
      have hnumber : (UInt32.ofNat v).toNat = v := UInt32.toNat_ofNat_of_lt' hword
      refine ⟨UInt32.ofNat v, (result?_eq_some_iff hpositive hsmall).2 ?_, hnumber⟩
      rwa [hnumber]
  have hinjective : Function.Injective UInt32.toNat := fun _ _ h => UInt32.toNat_inj.1 h
  rw [← Set.ncard_image_of_injective _ hinjective, himage, Set.ncard_coe_finset, Nat.card_Ico,
    Nat.add_sub_cancel_left]

/-! ## Exchanging words -/

/-- Words can be exchanged so that two numbers change places and all else stays as it is. -/
theorem exists_exchange (hsmall : n < 2 ^ 32) (hx : x < n) (hy : y < n) :
    ∃ exchange : Equiv.Perm Word,
      ∀ w, result? n (exchange w) = (result? n w).map (Equiv.swap x y) := by
  have hcard (z : Option Nat) :
      {w | (result? n w).map (Equiv.swap x y) = z}.ncard = {w | result? n w = z}.ncard := by
    cases z with
    | none => simp
    | some z =>
      have hback : {w | (result? n w).map (Equiv.swap x y) = some z} =
          {w | result? n w = some (Equiv.swap x y z)} := by
        ext w
        simp [Option.map_eq_some_iff, Equiv.swap_apply_eq_iff]
      rw [hback]
      by_cases hzx : z = x
      · rw [hzx, Equiv.swap_apply_left, ncard_result? hsmall hx, ncard_result? hsmall hy]
      by_cases hzy : z = y
      · rw [hzy, Equiv.swap_apply_right, ncard_result? hsmall hx, ncard_result? hsmall hy]
      · rw [Equiv.swap_apply_of_ne_of_ne hzx hzy]
  have hfibre (z : Option Nat) : Nonempty
      ({w // (result? n w).map (Equiv.swap x y) = z} ≃ {w // result? n w = z}) :=
    Finite.card_eq.1 (hcard z)
  refine ⟨Equiv.ofFiberEquiv fun z => (hfibre z).some, fun w => ?_⟩
  exact Equiv.ofFiberEquiv_map _ w

/-- From the sequences of words of one length each number is drawn equally often. -/
theorem ncard_firstResult? (hsmall : n < 2 ^ 32) (hx : x < n) (hy : y < n) (length : Nat) :
    {words | words.length = length ∧ firstResult? n words = some x}.ncard =
      {words | words.length = length ∧ firstResult? n words = some y}.ncard := by
  obtain ⟨exchange, hexchange⟩ := exists_exchange hsmall hx hy
  have hfirst (words : List Word) :
      firstResult? n (words.map exchange) = (firstResult? n words).map (Equiv.swap x y) := by
    induction words with
    | nil => rfl
    | cons w words ih =>
      rw [List.map_cons, firstResult?, List.findSome?_cons, firstResult?, List.findSome?_cons,
        hexchange]
      cases result? n w with
      | some z => rfl
      | none => exact ih
  have himage :
      List.map exchange '' {words | words.length = length ∧ firstResult? n words = some x} =
      {words | words.length = length ∧ firstResult? n words = some y} := by
    ext words
    constructor
    · rintro ⟨words, ⟨hlength, hwords⟩, rfl⟩
      refine ⟨by rw [List.length_map, hlength], ?_⟩
      rw [hfirst, hwords, Option.map_some, Equiv.swap_apply_left]
    · rintro ⟨hlength, hwords⟩
      have hback : (words.map exchange.symm).map exchange = words := by simp
      refine ⟨words.map exchange.symm, ⟨by rw [List.length_map, hlength], ?_⟩, hback⟩
      obtain ⟨z, hz, hswap⟩ := Option.map_eq_some_iff.1 ((hfirst _).symm.trans (hback ▸ hwords))
      obtain rfl : z = x :=
        (Equiv.swap_apply_eq_iff.1 hswap).trans (Equiv.swap_apply_right x y)
      exact hz
  rw [← himage, Set.ncard_image_of_injective _ (List.map_injective_iff.2 exchange.injective)]

/-! ## Picking items -/

/-- The item that the number drawn last names. -/
def picked {α : Type} (items : List α) (x : Nat) : Option α := items[pickedPlace items.length x]?

/-- Items are picked by a number below their count, for each of which there are `2 ^ k` words. -/
structure PickedFairly {α : Type} (items : List α) (k : Nat) : Prop where
  /-- of two items the number names the other one -/
  two : items.length = 2 → picked items 0 = items[1]? ∧ picked items 1 = items[0]?
  /-- of more items it names the next one, and the largest number names the first -/
  more : 3 ≤ items.length →
    (∀ x < items.length - 1, picked items x = items[x + 1]?) ∧
      picked items (items.length - 1) = items[0]?
  /-- each item is named by one number -/
  bijOn : Set.BijOn (picked items) (Set.Iio items.length) (some '' {item | item ∈ items})
  /-- each item is picked by as many words -/
  ncard : ∀ item ∈ items,
    {w | ∃ x, DrawnFrom items.length [w] x ∧ picked items x = some item}.ncard = 2 ^ k
  /-- a single item is chosen by the first draw -/
  chosen_single : items.length = 1 → ∀ (σ : Type) (next : Generator σ) (supply rest : σ) (x : Nat),
    next.draw 1 supply = some (x, rest) →
      choose next items supply = (picked items x).map fun item => (item, rest)
  /-- one of several items is chosen by the second draw -/
  chosen : 1 < items.length →
    ∀ (σ : Type) (next : Generator σ) (supply middle rest : σ) (x y : Nat),
      next.draw 1 supply = some (x, middle) → next.draw items.length middle = some (y, rest) →
        choose next items supply = (picked items y).map fun item => (item, rest)

variable {α : Type} {items : List α} {item : α}

theorem picked_of_lt (hx : x < items.length - 1) : picked items x = items[x + 1]? := by
  rw [picked, pickedPlace, Nat.mod_eq_of_lt (by omega)]

theorem picked_last (hpositive : 0 < items.length) :
    picked items (items.length - 1) = items[0]? := by
  rw [picked, pickedPlace, Nat.sub_add_cancel hpositive, Nat.mod_self]

theorem exists_picked (hx : x < items.length) : ∃ item ∈ items, picked items x = some item := by
  have hplace : pickedPlace items.length x < items.length :=
    Nat.mod_lt _ (Nat.zero_lt_of_lt hx)
  exact ⟨_, List.getElem_mem hplace, List.getElem?_eq_getElem hplace⟩

/-- Each item of a list without repetitions is named by one number. -/
theorem bijOn_picked (hitems : items.Nodup) :
    Set.BijOn (picked items) (Set.Iio items.length) (some '' {item | item ∈ items}) := by
  refine ⟨fun x hx => ?_, fun x hx y hy hxy => ?_, ?_⟩
  · obtain ⟨item, hitem, hpicked⟩ := exists_picked hx
    exact ⟨item, hitem, hpicked.symm⟩
  · -- the places are the same, and each is the next one after its number
    have hplace : pickedPlace items.length x < items.length := Nat.mod_lt _ (Nat.zero_lt_of_lt hx)
    have hplaces : (x + 1) % items.length = (y + 1) % items.length :=
      (List.getElem?_inj hplace hitems).1 hxy
    exact Nat.ModEq.eq_of_lt_of_lt (Nat.ModEq.add_right_cancel' 1 hplaces) hx hy
  · rintro _ ⟨item, hitem, rfl⟩
    obtain ⟨place, hplace, rfl⟩ := List.mem_iff_getElem.1 hitem
    refine ⟨(place + (items.length - 1)) % items.length,
      Nat.mod_lt _ (Nat.zero_lt_of_lt hplace), ?_⟩
    rw [picked, pickedPlace_before hplace, List.getElem?_eq_getElem hplace]

theorem drawnFrom_singleton_iff (hpositive : 0 < n) (hsmall : n < 2 ^ 32) :
    DrawnFrom n [w] x ↔ result? n w = some x := by
  rw [drawnFrom_iff hpositive hsmall, firstResult?, List.findSome?_singleton]

/-- A word stands for a number below the bound. -/
theorem lt_of_result? (hpositive : 0 < n) (h : result? n w = some x) : x < n := by
  rw [result?, Option.ite_none_right_eq_some, Option.some.injEq] at h
  rw [← h.2]
  apply Nat.div_lt_of_lt_mul
  exact Nat.mul_lt_mul_of_pos_right (UInt32.toNat_lt_size w) hpositive

/-- Items that do not repeat are picked fairly. -/
theorem pickedFairly (hpositive : 0 < items.length) (hsmall : items.length < 2 ^ 32)
    (hitems : items.Nodup) : PickedFairly items (shift items.length) where
  two htwo := by
    refine ⟨picked_of_lt (by omega), ?_⟩
    rw [← picked_last hpositive, htwo]
  more hmore := ⟨fun x hx => picked_of_lt hx, picked_last hpositive⟩
  bijOn := bijOn_picked hitems
  ncard item hitem := by
    obtain ⟨x, hx, hpicked⟩ := (bijOn_picked hitems).surjOn ⟨item, hitem, rfl⟩
    have hwords : {w | ∃ x, DrawnFrom items.length [w] x ∧ picked items x = some item} =
        {w | result? items.length w = some x} := by
      ext w
      simp only [drawnFrom_singleton_iff hpositive hsmall, Set.mem_ofPred_eq]
      constructor
      · rintro ⟨y, hy, hitem⟩
        have hsame : picked items y = picked items x := hitem.trans hpicked.symm
        obtain rfl := (bijOn_picked hitems).injOn (lt_of_result? hpositive hy) hx hsame
        exact hy
      · intro hw
        exact ⟨x, hw, hpicked⟩
    rw [hwords, ncard_result? hsmall hx]
  chosen_single hsingle σ next supply rest x hdraw := by
    obtain ⟨item, rfl⟩ := List.length_eq_one_iff.1 hsingle
    rw [choose_single hdraw, picked, pickedPlace, List.length_singleton, Nat.mod_one]
    rfl
  chosen hmany σ next supply middle rest x y hfirst hsecond := by
    obtain _ | ⟨a, _ | ⟨b, items⟩⟩ := items
    case nil => exact absurd hpositive (Nat.lt_irrefl 0)
    case cons.nil => exact absurd hmany (Nat.lt_irrefl 1)
    case cons.cons =>
      simp only [choose, hfirst, hsecond]
      rfl

end

namespace Grammar

/-- Draws are fair, and so is the choice of a production.  Of all words as many stand for each
number below a bound, so in sequences of words of any length each number is drawn equally often.
The number drawn last names one of the productions of a symbol, in the order of their numbers, and
each of them is named by one number. -/
theorem ofHistory_productions_picked_fairly (n : Nat) (hpositive : 1 ≤ n) (hsmall : n < 2 ^ 32) :
    ∃ k, 2 ^ 31 ≤ n * 2 ^ k ∧ n * 2 ^ k < 2 ^ 32 ∧
      (∀ x < n, {w : Word | DrawnFrom n [w] x}.ncard = 2 ^ k) ∧
      (∀ length, ∀ x < n, ∀ y < n,
        {words | words.length = length ∧ DrawnFrom n words x}.ncard =
          {words | words.length = length ∧ DrawnFrom n words y}.ncard) ∧
      ∀ (edits : List Edit) (s : Symbol), ((ofHistory edits).productions s).length = n →
        ((ofHistory edits).productions s).Pairwise (· < ·) ∧
          (∀ id, id ∈ (ofHistory edits).productions s ↔
            ∃ rhs, (ofHistory edits).rules[id]? = some ⟨s, rhs⟩) ∧
          PickedFairly ((ofHistory edits).productions s) k := by
  refine ⟨shift n, (shift_bounds hpositive hsmall).1, (shift_bounds hpositive hsmall).2, ?words,
    ?sequences, ?productions⟩
  case words =>
    intro x hx
    simp only [drawnFrom_singleton_iff hpositive hsmall]
    exact ncard_result? hsmall hx
  case sequences =>
    intro length x hx y hy
    simp only [drawnFrom_iff hpositive hsmall]
    exact ncard_firstResult? hsmall hx hy length
  case productions =>
    rintro edits s rfl
    have hordered := pairwise_productions (ofHistory edits) s
    refine ⟨hordered, fun id => ?_, pickedFairly hpositive hsmall (hordered.imp Nat.ne_of_lt)⟩
    rw [(ofHistory_wellFormed edits).mem_productions_iff]
    constructor
    · rintro ⟨⟨lhs, rhs⟩, hr, rfl⟩
      exact ⟨rhs, hr⟩
    · rintro ⟨rhs, hr⟩
      exact ⟨_, hr, rfl⟩

/-- Of three productions each is picked by a quarter of all words, and the last number drawn below
three names the first of them. -/
theorem ofHistory_productions_picked_fairly_three :
    {w : Word | DrawnFrom 3 [w] 2}.ncard = 2 ^ 30 ∧
      picked ((ofHistory [.extend [⟨"s", ["a"]⟩, ⟨"t", []⟩, ⟨"s", ["s"]⟩, ⟨"s", []⟩]]).productions
        "s") 2 = some 0 := by
  have hproductions :
      (ofHistory [.extend [⟨"s", ["a"]⟩, ⟨"t", []⟩, ⟨"s", ["s"]⟩, ⟨"s", []⟩]]).productions "s" =
        [0, 2, 3] := by cbv
  obtain ⟨k, hlow, hhigh, hwords, -, hproduction⟩ :=
    ofHistory_productions_picked_fairly 3 (by decide) (by decide)
  have hk : k = 30 := by
    have habove : 2 ^ 29 < 2 ^ k := by omega
    have hbelow : 2 ^ k < 2 ^ 31 := by omega
    rw [Nat.pow_lt_pow_iff_right (by decide)] at habove hbelow
    omega
  obtain ⟨-, -, hfair⟩ := hproduction _ "s" (congrArg List.length hproductions)
  refine ⟨hk ▸ hwords 2 (by decide), ?_⟩
  have hlast := (hfair.more (by rw [hproductions]; decide)).2
  rwa [hproductions] at hlast ⊢

end Grammar

end EditableGrammar
