import Mathlib.Algebra.Group.Nat.Defs
import Mathlib.Data.Nat.Log
import Mathlib.Logic.Function.Iterate
import EditableGrammar.Language.Draw

set_option autoImplicit false

/-!
# Draws end, and every number can be drawn

A draw goes on as long as its values are passed over.  From a supply that is `Accepting` below a
bound no draw below this bound goes on for ever, so it gives a number below the bound and leaves the
supply some words further on, where it is accepting again.

Conversely every number below a bound is drawn from some words: a value just above the number's
share of all values is accepted (`exists_accepted`), and every value is read from some words.  What
follows these words in the source is left as it is, so the words of several draws are joined.
-/

namespace EditableGrammar

variable {n x : Nat}

section

variable {σ : Type} {next : Generator σ} {supply : σ}

/-! ## Reading words -/

/-- The supply after so many words. -/
def afterWords (next : Generator σ) (count : Nat) (supply : σ) : σ :=
  (fun supply => (next supply).2)^[count] supply

theorem afterWords_add (count more : Nat) :
    afterWords next (count + more) supply = afterWords next more (afterWords next count supply) := by
  rw [afterWords, Nat.add_comm, Function.iterate_add_apply]
  rfl

theorem readWords_snd (count : Nat) :
    (readWords next count supply).2 = afterWords next count supply := by
  induction count generalizing supply with
  | zero => rfl
  | succ count ih => exact ih

theorem wordValues_eq (count : Nat) : wordValues count = 2 ^ (32 * count) := by
  rw [wordValues, Nat.one_shiftLeft]

theorem wordValues_succ (count : Nat) :
    wordValues (count + 1) = UInt32.size * wordValues count := by
  rw [wordValues_eq, wordValues_eq, Nat.mul_add, Nat.pow_add, Nat.mul_comm]

theorem wordValues_pos (count : Nat) : 0 < wordValues count := by
  rw [wordValues_eq]
  exact Nat.two_pow_pos _

theorem readWords_lt (count : Nat) : (readWords next count supply).1 < wordValues count := by
  induction count generalizing supply with
  | zero => exact wordValues_pos 0
  | succ count ih =>
    have hlow : (next supply).1.toNat < UInt32.size := UInt32.toNat_lt_size _
    have hhigh := @ih (next supply).2
    rw [wordValues_succ]
    calc (next supply).1.toNat + UInt32.size * (readWords next count (next supply).2).1
        < UInt32.size * ((readWords next count (next supply).2).1 + 1) := by
          rw [Nat.mul_add]
          omega
      _ ≤ UInt32.size * wordValues count := Nat.mul_le_mul_left _ hhigh

/-- The words read for a draw can stand for every number below the bound. -/
theorem lt_wordValues (n : Nat) : n < wordValues (wordsFor n) := by
  rw [wordValues_eq]
  have hexp : Nat.log2 n + 1 ≤ 32 * wordsFor n := by
    unfold wordsFor
    omega
  exact Nat.lt_of_lt_of_le Nat.lt_log2_self (Nat.pow_le_pow_right (by decide) hexp)

theorem wordsFor_eq_one (hsmall : n < 2 ^ 32) : wordsFor n = 1 := by
  unfold wordsFor
  have : Nat.log2 n < 32 := by
    by_cases hzero : n = 0
    · subst hzero
      decide
    · exact (Nat.log2_lt hzero).2 hsmall
  omega

/-! ## Draws that end -/

/-- Whenever a draw below `n` begins, one of its values is accepted after finitely many words. -/
def Accepting (next : Generator σ) (n : Nat) (supply : σ) : Prop :=
  ∀ begin, ∃ tries,
    accepts n
      (readWords next (wordsFor n) (afterWords next (begin + tries * wordsFor n) supply)).1 = true

theorem Accepting.later (h : Accepting next n supply) (count : Nat) :
    Accepting next n (afterWords next count supply) := by
  intro begin
  obtain ⟨tries, htries⟩ := h (count + begin)
  refine ⟨tries, ?_⟩
  rwa [← afterWords_add, ← Nat.add_assoc]

/-- A draw takes the first value if that is accepted, and begins again after it if not. -/
theorem draw_eq (next : Generator σ) (n : Nat) (supply : σ) :
    next.draw n supply =
      if accepts n (readWords next (wordsFor n) supply).1 = true then
        some ((readWords next (wordsFor n) supply).1 * n / wordValues (wordsFor n),
          afterWords next (wordsFor n) supply)
      else next.draw n (afterWords next (wordsFor n) supply) := by
  rw [Generator.draw, ← readWords_snd]

/-- A draw whose first value is accepted ends with a number below the bound. -/
theorem draw_of_first (hn : 0 < n)
    (h : accepts n (readWords next (wordsFor n) supply).1 = true) :
    ∃ x, next.draw n supply = some (x, afterWords next (wordsFor n) supply) ∧ x < n := by
  refine ⟨_, (draw_eq next n supply).trans (if_pos h), ?_⟩
  apply Nat.div_lt_of_lt_mul
  exact Nat.mul_lt_mul_of_pos_right (readWords_lt _) hn

/-- A draw with an accepted value ends with a number below the bound. -/
theorem draw_of_accepted (hn : 0 < n) {tries : Nat}
    (h : accepts n
      (readWords next (wordsFor n) (afterWords next (tries * wordsFor n) supply)).1 = true) :
    ∃ x count, next.draw n supply = some (x, afterWords next count supply) ∧ x < n := by
  induction tries generalizing supply with
  | zero =>
    rw [Nat.zero_mul] at h
    obtain ⟨x, hx, hlt⟩ := draw_of_first hn h
    exact ⟨x, _, hx, hlt⟩
  | succ tries ih =>
    by_cases hfirst : accepts n (readWords next (wordsFor n) supply).1 = true
    · obtain ⟨x, hx, hlt⟩ := draw_of_first hn hfirst
      exact ⟨x, _, hx, hlt⟩
    · rw [Nat.succ_mul, Nat.add_comm, afterWords_add] at h
      obtain ⟨x, count, hx, hlt⟩ := ih h
      refine ⟨x, wordsFor n + count, ?_, hlt⟩
      rw [draw_eq, if_neg hfirst, hx, afterWords_add]

/-- From a supply that is accepting below a bound every draw below it ends. -/
theorem Accepting.draw (h : Accepting next n supply) (hn : 0 < n) :
    ∃ x count, next.draw n supply = some (x, afterWords next count supply) ∧ x < n := by
  obtain ⟨tries, htries⟩ := h 0
  rw [Nat.zero_add] at htries
  exact draw_of_accepted hn htries

/-! ## Choices -/

/-- The place before a given one is drawn for it. -/
theorem pickedPlace_before {place : Nat} (hplace : place < n) :
    pickedPlace n ((place + (n - 1)) % n) = place := by
  have hpos : 0 < n := Nat.zero_lt_of_lt hplace
  rw [pickedPlace, Nat.mod_add_mod, Nat.add_assoc, Nat.sub_add_cancel hpos, Nat.add_mod_right,
    Nat.mod_eq_of_lt hplace]

variable {α : Type} {items : List α} {item : α}

/-- A choice among one item takes a draw below one. -/
theorem choose_single {rest : σ} (h : next.draw 1 supply = some (x, rest)) :
    choose next [item] supply = some (item, rest) := by
  simp only [choose, h]

/-- A choice among several items draws the place before the item's. -/
theorem choose_several {y : Nat} {middle rest : σ} (hmany : 1 < items.length)
    (hfirst : next.draw 1 supply = some (x, middle))
    (hsecond : next.draw items.length middle = some (y, rest))
    (hitem : items[pickedPlace items.length y]? = some item) :
    choose next items supply = some (item, rest) := by
  match items, hmany with
  | a :: b :: items, _ => simp only [choose, hfirst, hsecond, hitem, Option.map_some]

/-- From a supply that is accepting below one and below the number of items a choice ends with one
of the items. -/
theorem Accepting.choose (hone : Accepting next 1 supply)
    (hlength : Accepting next items.length supply) (hitems : items ≠ []) :
    ∃ item ∈ items, ∃ count,
      choose next items supply = some (item, afterWords next count supply) := by
  obtain ⟨x, first, hfirst, -⟩ := hone.draw Nat.one_pos
  match items with
  | [item] => exact ⟨item, List.mem_singleton_self item, first, choose_single hfirst⟩
  | a :: b :: items =>
    have hpos : 0 < (a :: b :: items).length := by simp
    obtain ⟨y, second, hsecond, -⟩ := (hlength.later first).draw hpos
    have hplace := Nat.mod_lt (y + 1) hpos
    refine ⟨(a :: b :: items)[pickedPlace _ y], List.getElem_mem hplace, first + second, ?_⟩
    rw [afterWords_add]
    exact choose_several (by simp) hfirst hsecond (List.getElem?_eq_getElem hplace)

/-- Whatever is chosen is one of the items. -/
theorem mem_of_choose {rest : σ} (h : choose next items supply = some (item, rest)) :
    item ∈ items := by
  unfold choose at h
  split at h
  next => cases h
  next =>
    split at h
    next => cases h
    next =>
      cases h
      exact List.mem_singleton_self _
    next =>
      split at h
      next => cases h
      next =>
        obtain ⟨_, hplace, hitem⟩ := Option.map_eq_some_iff.1 h
        cases hitem
        exact List.mem_of_getElem? hplace

end

/-! ## Every number can be drawn -/

/-- Every number below the bound has a value that is accepted and scaled down to it: the least one
whose multiple reaches the number's share. -/
theorem exists_accepted (hx : x < n) :
    ∃ v < wordValues (wordsFor n), accepts n v = true ∧
      v * n / wordValues (wordsFor n) = x := by
  have hn : 0 < n := Nat.zero_lt_of_lt hx
  have hvalues := lt_wordValues n
  -- the upper half of the multiple is the number and its lower half is below the bound
  obtain ⟨v, low, hlow, hv⟩ : ∃ v low, low < n ∧ v * n = wordValues (wordsFor n) * x + low := by
    have hdiv := Nat.div_add_mod' (wordValues (wordsFor n) * x + (n - 1)) n
    have hmod := Nat.mod_lt (wordValues (wordsFor n) * x + (n - 1)) hn
    exact ⟨(wordValues (wordsFor n) * x + (n - 1)) / n,
      n - 1 - (wordValues (wordsFor n) * x + (n - 1)) % n, by omega, by omega⟩
  have hzone : low ≤ zone n := by
    have hshift : n ≤ n <<< (32 * wordsFor n - 1 - Nat.log2 n) := by
      rw [Nat.shiftLeft_eq]
      exact Nat.le_mul_of_pos_right n (Nat.two_pow_pos _)
    unfold zone
    omega
  refine ⟨v, ?_, ?_, ?_⟩
  · apply Nat.lt_of_mul_lt_mul_right (a := n)
    calc v * n = wordValues (wordsFor n) * x + low := hv
      _ < wordValues (wordsFor n) * (x + 1) := by
        rw [Nat.mul_succ]
        omega
      _ ≤ wordValues (wordsFor n) * n := Nat.mul_le_mul_left _ hx
  · rw [accepts, decide_eq_true_eq, hv, Nat.mul_add_mod, Nat.mod_eq_of_lt (by omega)]
    exact hzone
  · rw [hv, Nat.mul_add_div (wordValues_pos _), Nat.div_eq_of_lt (by omega), Nat.add_zero]

namespace WordSource

variable {words more : List Word} {seed : UInt64}

/-- The words at hand are taken first. -/
theorem afterWords_atHand {used : Nat} (hused : used ≤ words.length) (seed : UInt64) :
    afterWords next used ⟨words, seed⟩ = ⟨words.drop used, seed⟩ := by
  induction used generalizing words with
  | zero => rfl
  | succ used ih =>
    cases words with
    | nil => cases hused
    | cons w words =>
      calc afterWords next (used + 1) ⟨w :: words, seed⟩
          = afterWords next used ⟨words, seed⟩ := by
            rw [Nat.add_comm, afterWords_add]
            rfl
        _ = ⟨words.drop used, seed⟩ := ih (Nat.le_of_succ_le_succ hused)

/-- Every value is read from some words at hand. -/
theorem exists_readWords {count v : Nat} (hv : v < wordValues count) :
    ∃ words : List Word, ∀ more seed,
      readWords next count ⟨words ++ more, seed⟩ = (v, ⟨more, seed⟩) := by
  induction count generalizing v with
  | zero =>
    rw [wordValues_eq] at hv
    obtain rfl : v = 0 := by omega
    exact ⟨[], fun _ _ => rfl⟩
  | succ count ih =>
    rw [wordValues_succ] at hv
    obtain ⟨words, hwords⟩ := ih (Nat.div_lt_of_lt_mul hv)
    refine ⟨UInt32.ofNat (v % UInt32.size) :: words, fun more seed => ?_⟩
    have hlow : (UInt32.ofNat (v % UInt32.size)).toNat = v % UInt32.size :=
      UInt32.toNat_ofNat_of_lt' (Nat.mod_lt _ (by decide))
    simp only [readWords, List.cons_append, WordSource.next, hwords, hlow, Nat.mod_add_div]

/-- Every number below the bound is drawn from some words at hand. -/
theorem exists_draw (hx : x < n) :
    ∃ words : List Word, ∀ more seed,
      next.draw n ⟨words ++ more, seed⟩ = some (x, ⟨more, seed⟩) := by
  obtain ⟨v, hv, haccepted, hscaled⟩ := exists_accepted hx
  obtain ⟨words, hwords⟩ := exists_readWords hv
  refine ⟨words, fun more seed => ?_⟩
  rw [draw_eq, ← readWords_snd, hwords, if_pos haccepted, hscaled]

/-- Every item is chosen by some words at hand. -/
theorem exists_choose {α : Type} {items : List α} {item : α} (hitem : item ∈ items) :
    ∃ words : List Word, ∀ more seed,
      choose next items ⟨words ++ more, seed⟩ = some (item, ⟨more, seed⟩) := by
  obtain ⟨first, hfirst⟩ := exists_draw (x := 0) Nat.one_pos
  match items, hitem with
  | [a], hitem =>
    obtain rfl := List.mem_singleton.1 hitem
    exact ⟨first, fun more seed => choose_single (hfirst more seed)⟩
  | a :: b :: items, hitem =>
    obtain ⟨place, hplace, rfl⟩ := List.mem_iff_getElem.1 hitem
    -- the item is the one after the place drawn, so the place before it must be drawn
    have hpos : 0 < (a :: b :: items).length := by simp
    obtain ⟨second, hsecond⟩ := exists_draw
      (Nat.mod_lt (place + ((a :: b :: items).length - 1)) hpos)
    refine ⟨first ++ second, fun more seed => ?_⟩
    rw [List.append_assoc]
    refine choose_several (by simp) (hfirst _ _) (hsecond _ _) ?_
    rw [pickedPlace_before hplace, List.getElem?_eq_getElem hplace]

end WordSource

end EditableGrammar
