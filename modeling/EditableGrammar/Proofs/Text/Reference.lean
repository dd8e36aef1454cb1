import Mathlib.Data.List.TakeWhile
import EditableGrammar.Text.Entity

set_option autoImplicit false

/-!
# Writing text with character references

A character can be written in a report as itself, by one of the five names, or by its number in
decimal or hexadecimal digits of either case with any number of zeros before them (`WrittenChar`).
Whichever way is taken for each character of a text, the text is read back
(`WrittenText.unescape_eq`).
-/

namespace EditableGrammar

/-! ## Ways to write a character -/

/-- The digits of a number in some base, of either case and with zeros before them. -/
def Numeral (base n : Nat) (ds : List Char) : Prop :=
  ∃ zeros, ds.map Char.toLower = List.replicate zeros '0' ++ Nat.toDigits base n

/-- The ways to write a character. -/
inductive WrittenChar (c : Char) : List Char → Prop
  | literal (hplain : c ≠ '&') : WrittenChar c [c]
  | named {name : List Char} (hknown : (name, c) ∈ namedReferences) : WrittenChar c ('&' :: name)
  | decimal {ds : List Char} (hnumeral : Numeral 10 c.toNat ds) :
      WrittenChar c ('&' :: '#' :: ds ++ [';'])
  | hexadecimal {x : Char} {ds : List Char} (hmark : x = 'x' ∨ x = 'X')
      (hnumeral : Numeral 16 c.toNat ds) : WrittenChar c ('&' :: '#' :: x :: ds ++ [';'])

/-- A text, each of its characters written in one of the ways. -/
inductive WrittenText : List Char → List Char → Prop
  | nil : WrittenText [] []
  | cons {c : Char} {cs w ws : List Char} (hfirst : WrittenChar c w) (hrest : WrittenText cs ws) :
      WrittenText (c :: cs) (w ++ ws)

/-! ## Reading numbers -/

/-- A number with further digits behind its own. -/
def withDigits (base n : Nat) (values : List Nat) : Nat := values.foldl (fun n v => n * base + v) n

theorem withDigits_append (base n : Nat) (vs ws : List Nat) :
    withDigits base n (vs ++ ws) = withDigits base (withDigits base n vs) ws := List.foldl_append

theorem withDigits_zeros (base zeros : Nat) : withDigits base 0 (List.replicate zeros 0) = 0 := by
  induction zeros with
  | zero => rfl
  | succ zeros ih => rwa [List.replicate_succ, withDigits, List.foldl_cons, Nat.zero_mul]

section Digits

variable {base : Nat} {digit? : Char → Option Nat}

theorem readDigits_append {ds : List Char} {values : List Nat}
    (h : ds.map digit? = values.map some) (n : Nat) {c : Char} (hstops : digit? c = none)
    (rest : List Char) :
    readDigits base digit? n (ds ++ c :: rest) = (withDigits base n values, c :: rest) := by
  induction ds generalizing values n with
  | nil =>
    obtain rfl : values = [] := by simpa using h.symm
    simp [readDigits, hstops, withDigits]
  | cons d ds ih =>
    cases values with
    | nil => cases h
    | cons v values =>
      obtain ⟨hd, hds⟩ := List.cons.inj h
      simp only [List.cons_append, readDigits, hd, ih hds, withDigits, List.foldl_cons]

theorem readNumber_append {ds : List Char} {values : List Nat}
    (h : ds.map digit? = values.map some) (hne_nil : values ≠ []) {c : Char}
    (hstops : digit? c = none) (rest : List Char) :
    readNumber base digit? (ds ++ c :: rest) = some (withDigits base 0 values, c :: rest) := by
  cases values with
  | nil => exact absurd rfl hne_nil
  | cons v values =>
    cases ds with
    | nil => cases h
    | cons d ds =>
      obtain ⟨hd, hds⟩ := List.cons.inj h
      simp only [List.cons_append, readNumber, hd, Option.map_some, readDigits_append hds v hstops,
        withDigits, List.foldl_cons, Nat.zero_mul, Nat.zero_add]

/-- The digits of a number stand for that number. -/
theorem exists_values_toDigits (htwo : 1 < base)
    (hvalues : ∀ k < base, digit? k.digitChar = some k) (n : Nat) :
    ∃ vs ≠ [], (Nat.toDigits base n).map digit? = vs.map some ∧ withDigits base 0 vs = n := by
  induction n using Nat.strongRecOn with
  | ind n ih =>
    by_cases hsmall : n < base
    · exact ⟨[n], by simp, by simp [Nat.toDigits_of_lt_base hsmall, hvalues n hsmall],
        by simp [withDigits]⟩
    · have hone : 0 < n := by omega
      obtain ⟨vs, -, hvs, hvalue⟩ := ih (n / base) (Nat.div_lt_self hone htwo)
      refine ⟨vs ++ [n % base], by simp, ?_, ?_⟩
      · simp [Nat.toDigits_of_base_le htwo (Nat.le_of_not_lt hsmall), hvs,
          hvalues _ (Nat.mod_lt n (by omega))]
      · rw [withDigits_append, hvalue]
        exact Nat.div_add_mod' n base

theorem Numeral.exists_values {n : Nat} {ds : List Char} (h : Numeral base n ds) (htwo : 1 < base)
    (hvalues : ∀ k < base, digit? k.digitChar = some k)
    (hanyCase : ∀ c, digit? c.toLower = digit? c) :
    ∃ vs ≠ [], ds.map digit? = vs.map some ∧ withDigits base 0 vs = n := by
  obtain ⟨zeros, hz⟩ := h
  obtain ⟨vs, hne_nil, hvs, hvalue⟩ := exists_values_toDigits htwo hvalues n
  have hzero : digit? '0' = some 0 := hvalues 0 (by omega)
  have hlower : ds.map digit? = (ds.map Char.toLower).map digit? := by
    rw [List.map_map]
    exact List.map_congr_left fun c _ => (hanyCase c).symm
  refine ⟨List.replicate zeros 0 ++ vs, by simp [hne_nil], ?_, ?_⟩
  · rw [hlower, hz, List.map_append, List.map_append, hvs, List.map_replicate, List.map_replicate,
      hzero]
  · rw [withDigits_append, withDigits_zeros, hvalue]

/-- A reference by number is read as the character of that number. -/
theorem numericReference?_append {c : Char} {ds : List Char} (h : Numeral base c.toNat ds)
    (htwo : 1 < base) (hvalues : ∀ k < base, digit? k.digitChar = some k)
    (hanyCase : ∀ c, digit? c.toLower = digit? c) (hstops : digit? ';' = none) (rest : List Char) :
    numericReference? base digit? (ds ++ ';' :: rest) = some (c, rest) := by
  obtain ⟨vs, hne_nil, hvs, hvalue⟩ := h.exists_values htwo hvalues hanyCase
  have hvalid : charOfNumber? c.toNat = some c := dif_pos c.valid
  simp only [numericReference?, readNumber_append hvs hne_nil hstops, hvalue, hvalid,
    Option.map_some]

end Digits

theorem toLower_eq_self {c : Char} (h : ¬(65 ≤ c.toNat ∧ c.toNat ≤ 90)) : c.toLower = c :=
  dif_neg h

/-- The value of a digit does not depend on its case when that is so for the capital letters. -/
theorem digit?_toLower {digit? : Char → Option Nat}
    (hcapitals : ∀ n ∈ List.range' 65 26, digit? (Char.ofNat n).toLower = digit? (Char.ofNat n))
    (c : Char) : digit? c.toLower = digit? c := by
  by_cases h : 65 ≤ c.toNat ∧ c.toNat ≤ 90
  · have := hcapitals c.toNat (List.mem_range'_1.2 ⟨h.1, by omega⟩)
    rwa [Char.ofNat_toNat] at this
  · rw [toLower_eq_self h]

/-- The decimal digits of a number are written without letters. -/
theorem numeral_toDigits (n : Nat) : Numeral 10 n (Nat.toDigits 10 n) := by
  refine ⟨0, ?_⟩
  rw [List.replicate_zero, List.nil_append]
  refine (List.map_congr_left fun c hc => ?_).trans (List.map_id _)
  refine toLower_eq_self fun h => ?_
  have hdigit := Nat.isDigit_of_mem_toDigits (by decide) (by decide) hc
  have : c.toNat ≤ 57 := (Char.isDigit_iff_toNat.1 hdigit).2
  omega

theorem decimalReference?_append {c : Char} {ds : List Char} (h : Numeral 10 c.toNat ds)
    (rest : List Char) :
    numericReference? 10 decimalDigit? (ds ++ ';' :: rest) = some (c, rest) :=
  numericReference?_append h (by decide) (by decide) (digit?_toLower (by decide)) (by decide) rest

theorem hexReference?_append {c : Char} {ds : List Char} (h : Numeral 16 c.toNat ds)
    (rest : List Char) :
    numericReference? 16 hexDigit? (ds ++ ';' :: rest) = some (c, rest) :=
  numericReference?_append h (by decide) (by decide) (digit?_toLower (by decide)) (by decide) rest

/-! ## Reading text -/

theorem unescape_cons {c : Char} (h : c ≠ '&') (rest : List Char) :
    unescape (c :: rest) = c :: unescape rest := by
  rw [unescape]
  exact h

theorem unescape_reference {c : Char} {cs rest : List Char} (h : reference? cs = some (c, rest)) :
    unescape ('&' :: cs) = c :: unescape rest := by
  rw [unescape]
  split
  next c' rest' h' =>
    rw [h] at h'
    cases h'
    rfl
  next h' => rw [h] at h'; cases h'

/-- A number in decimal digits is not taken for one in hexadecimal digits. -/
theorem reference?_decimal {c : Char} {ds : List Char} (h : Numeral 10 c.toNat ds)
    (rest : List Char) : reference? ('#' :: (ds ++ ';' :: rest)) = some (c, rest) := by
  have hread := decimalReference?_append h rest
  have hnoMark (x : Char) (hx : decimalDigit? x = none) (more : List Char) :
      ds ++ ';' :: rest ≠ x :: more := fun he => by
    rw [he] at hread
    simp [numericReference?, readNumber, hx] at hread
  unfold reference?
  split
  next more he => exact absurd (List.cons.inj he).2 (hnoMark 'x' (by decide) more)
  next more he => exact absurd (List.cons.inj he).2 (hnoMark 'X' (by decide) more)
  next he => rwa [← (List.cons.inj he).2]
  next hother => exact absurd rfl (hother _)

/-- What stands behind the ampersand of a written character is read as that character. -/
theorem WrittenChar.reference?_append {c : Char} {body : List Char}
    (h : WrittenChar c ('&' :: body)) (rest : List Char) :
    reference? (body ++ rest) = some (c, rest) := by
  cases h with
  | literal hplain => exact absurd rfl hplain
  | named hknown =>
    simp only [namedReferences, List.mem_cons, Prod.mk.injEq, List.not_mem_nil, or_false] at hknown
    rcases hknown with ⟨rfl, rfl⟩ | ⟨rfl, rfl⟩ | ⟨rfl, rfl⟩ | ⟨rfl, rfl⟩ | ⟨rfl, rfl⟩ <;>
      simp [reference?, namedReferences, afterMarker]
  | decimal hnumeral => simpa using reference?_decimal hnumeral rest
  | @hexadecimal x ds hmark hnumeral =>
    have hread : reference? ('#' :: x :: (ds ++ ';' :: rest)) = some (c, rest) := by
      rcases hmark with rfl | rfl <;> exact hexReference?_append hnumeral rest
    simpa using hread

/-- A written character is itself or begins with an ampersand. -/
theorem WrittenChar.literal_or_reference {c : Char} {w : List Char} (h : WrittenChar c w) :
    c ≠ '&' ∧ w = [c] ∨ ∃ body, w = '&' :: body := by
  cases h with
  | literal hplain => exact .inl ⟨hplain, rfl⟩
  | named => exact .inr ⟨_, rfl⟩
  | decimal => exact .inr ⟨_, rfl⟩
  | hexadecimal => exact .inr ⟨_, rfl⟩

/-- A written character is read as that character, whatever follows. -/
theorem WrittenChar.unescape_append {c : Char} {w : List Char} (h : WrittenChar c w)
    (rest : List Char) : unescape (w ++ rest) = c :: unescape rest := by
  rcases h.literal_or_reference with ⟨hplain, rfl⟩ | ⟨body, rfl⟩
  · exact unescape_cons hplain rest
  · exact unescape_reference (h.reference?_append rest)

/-- Whichever way each character of a text is written, the text is read back. -/
theorem WrittenText.unescape_eq {cs w : List Char} (h : WrittenText cs w) : unescape w = cs := by
  induction h with
  | nil => rw [unescape]
  | cons hfirst hrest ih => rw [hfirst.unescape_append, ih]

/-- What a reference stands for begins no other one. -/
example : unescape ['&', 'a', 'm', 'p', ';', 'l', 't', ';'] = ['&', 'l', 't', ';'] := by cbv

end EditableGrammar
