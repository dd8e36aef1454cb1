import EditableGrammar.Proofs.Format.Json.Written
import EditableGrammar.Proofs.Text.Trim

set_option autoImplicit false

/-!
# Well-formed JSON

What a JSON text is, without a word about reading: values, and the texts that spell them (`Spells`).
Blanks stand around items, keys and values, a comma between two items, and nothing else is between
the brackets.

Whatever may follow a value ends it: a blank, a comma, a closing bracket or nothing (`Ends`).  So a
spelled token is scanned up to its end, and a spelled value is passed over, however deep it nests
(`Spells.skipValue_eq`).
-/

namespace EditableGrammar

namespace Json

/-! ## Values and their texts -/

/-- A JSON value.  A string is the list of its pieces as they are written, and a number is its
digits. -/
inductive Value where
  | null
  | bool (b : Bool)
  | number (n : Numeral)
  | string (pieces : List Piece)
  | array (items : List Value)
  | object (fields : List (List Piece × Value))

/-- Nothing but blanks. -/
def Spaces (cs : List Char) : Prop := ∀ c ∈ cs, isSpace c = true

/-- The texts of the characters between the quotes of a string. -/
inductive PiecesText : List Piece → List Char → Prop
  | nil : PiecesText [] []
  | plain {c : Char} {ps : List Piece} {cs : List Char} (hquote : c ≠ '"') (hbackslash : c ≠ '\\')
      (hprintable : 0x20 ≤ c.toNat) (hrest : PiecesText ps cs) :
      PiecesText (.char c :: ps) (c :: cs)
  | short {e c : Char} {ps : List Piece} {cs : List Char} (hknown : shortEscape? e = some c)
      (hrest : PiecesText ps cs) : PiecesText (.char c :: ps) ('\\' :: e :: cs)
  | unit {a b c d : Char} {n : Nat} {ps : List Piece} {cs : List Char}
      (hknown : unit? a b c d = some n) (hrest : PiecesText ps cs) :
      PiecesText (.unit n :: ps) ('\\' :: 'u' :: a :: b :: c :: d :: cs)

/-- One digit or more. -/
structure Digits (cs : List Char) : Prop where
  ne_nil : cs ≠ []
  isDigit : ∀ c ∈ cs, c.isDigit = true

/-- The values of digits. -/
def values (cs : List Char) : List Nat := cs.map fun c => c.toNat - '0'.toNat

/-- Digits before the point: a leading zero stands alone. -/
structure Whole (cs : List Char) : Prop where
  digits : Digits cs
  zero : cs.head? = some '0' → cs = ['0']

/-- The texts of the digits behind a point, if there is one. -/
inductive FractionText : Option (List Nat) → List Char → Prop
  | absent : FractionText none []
  | point {cs : List Char} (hdigits : Digits cs) : FractionText (some (values cs)) ('.' :: cs)

/-- The texts of an exponent, if there is one. -/
inductive ExponentText : Option Int → List Char → Prop
  | absent : ExponentText none []
  | plain {e : Char} {cs : List Char} (hletter : e = 'e' ∨ e = 'E') (hdigits : Digits cs) :
      ExponentText (some (ofDigits (values cs))) (e :: cs)
  | plus {e : Char} {cs : List Char} (hletter : e = 'e' ∨ e = 'E') (hdigits : Digits cs) :
      ExponentText (some (ofDigits (values cs))) (e :: '+' :: cs)
  | minus {e : Char} {cs : List Char} (hletter : e = 'e' ∨ e = 'E') (hdigits : Digits cs) :
      ExponentText (some (-ofDigits (values cs))) (e :: '-' :: cs)

/-- What stands before a number. -/
def sign : Bool → List Char
  | true => ['-']
  | false => []

/-- The texts of a number. -/
inductive NumberText : Numeral → List Char → Prop
  | mk {whole fraction exponent : List Char} {f : Option (List Nat)} {e : Option Int}
      (negative : Bool) (hwhole : Whole whole) (hfraction : FractionText f fraction)
      (hexponent : ExponentText e exponent) :
      NumberText ⟨negative, values whole, f.getD [], e.getD 0, f.isNone && e.isNone⟩
        (sign negative ++ whole ++ fraction ++ exponent)

/-- What a stretch of a JSON text is about. -/
inductive Part where
  /-- a value -/
  | value (v : Value)
  /-- a value with blanks around it: a whole text, or an item of an array -/
  | item (v : Value)
  /-- what stands between the brackets of an array -/
  | items (vs : List Value)
  /-- a field of an object, with blanks around it -/
  | field (k : List Piece) (v : Value)
  /-- what stands between the brackets of an object -/
  | fields (fs : List (List Piece × Value))

/-- The texts of a part of a JSON text. -/
inductive Spells : Part → List Char → Prop
  | null : Spells (.value .null) ['n', 'u', 'l', 'l']
  | boolTrue : Spells (.value (.bool true)) ['t', 'r', 'u', 'e']
  | boolFalse : Spells (.value (.bool false)) ['f', 'a', 'l', 's', 'e']
  | number {n : Numeral} {cs : List Char} (htext : NumberText n cs) : Spells (.value (.number n)) cs
  | string {ps : List Piece} {cs : List Char} (htext : PiecesText ps cs) :
      Spells (.value (.string ps)) ('"' :: cs ++ ['"'])
  | array {vs : List Value} {cs : List Char} (hitems : Spells (.items vs) cs) :
      Spells (.value (.array vs)) ('[' :: cs ++ [']'])
  | object {fs : List (List Piece × Value)} {cs : List Char} (hfields : Spells (.fields fs) cs) :
      Spells (.value (.object fs)) ('\x7b' :: cs ++ ['\x7d'])
  | item {v : Value} {ws cs ws' : List Char} (hbefore : Spaces ws) (hvalue : Spells (.value v) cs)
      (hafter : Spaces ws') : Spells (.item v) (ws ++ cs ++ ws')
  | noItems {ws : List Char} (hspaces : Spaces ws) : Spells (.items []) ws
  | lastItem {v : Value} {cs : List Char} (hitem : Spells (.item v) cs) : Spells (.items [v]) cs
  | moreItems {v w : Value} {vs : List Value} {cs more : List Char} (hitem : Spells (.item v) cs)
      (hrest : Spells (.items (w :: vs)) more) : Spells (.items (v :: w :: vs)) (cs ++ ',' :: more)
  | field {k : List Piece} {v : Value} {ws key ws' cs : List Char} (hbefore : Spaces ws)
      (htext : PiecesText k key) (hbehind : Spaces ws') (hitem : Spells (.item v) cs) :
      Spells (.field k v) (ws ++ '"' :: key ++ '"' :: ws' ++ ':' :: cs)
  | noFields {ws : List Char} (hspaces : Spaces ws) : Spells (.fields []) ws
  | lastField {k : List Piece} {v : Value} {cs : List Char} (hfield : Spells (.field k v) cs) :
      Spells (.fields [(k, v)]) cs
  | moreFields {k : List Piece} {v : Value} {f : List Piece × Value}
      {fs : List (List Piece × Value)} {cs more : List Char} (hfield : Spells (.field k v) cs)
      (hrest : Spells (.fields (f :: fs)) more) :
      Spells (.fields ((k, v) :: f :: fs)) (cs ++ ',' :: more)

/-- What may follow a value: a blank, a comma, a closing bracket or nothing. -/
def Ends (rest : List Char) : Prop := ∀ c ∈ rest.head?, isSpace c = true ∨ c ∈ [',', ']', '\x7d']

/-! ## Blanks -/

theorem Spaces.skipSpace_append {ws : List Char} (h : Spaces ws) (cs : List Char) :
    skipSpace (ws ++ cs) = skipSpace cs := List.dropWhile_append_of_pos h

theorem Spaces.skipSpace_cons {ws : List Char} (h : Spaces ws) {c : Char}
    (hsolid : isSpace c = false) (cs : List Char) : skipSpace (ws ++ c :: cs) = c :: cs :=
  (h.skipSpace_append _).trans (Reader.skipSpace_cons hsolid cs)

theorem Ends.append {ws rest : List Char} (h : Spaces ws) (hrest : Ends rest) :
    Ends (ws ++ rest) := by
  cases ws with
  | nil => exact hrest
  | cons c ws =>
    rintro _ ⟨⟩
    exact .inl (h c List.mem_cons_self)

theorem Ends.cons {c : Char} (h : c ∈ [',', ']', '\x7d']) (rest : List Char) :
    Ends (c :: rest) := by
  rintro _ ⟨⟩
  exact .inr h

/-! ## Strings -/

/-- The pieces of a string are scanned up to the closing quote. -/
theorem PiecesText.scanString_eq {ps : List Piece} {cs : List Char} (h : PiecesText ps cs)
    (rest : List Char) : scanString (cs ++ '"' :: rest) = some (ps, rest) := by
  induction h with
  | nil => simp [scanString]
  | @plain c ps cs hquote hbackslash hprintable _ ih =>
    have hnotControl : ¬ c.toNat < 0x20 := Nat.not_lt.2 hprintable
    simp [scanString, hbackslash, hnotControl, ih]
  | @short e c ps cs hknown _ ih =>
    have hnotU : e ≠ 'u' := by
      rintro rfl
      cases hknown
    simp [scanString, hknown, hnotU, ih]
  | unit hknown _ ih => simp [scanString, hknown, ih]

/-! ## Numbers -/

theorem digits_append {cs rest : List Char} (h : ∀ c ∈ cs, c.isDigit = true)
    (hstop : ∀ c ∈ rest.head?, c.isDigit = false) : digits (cs ++ rest) = (values cs, rest) := by
  obtain ⟨htaken, hleft⟩ := span_append h hstop
  rw [digits, htaken, hleft, values]

theorem Digits.values_ne_nil {cs : List Char} (h : Digits cs) : values cs ≠ [] := by
  simpa [values] using h.ne_nil

theorem Whole.wholePart_eq {cs rest : List Char} (h : Whole cs)
    (hstop : ∀ c ∈ rest.head?, c.isDigit = false) :
    wholePart (cs ++ rest) = some (values cs, rest) := by
  rw [wholePart, digits_append h.digits.isDigit hstop]
  obtain ⟨c, cs, rfl⟩ := List.exists_cons_of_ne_nil h.digits.ne_nil
  have hleast : '0'.toNat ≤ c.toNat := by
    have hdigit := h.digits.isDigit c List.mem_cons_self
    simp only [Char.isDigit, Bool.and_eq_true, decide_eq_true_eq] at hdigit
    exact hdigit.1
  cases cs with
  | nil => simp [values]
  | cons d cs =>
    have hfirst : c.toNat - '0'.toNat ≠ 0 := fun hzero => by
      have hzero : c = '0' := Char.toNat_inj.1 (by omega)
      have halone := h.zero (congrArg some hzero)
      cases halone
    generalize hv : c.toNat - '0'.toNat = value at hfirst
    cases value with
    | zero => exact absurd rfl hfirst
    | succ value => simp only [values, List.map_cons, hv]

theorem FractionText.fractionPart_eq {f : Option (List Nat)} {cs rest : List Char}
    (h : FractionText f cs) (hstop : ∀ c ∈ rest.head?, c.isDigit = false ∧ c ≠ '.') :
    fractionPart (cs ++ rest) = some (f, rest) := by
  cases h with
  | absent =>
    cases rest with
    | nil => rfl
    | cons c rest => simp [fractionPart, (hstop c rfl).2]
  | @point cs hdigits =>
    rw [List.cons_append, fractionPart,
      digits_append hdigits.isDigit fun c hc => (hstop c hc).1]
    split
    next hnone => exact absurd (Prod.mk.inj hnone).1 hdigits.values_ne_nil
    next hsome => cases hsome; rfl

/-- An exponent, from its digits on. -/
theorem Digits.exponentDigits_eq {cs rest : List Char} (h : Digits cs)
    (hstop : ∀ c ∈ rest.head?, c.isDigit = false) (negative : Bool) :
    exponentDigits negative (cs ++ rest) =
      some (some (if negative then -(ofDigits (values cs) : Int) else ofDigits (values cs)),
        rest) := by
  rw [exponentDigits, digits_append h.isDigit hstop]
  split
  next hnone => exact absurd (Prod.mk.inj hnone).1 h.values_ne_nil
  next hsome => cases hsome; rfl

/-- What follows the letter of an exponent without a sign is no sign. -/
theorem Digits.apart {cs : List Char} (h : Digits cs) (rest more : List Char) :
    cs ++ rest ≠ '-' :: more ∧ cs ++ rest ≠ '+' :: more := by
  obtain ⟨d, cs, rfl⟩ := List.exists_cons_of_ne_nil h.ne_nil
  have hdigit := h.isDigit d List.mem_cons_self
  constructor <;>
  · rintro ⟨⟩
    exact absurd hdigit (by decide)

theorem ExponentText.exponentPart_eq {e : Option Int} {cs rest : List Char}
    (h : ExponentText e cs)
    (hstop : ∀ c ∈ rest.head?, c.isDigit = false ∧ c ≠ 'e' ∧ c ≠ 'E') :
    exponentPart (cs ++ rest) = some (e, rest) := by
  have hstop' : ∀ c ∈ rest.head?, c.isDigit = false := fun c hc => (hstop c hc).1
  have hisLetter {e : Char} (hletter : e = 'e' ∨ e = 'E') : (e == 'e' || e == 'E') = true := by
    rcases hletter with rfl | rfl <;> rfl
  cases h with
  | absent =>
    cases rest with
    | nil => rfl
    | cons c rest => simp [exponentPart, (hstop c rfl).2]
  | @plain e cs hletter hdigits =>
    rw [List.cons_append, exponentPart, if_pos (hisLetter hletter)]
    · exact hdigits.exponentDigits_eq hstop' false
    · exact fun more => (hdigits.apart rest more).1
    · exact fun more => (hdigits.apart rest more).2
  | plus hletter hdigits =>
    simp [exponentPart, hisLetter hletter, hdigits.exponentDigits_eq hstop' false]
  | minus hletter hdigits =>
    simp [exponentPart, hisLetter hletter, hdigits.exponentDigits_eq hstop' true]

/-- No digit, point or exponent stands behind a value. -/
theorem Ends.apart {rest : List Char} (h : Ends rest) :
    ∀ c ∈ rest.head?, c.isDigit = false ∧ c ≠ '.' ∧ c ≠ 'e' ∧ c ≠ 'E' := by
  intro c hc
  rcases h c hc with hspace | hmark
  · simp only [isSpace, Bool.or_eq_true, beq_iff_eq] at hspace
    rcases hspace with ((rfl | rfl) | rfl) | rfl <;> decide
  · simp only [List.mem_cons, List.not_mem_nil, or_false] at hmark
    rcases hmark with rfl | rfl | rfl <;> decide

/-- A number is scanned up to where it ends. -/
theorem NumberText.scanNumber_eq {n : Numeral} {cs rest : List Char} (h : NumberText n cs)
    (hends : Ends rest) : scanNumber (cs ++ rest) = some (n, rest) := by
  obtain ⟨negative, hwhole, hfraction, hexponent⟩ := h
  rename_i whole fraction exponent f e
  have hbehindFraction : ∀ c ∈ (exponent ++ rest).head?, c.isDigit = false ∧ c ≠ '.' := by
    cases hexponent with
    | absent => exact fun c hc => ⟨(hends.apart c hc).1, (hends.apart c hc).2.1⟩
    | plain hletter => rintro _ ⟨⟩; rcases hletter with rfl | rfl <;> decide
    | plus hletter => rintro _ ⟨⟩; rcases hletter with rfl | rfl <;> decide
    | minus hletter => rintro _ ⟨⟩; rcases hletter with rfl | rfl <;> decide
  have hbehindWhole : ∀ c ∈ (fraction ++ (exponent ++ rest)).head?, c.isDigit = false := by
    cases hfraction with
    | absent => exact fun c hc => (hbehindFraction c hc).1
    | point => rintro _ ⟨⟩; rfl
  have hunsigned : unsignedNumber negative (whole ++ (fraction ++ (exponent ++ rest))) =
      some (⟨negative, values whole, f.getD [], e.getD 0, f.isNone && e.isNone⟩, rest) := by
    simp only [unsignedNumber, hwhole.wholePart_eq hbehindWhole,
      hfraction.fractionPart_eq hbehindFraction,
      hexponent.exponentPart_eq fun c hc => ⟨(hends.apart c hc).1, (hends.apart c hc).2.2⟩]
  rw [List.append_assoc, List.append_assoc, List.append_assoc]
  cases negative with
  | true => exact hunsigned
  | false =>
    rw [sign, List.nil_append, scanNumber]
    · exact hunsigned
    · exact fun more => (hwhole.digits.apart _ more).1

/-- A number begins with a sign or a digit. -/
theorem NumberText.head {n : Numeral} {cs : List Char} (h : NumberText n cs) :
    ∃ c more, cs = c :: more ∧ (c = '-' ∨ c.isDigit = true) := by
  obtain ⟨negative, hwhole, -, -⟩ := h
  rename_i whole fraction exponent f e
  obtain ⟨d, whole, rfl⟩ := List.exists_cons_of_ne_nil hwhole.digits.ne_nil
  cases negative with
  | true => exact ⟨'-', _, rfl, .inl rfl⟩
  | false => exact ⟨d, _, rfl, .inr (hwhole.digits.isDigit d List.mem_cons_self)⟩

/-- Nothing but a number begins with a sign or a digit. -/
theorem ne_of_number_head {c d : Char} (h : c = '-' ∨ c.isDigit = true) (hminus : d ≠ '-')
    (hdigit : d.isDigit = false) : c ≠ d := by
  rintro rfl
  rcases h with rfl | h
  · exact hminus rfl
  · rw [hdigit] at h
    cases h

/-! ## Passing over values -/

/-- A value begins with a character of its own. -/
theorem Spells.value_head {v : Value} {cs : List Char} (h : Spells (.value v) cs) :
    ∃ c more, cs = c :: more ∧ isSpace c = false ∧ c ≠ ']' := by
  cases h with
  | null => exact ⟨_, _, rfl, by decide, by decide⟩
  | boolTrue => exact ⟨_, _, rfl, by decide, by decide⟩
  | boolFalse => exact ⟨_, _, rfl, by decide, by decide⟩
  | string => exact ⟨_, _, rfl, by decide, by decide⟩
  | array => exact ⟨_, _, rfl, by decide, by decide⟩
  | object => exact ⟨_, _, rfl, by decide, by decide⟩
  | number htext =>
    obtain ⟨c, more, rfl, head⟩ := htext.head
    have hne {d : Char} := ne_of_number_head (d := d) head
    refine ⟨c, more, rfl, ?_, hne (by decide) (by decide)⟩
    simp [isSpace, hne (d := ' ') (by decide) (by decide), hne (d := '\t') (by decide) (by decide),
      hne (d := '\n') (by decide) (by decide), hne (d := '\r') (by decide) (by decide)]

/-- The blanks before a value are passed over, and no more. -/
theorem Spells.skipSpace_eq {v : Value} {ws cs : List Char} (h : Spells (.value v) cs)
    (hbefore : Spaces ws) (rest : List Char) : skipSpace (ws ++ cs ++ rest) = cs ++ rest := by
  obtain ⟨c, more, rfl, hsolid, -⟩ := h.value_head
  rw [List.append_assoc, hbefore.skipSpace_append]
  exact List.dropWhile_cons_of_neg (by simp [hsolid])

section Steps

variable {cs more after : List Char} {c : Char} {b : Bracket} {opened : List Bracket}

theorem skipFrom_scalar (hblank : skipSpace cs = c :: more) (hplain : opening? c = none)
    (hscalar : skipScalar (c :: more) = some after) :
    skipFrom .value opened cs = skipFrom .next opened after := by
  rw [skipFrom]
  split
  next he => rw [hblank] at he; cases he
  next he =>
    rw [hblank] at he
    cases he
    simp only [hplain]
    split <;> simp_all

theorem skipFrom_bracket (hblank : skipSpace cs = c :: more) (hbracket : opening? c = some b) :
    skipFrom .value opened cs =
      match closed? b more with
      | some after => skipFrom .next opened after
      | none => skipFrom b.item (b :: opened) more := by
  rw [skipFrom]
  split
  next he => rw [hblank] at he; cases he
  next he =>
    rw [hblank] at he
    cases he
    simp only [hbracket]
    split <;> simp_all

theorem skipFrom_key (hblank : skipSpace cs = '"' :: more) (hkey : skipKey more = some after) :
    skipFrom .key opened cs = skipFrom .value opened after := by
  conv => lhs; rw [skipFrom]
  split
  next he =>
    rw [hblank] at he
    cases he
    split <;> simp_all
  next he => exact absurd hblank (he _)

theorem skipFrom_close (hblank : skipSpace cs = b.closer :: more) :
    skipFrom .next (b :: opened) cs = skipFrom .next opened more := by
  rw [skipFrom]
  split
  next he => rw [hblank] at he; cases he
  next he =>
    rw [hblank] at he
    cases he
    simp

theorem skipFrom_comma (hblank : skipSpace cs = ',' :: more) :
    skipFrom .next (b :: opened) cs = skipFrom b.item (b :: opened) more := by
  have hnotCloser : (',' == b.closer) = false := by cases b <;> rfl
  rw [skipFrom]
  split
  next he => rw [hblank] at he; cases he
  next he =>
    rw [hblank] at he
    cases he
    simp [hnotCloser]

end Steps

theorem isSpace_closer (b : Bracket) : isSpace b.closer = false := by cases b <;> rfl

/-- Between the brackets of an empty array or object there are blanks only. -/
theorem Spaces.closed?_eq {ws : List Char} (h : Spaces ws) (b : Bracket) (rest : List Char) :
    closed? b (ws ++ b.closer :: rest) = some rest := by
  rw [closed?, h.skipSpace_cons (isSpace_closer b)]
  simp [afterMarker]

theorem skipFrom_next_of_spaces {ws : List Char} (h : Spaces ws) (b : Bracket)
    (outer : List Bracket) (rest : List Char) :
    skipFrom .next (b :: outer) (ws ++ rest) = skipFrom .next (b :: outer) rest := by
  rw [skipFrom, skipFrom, h.skipSpace_append]

/-- What passing over comes to for each part of a text. -/
def Passes : Part → List Char → Prop
  | .value _, cs => ∀ ws opened rest, Spaces ws → Ends rest →
      skipFrom .value opened (ws ++ cs ++ rest) = skipFrom .next opened rest
  | .item _, cs => ∀ b outer rest, Ends rest →
      skipFrom .value (b :: outer) (cs ++ rest) = skipFrom .next (b :: outer) rest
  | .items vs, cs => ∀ outer rest, vs ≠ [] →
      skipFrom .value (.array :: outer) (cs ++ ']' :: rest) = skipFrom .next outer rest
  | .field _ _, cs => ∀ b outer rest, Ends rest →
      skipFrom .key (b :: outer) (cs ++ rest) = skipFrom .next (b :: outer) rest
  | .fields fs, cs => ∀ outer rest, fs ≠ [] →
      skipFrom .key (.object :: outer) (cs ++ '\x7d' :: rest) = skipFrom .next outer rest

theorem Spells.items_closed? {vs : List Value} {cs : List Char} (h : Spells (.items vs) cs)
    (rest : List Char) :
    (vs = [] → closed? .array (cs ++ ']' :: rest) = some rest) ∧
      (vs ≠ [] → closed? .array (cs ++ ']' :: rest) = none) := by
  have hfirst {v : Value} {cs : List Char} (h : Spells (.item v) cs) (rest : List Char) :
      closed? .array (cs ++ rest) = none := by
    cases h with
    | @item v ws cs ws' hbefore hvalue hafter =>
      obtain ⟨c, more, rfl, hsolid, hne⟩ := hvalue.value_head
      rw [List.append_assoc]
      exact Reader.closed?_of_head (hvalue.skipSpace_eq hbefore (ws' ++ rest)) hne
  cases h with
  | noItems hspaces => exact ⟨fun _ => hspaces.closed?_eq .array rest, fun hne => absurd rfl hne⟩
  | lastItem hitem => exact ⟨List.cons_ne_nil _ _ |>.elim, fun _ => hfirst hitem _⟩
  | moreItems hitem =>
    refine ⟨List.cons_ne_nil _ _ |>.elim, fun _ => ?_⟩
    rw [List.append_assoc]
    exact hfirst hitem _

theorem Spells.fields_closed? {fs : List (List Piece × Value)} {cs : List Char}
    (h : Spells (.fields fs) cs) (rest : List Char) :
    (fs = [] → closed? .object (cs ++ '\x7d' :: rest) = some rest) ∧
      (fs ≠ [] → closed? .object (cs ++ '\x7d' :: rest) = none) := by
  have hfirst {k : List Piece} {v : Value} {cs : List Char} (h : Spells (.field k v) cs)
      (rest : List Char) : closed? .object (cs ++ rest) = none := by
    cases h with
    | field hbefore htext hbehind hitem =>
      simp only [List.append_assoc, List.cons_append]
      exact Reader.closed?_of_head (hbefore.skipSpace_cons rfl _) (by decide)
  cases h with
  | noFields hspaces => exact ⟨fun _ => hspaces.closed?_eq .object rest, fun hne => absurd rfl hne⟩
  | lastField hfield => exact ⟨List.cons_ne_nil _ _ |>.elim, fun _ => hfirst hfield _⟩
  | moreFields hfield =>
    refine ⟨List.cons_ne_nil _ _ |>.elim, fun _ => ?_⟩
    rw [List.append_assoc]
    exact hfirst hfield _

/-- A key and its colon are passed over. -/
theorem skipKey_eq {k : List Piece} {key ws : List Char} (htext : PiecesText k key)
    (hbehind : Spaces ws) (rest : List Char) :
    skipKey (key ++ '"' :: (ws ++ ':' :: rest)) = some rest := by
  simp only [skipKey, skipString, htext.scanString_eq, Option.map_some]
  rw [hbehind.skipSpace_cons rfl]
  rfl

theorem NumberText.skipScalar_eq {n : Numeral} {cs rest : List Char} (h : NumberText n cs)
    (hends : Ends rest) : skipScalar (cs ++ rest) = some rest := by
  have hscanned := h.scanNumber_eq hends
  obtain ⟨c, more, rfl, head⟩ := h.head
  have hne {d : Char} := ne_of_number_head (d := d) head
  rw [List.cons_append] at hscanned ⊢
  rw [skipScalar, hscanned]
  · rfl
  all_goals
    rintro _ ⟨⟩
    exact hne (by decide) (by decide) rfl

/-- A value that is neither an array nor an object is passed over as one token. -/
theorem Spells.passes_token {v : Value} {c : Char} {more : List Char}
    (h : Spells (.value v) (c :: more)) (hplain : opening? c = none)
    (htoken : ∀ rest, Ends rest → skipScalar (c :: (more ++ rest)) = some rest) :
    Passes (.value v) (c :: more) := by
  intro ws opened rest hbefore hends
  exact skipFrom_scalar (h.skipSpace_eq hbefore rest) hplain (htoken rest hends)

/-- Each part of a text is passed over. -/
theorem Spells.passes {part : Part} {cs : List Char} (h : Spells part cs) : Passes part cs := by
  induction h with
  | null => exact Spells.null.passes_token rfl fun rest _ => by simp [skipScalar, afterMarker]
  | boolTrue =>
    exact Spells.boolTrue.passes_token rfl fun rest _ => by simp [skipScalar, afterMarker]
  | boolFalse =>
    exact Spells.boolFalse.passes_token rfl fun rest _ => by simp [skipScalar, afterMarker]
  | number htext =>
    obtain ⟨c, more, rfl, head⟩ := htext.head
    have hne {d : Char} := ne_of_number_head (d := d) head
    have hplain : opening? c = none := by
      simp [opening?, hne (d := '[') (by decide) (by decide),
        hne (d := '\x7b') (by decide) (by decide)]
    exact (Spells.number htext).passes_token hplain fun rest => htext.skipScalar_eq
  | string htext =>
    refine (Spells.string htext).passes_token rfl fun rest _ => ?_
    simp [skipScalar, skipString, htext.scanString_eq]
  | @array vs cs hitems ih =>
    intro ws opened rest hbefore _
    rw [skipFrom_bracket ((Spells.array hitems).skipSpace_eq hbefore rest) (b := .array) rfl]
    obtain ⟨hempty, hseveral⟩ := hitems.items_closed? rest
    by_cases hvs : vs = []
    · simp [hempty hvs]
    · simpa [hseveral hvs, Bracket.item] using ih opened rest hvs
  | @object fs cs hfields ih =>
    intro ws opened rest hbefore _
    rw [skipFrom_bracket ((Spells.object hfields).skipSpace_eq hbefore rest) (b := .object) rfl]
    obtain ⟨hempty, hseveral⟩ := hfields.fields_closed? rest
    by_cases hfs : fs = []
    · simp [hempty hfs]
    · simpa [hseveral hfs, Bracket.item] using ih opened rest hfs
  | @item v ws cs ws' hbefore _ hafter ih =>
    intro b outer rest hends
    rw [List.append_assoc, ih ws (b :: outer) (ws' ++ rest) hbefore (hends.append hafter),
      skipFrom_next_of_spaces hafter]
  | noItems => exact fun outer rest hne => absurd rfl hne
  | lastItem _ ih =>
    intro outer rest _
    rw [ih .array outer _ (.cons (by decide) rest)]
    exact skipFrom_close (Reader.skipSpace_cons rfl rest)
  | moreItems _ _ ih ih' =>
    intro outer rest _
    rw [List.append_assoc, List.cons_append, ih .array outer _ (.cons (by decide) _),
      skipFrom_comma (Reader.skipSpace_cons rfl _)]
    exact ih' outer rest (List.cons_ne_nil _ _)
  | @field k v ws key ws' cs hbefore htext hbehind _ ih =>
    intro b outer rest hends
    have hsplit : ws ++ '"' :: key ++ '"' :: ws' ++ ':' :: cs ++ rest =
        ws ++ '"' :: (key ++ '"' :: (ws' ++ ':' :: (cs ++ rest))) := by simp
    rw [hsplit, skipFrom_key (hbefore.skipSpace_cons rfl _) (skipKey_eq htext hbehind (cs ++ rest)),
      ih b outer rest hends]
  | noFields => exact fun outer rest hne => absurd rfl hne
  | lastField _ ih =>
    intro outer rest _
    rw [ih .object outer _ (.cons (by decide) rest)]
    exact skipFrom_close (Reader.skipSpace_cons rfl rest)
  | moreFields _ _ ih ih' =>
    intro outer rest _
    rw [List.append_assoc, List.cons_append, ih .object outer _ (.cons (by decide) _),
      skipFrom_comma (Reader.skipSpace_cons rfl _)]
    exact ih' outer rest (List.cons_ne_nil _ _)

/-- A value is passed over up to its end. -/
theorem Spells.skipValue_eq {v : Value} {ws cs rest : List Char} (h : Spells (.value v) cs)
    (hbefore : Spaces ws) (hends : Ends rest) : skipValue (ws ++ cs ++ rest) = some rest := by
  rw [skipValue, h.passes ws [] rest hbefore hends, skipFrom]

end Json

end EditableGrammar
