import EditableGrammar.Text.Search

set_option autoImplicit false

/-!
# Character references

In a report some characters are written as references: five by name, any by its number in decimal or
hexadecimal digits.  `unescape` reads them in one pass from the left, so what a reference stands for
is never read as the beginning of another one.  A number that is no character, and an ampersand that
begins no reference, stay as they are.
-/

namespace EditableGrammar

/-- The value of a decimal digit. -/
def decimalDigit? (c : Char) : Option Nat :=
  if '0' ≤ c ∧ c ≤ '9' then some (c.toNat - '0'.toNat) else none

/-- The value of a hexadecimal digit of either case. -/
def hexDigit? (c : Char) : Option Nat :=
  if '0' ≤ c ∧ c ≤ '9' then some (c.toNat - '0'.toNat)
  else if 'a' ≤ c ∧ c ≤ 'f' then some (c.toNat - 'a'.toNat + 10)
  else if 'A' ≤ c ∧ c ≤ 'F' then some (c.toNat - 'A'.toNat + 10)
  else none

/-- The number that the digits at the beginning of a text add to a number read before them, and what
follows them. -/
def readDigits (base : Nat) (digit? : Char → Option Nat) : Nat → List Char → Nat × List Char
  | n, [] => (n, [])
  | n, c :: cs =>
    match digit? c with
    | some d => readDigits base digit? (n * base + d) cs
    | none => (n, c :: cs)

/-- A number of at least one digit, and what follows it. -/
def readNumber (base : Nat) (digit? : Char → Option Nat) : List Char → Option (Nat × List Char)
  | [] => none
  | c :: cs => (digit? c).map fun d => readDigits base digit? d cs

/-- The character with a number, if there is one. -/
def charOfNumber? (n : Nat) : Option Char :=
  if h : n.isValidChar then some (Char.ofNatAux n h) else none

/-- The references by name, as they stand after the ampersand. -/
def namedReferences : List (List Char × Char) :=
  [(['l', 't', ';'], '<'), (['g', 't', ';'], '>'), (['q', 'u', 'o', 't', ';'], '"'),
    (['a', 'p', 'o', 's', ';'], '\''), (['a', 'm', 'p', ';'], '&')]

/-- The rest of a reference by number, from its digits on. -/
def numericReference? (base : Nat) (digit? : Char → Option Nat) (cs : List Char) :
    Option (Char × List Char) :=
  match readNumber base digit? cs with
  | some (n, ';' :: rest) => (charOfNumber? n).map fun c => (c, rest)
  | _ => none

/-- The character that the reference at the beginning of a text stands for, and what follows the
reference.  The ampersand has been read. -/
def reference? (cs : List Char) : Option (Char × List Char) :=
  match cs with
  | '#' :: 'x' :: rest => numericReference? 16 hexDigit? rest
  | '#' :: 'X' :: rest => numericReference? 16 hexDigit? rest
  | '#' :: rest => numericReference? 10 decimalDigit? rest
  | cs => namedReferences.findSome? fun (name, c) => (afterMarker name cs).map fun rest => (c, rest)

/-! ## A reference takes up characters -/

theorem readDigits_length_le (base : Nat) (digit? : Char → Option Nat) (n : Nat) (cs : List Char) :
    (readDigits base digit? n cs).2.length ≤ cs.length := by
  induction cs generalizing n with
  | nil => exact Nat.le_refl _
  | cons c cs ih =>
    unfold readDigits
    split
    · exact Nat.le_succ_of_le (ih _)
    · exact Nat.le_refl _

theorem numericReference?_length_lt {base : Nat} {digit? : Char → Option Nat} {cs rest : List Char}
    {c : Char} (h : numericReference? base digit? cs = some (c, rest)) :
    rest.length < cs.length := by
  unfold numericReference? at h
  split at h
  · next n rest' hn =>
    obtain ⟨c', _, he⟩ := Option.map_eq_some_iff.1 h
    cases he
    cases cs with
    | nil => cases hn
    | cons d cs =>
      obtain ⟨v, _, he⟩ := Option.map_eq_some_iff.1 hn
      have := readDigits_length_le base digit? v cs
      rw [he] at this
      simp only [List.length_cons] at this ⊢
      omega
  · cases h

theorem reference?_length_le {cs rest : List Char} {c : Char} (h : reference? cs = some (c, rest)) :
    rest.length ≤ cs.length := by
  unfold reference? at h
  split at h
  · have := numericReference?_length_lt h
    simp only [List.length_cons]
    omega
  · have := numericReference?_length_lt h
    simp only [List.length_cons]
    omega
  · have := numericReference?_length_lt h
    simp only [List.length_cons]
    omega
  · obtain ⟨_, ⟨name, c'⟩, _, _, hf, _⟩ := List.findSome?_eq_some_iff.1 h
    obtain ⟨r, hr, he⟩ := Option.map_eq_some_iff.1 hf
    cases he
    rw [afterMarker_eq_some_iff.1 hr]
    simp

/-- A text with its references replaced by what they stand for. -/
def unescape (cs : List Char) : List Char :=
  match cs with
  | [] => []
  | '&' :: rest =>
    match _h : reference? rest with
    | some (c, after) => c :: unescape after
    | none => '&' :: unescape rest
  | c :: rest => c :: unescape rest
termination_by cs.length
decreasing_by
  all_goals simp only [List.length_cons]
  · have := reference?_length_le _h
    omega
  · omega
  · omega

end EditableGrammar
