import EditableGrammar.Text.Entity

set_option autoImplicit false

/-!
# The tokens of JSON

Blanks, strings and numbers, read from a list of characters that begins with the token.  A string is
scanned into pieces first, one for each character as written, and then decoded: an escape by number
gives a 16-bit unit, and a pair of surrogate units one character.  A surrogate without its partner
can be scanned but not decoded.
-/

namespace EditableGrammar

namespace Json

/-- The blanks of JSON. -/
def isSpace (c : Char) : Bool := c == ' ' || c == '\t' || c == '\n' || c == '\r'

/-- What follows the blanks at the beginning of a text. -/
def skipSpace (cs : List Char) : List Char := cs.dropWhile isSpace

theorem skipSpace_length_le (cs : List Char) : (skipSpace cs).length ≤ cs.length :=
  (List.dropWhile_sublist isSpace).length_le

/-! ## Strings -/

/-- One character of a string as it is written. -/
inductive Piece where
  /-- a character, plain or behind a backslash -/
  | char (c : Char)
  /-- a 16-bit unit by number -/
  | unit (n : Nat)
  deriving DecidableEq, Repr

/-- The character that a letter behind a backslash stands for. -/
def shortEscape? (c : Char) : Option Char :=
  match c with
  | '"' => some '"'
  | '\\' => some '\\'
  | '/' => some '/'
  | 'b' => some '\x08'
  | 'f' => some '\x0c'
  | 'n' => some '\n'
  | 'r' => some '\r'
  | 't' => some '\t'
  | _ => none

/-- The number written with four hexadecimal digits. -/
def unit? (a b c d : Char) : Option Nat :=
  match hexDigit? a, hexDigit? b, hexDigit? c, hexDigit? d with
  | some a, some b, some c, some d => some (((a * 16 + b) * 16 + c) * 16 + d)
  | _, _, _, _ => none

/-- The pieces of a string and what follows it.  The opening quote has been read. -/
def scanString : List Char → Option (List Piece × List Char)
  | [] => none
  | '"' :: rest => some ([], rest)
  | '\\' :: 'u' :: a :: b :: c :: d :: rest =>
    match unit? a b c d with
    | some n => (scanString rest).map fun (pieces, after) => (.unit n :: pieces, after)
    | none => none
  | '\\' :: e :: rest =>
    match shortEscape? e with
    | some c => (scanString rest).map fun (pieces, after) => (.char c :: pieces, after)
    | none => none
  | c :: rest =>
    if c == '\\' || c.toNat < 0x20 then none
    else (scanString rest).map fun (pieces, after) => (.char c :: pieces, after)

/-- Whether a unit is the first half of a character beyond the 16-bit range. -/
def isHigh (n : Nat) : Bool := 0xd800 ≤ n && n ≤ 0xdbff

/-- Whether a unit is the second half of a character beyond the 16-bit range. -/
def isLow (n : Nat) : Bool := 0xdc00 ≤ n && n ≤ 0xdfff

/-- The characters that the pieces of a string stand for, unless a half stands alone. -/
def decodePieces : List Piece → Option (List Char)
  | [] => some []
  | .char c :: pieces => (decodePieces pieces).map (c :: ·)
  | .unit n :: .unit m :: pieces =>
    if isHigh n then
      if isLow m then
        (decodePieces pieces).map
          (Char.ofNat (0x10000 + (n - 0xd800) * 0x400 + (m - 0xdc00)) :: ·)
      else none
    else if isLow n then none
    else (decodePieces (.unit m :: pieces)).map (Char.ofNat n :: ·)
  | .unit n :: pieces =>
    if isHigh n || isLow n then none
    else (decodePieces pieces).map (Char.ofNat n :: ·)

/-- The text of a string and what follows it.  The opening quote has been read. -/
def readString (cs : List Char) : Option (String × List Char) :=
  match scanString cs with
  | none => none
  | some (pieces, rest) => (decodePieces pieces).map fun text => (String.ofList text, rest)

theorem scanString_length_lt {cs rest : List Char} {pieces : List Piece}
    (h : scanString cs = some (pieces, rest)) : rest.length < cs.length := by
  fun_induction scanString cs generalizing pieces with
  | case1 => cases h
  | case2 => cases h; exact Nat.lt_succ_self _
  | case3 a b c d rest' n _ ih =>
    obtain ⟨⟨p, r⟩, hr, he⟩ := Option.map_eq_some_iff.1 h
    cases he
    have := ih hr
    simp only [List.length_cons]
    omega
  | case4 => cases h
  | case5 e rest' _ c _ ih =>
    obtain ⟨⟨p, r⟩, hr, he⟩ := Option.map_eq_some_iff.1 h
    cases he
    have := ih hr
    simp only [List.length_cons]
    omega
  | case6 => cases h
  | case7 => cases h
  | case8 c rest' _ _ _ _ ih =>
    obtain ⟨⟨p, r⟩, hr, he⟩ := Option.map_eq_some_iff.1 h
    cases he
    have := ih hr
    simp only [List.length_cons]
    omega

theorem readString_length_lt {cs rest : List Char} {text : String}
    (h : readString cs = some (text, rest)) : rest.length < cs.length := by
  unfold readString at h
  split at h
  · cases h
  · next pieces rest' hs =>
    obtain ⟨t, _, he⟩ := Option.map_eq_some_iff.1 h
    cases he
    exact scanString_length_lt hs

/-! ## Numbers -/

/-- A number as it is written: its digits before and after the point, and its exponent. -/
structure Numeral where
  negative : Bool
  whole : List Nat
  fraction : List Nat
  exponent : Int
  /-- whether neither a point nor an exponent is written -/
  plain : Bool
  deriving DecidableEq, Repr

/-- The digits at the beginning of a text, and what follows them. -/
def digits (cs : List Char) : List Nat × List Char :=
  ((cs.takeWhile Char.isDigit).map fun c => c.toNat - '0'.toNat, cs.dropWhile Char.isDigit)

/-- The number that digits stand for. -/
def ofDigits (ds : List Nat) : Nat := ds.foldl (fun n d => n * 10 + d) 0

/-- The digits before the point: a leading zero stands alone. -/
def wholePart (cs : List Char) : Option (List Nat × List Char) :=
  match digits cs with
  | ([], _) => none
  | (0 :: _ :: _, _) => none
  | (ds, rest) => some (ds, rest)

/-- The digits after the point, if there is a point; at least one digit follows it. -/
def fractionPart (cs : List Char) : Option (Option (List Nat) × List Char) :=
  match cs with
  | '.' :: rest =>
    match digits rest with
    | ([], _) => none
    | (ds, rest) => some (some ds, rest)
  | cs => some (none, cs)

/-- An exponent of at least one digit, after its letter. -/
def exponentDigits (negative : Bool) (cs : List Char) : Option (Option Int × List Char) :=
  match digits cs with
  | ([], _) => none
  | (ds, rest) =>
    let n : Int := ofDigits ds
    some (some (if negative then -n else n), rest)

/-- The exponent, if there is one. -/
def exponentPart (cs : List Char) : Option (Option Int × List Char) :=
  match cs with
  | c :: rest =>
    if c == 'e' || c == 'E' then
      match rest with
      | '-' :: rest => exponentDigits true rest
      | '+' :: rest => exponentDigits false rest
      | rest => exponentDigits false rest
    else some (none, c :: rest)
  | [] => some (none, [])

/-- A number without its sign, and what follows it. -/
def unsignedNumber (negative : Bool) (cs : List Char) : Option (Numeral × List Char) :=
  match wholePart cs with
  | none => none
  | some (whole, cs) =>
    match fractionPart cs with
    | none => none
    | some (fraction, cs) =>
      match exponentPart cs with
      | none => none
      | some (exponent, cs) =>
        some
          ({ negative := negative
             whole := whole
             fraction := fraction.getD []
             exponent := exponent.getD 0
             plain := fraction.isNone && exponent.isNone }, cs)

/-- A number and what follows it. -/
def scanNumber (cs : List Char) : Option (Numeral × List Char) :=
  match cs with
  | '-' :: rest => unsignedNumber true rest
  | cs => unsignedNumber false cs

theorem digits_length_le (cs : List Char) : (digits cs).2.length ≤ cs.length :=
  (List.dropWhile_sublist Char.isDigit).length_le

theorem digits_length_lt {cs rest : List Char} {d : Nat} {ds : List Nat}
    (h : digits cs = (d :: ds, rest)) : rest.length < cs.length := by
  have h1 : (digits cs).1 = d :: ds := by rw [h]
  have h2 : (digits cs).2 = rest := by rw [h]
  simp only [digits] at h1 h2
  have hl : (cs.takeWhile Char.isDigit ++ cs.dropWhile Char.isDigit).length = cs.length := by
    rw [List.takeWhile_append_dropWhile]
  have hp := congrArg List.length h1
  simp only [List.length_append, List.length_map, List.length_cons, h2] at hl hp
  omega

theorem wholePart_length_lt {cs rest : List Char} {ds : List Nat}
    (h : wholePart cs = some (ds, rest)) : rest.length < cs.length := by
  unfold wholePart at h
  split at h
  · cases h
  · cases h
  · next ds' rest' hnonempty _ hd =>
    cases h
    cases ds with
    | nil => exact (hnonempty rfl).elim
    | cons d ds => exact digits_length_lt hd

theorem fractionPart_length_le {cs rest : List Char} {ds : Option (List Nat)}
    (h : fractionPart cs = some (ds, rest)) : rest.length ≤ cs.length := by
  unfold fractionPart at h
  split at h
  · next rest' =>
    have := digits_length_le rest'
    split at h
    · cases h
    · next hd =>
      cases h
      rw [hd] at this
      exact Nat.le_succ_of_le this
  · cases h
    exact Nat.le_refl _

theorem exponentDigits_length_le {negative : Bool} {cs rest : List Char} {n : Option Int}
    (h : exponentDigits negative cs = some (n, rest)) : rest.length ≤ cs.length := by
  have := digits_length_le cs
  unfold exponentDigits at h
  split at h
  · cases h
  · next hd =>
    cases h
    rwa [hd] at this

theorem exponentPart_length_le {cs rest : List Char} {n : Option Int}
    (h : exponentPart cs = some (n, rest)) : rest.length ≤ cs.length := by
  unfold exponentPart at h
  split at h
  · split at h
    · split at h <;> have := exponentDigits_length_le h <;>
        simp only [List.length_cons] at this ⊢ <;> omega
    · cases h
      exact Nat.le_refl _
  · cases h
    exact Nat.le_refl _

theorem unsignedNumber_length_lt {negative : Bool} {cs rest : List Char} {n : Numeral}
    (h : unsignedNumber negative cs = some (n, rest)) : rest.length < cs.length := by
  unfold unsignedNumber at h
  split at h
  · cases h
  · next hw =>
    have h1 := wholePart_length_lt hw
    split at h
    · cases h
    · next hf =>
      have h2 := fractionPart_length_le hf
      split at h
      · cases h
      · next he =>
        have h3 := exponentPart_length_le he
        cases h
        omega

theorem scanNumber_length_lt {cs rest : List Char} {n : Numeral}
    (h : scanNumber cs = some (n, rest)) : rest.length < cs.length := by
  unfold scanNumber at h
  split at h
  · exact Nat.lt_succ_of_lt (unsignedNumber_length_lt h)
  · exact unsignedNumber_length_lt h

end Json

end EditableGrammar
