import EditableGrammar.Format.Json.Token

set_option autoImplicit false

/-!
# Passing over a JSON value

A value that nobody asked for is checked for its form only: brackets must match, strings must end
and numbers be complete, but a surrogate may stand alone and a number be of any size.  The open
brackets are kept in a list, so values may be nested to any depth.
-/

namespace EditableGrammar

namespace Json

/-- What follows a string.  The opening quote has been read. -/
def skipString (cs : List Char) : Option (List Char) := (scanString cs).map Prod.snd

/-- What follows a literal, a string or a number that a text begins with. -/
def skipScalar (cs : List Char) : Option (List Char) :=
  match cs with
  | 'n' :: rest => afterMarker ['u', 'l', 'l'] rest
  | 't' :: rest => afterMarker ['r', 'u', 'e'] rest
  | 'f' :: rest => afterMarker ['a', 'l', 's', 'e'] rest
  | '"' :: rest => skipString rest
  | cs => (scanNumber cs).map Prod.snd

theorem skipString_length_lt {cs rest : List Char} (h : skipString cs = some rest) :
    rest.length < cs.length := by
  obtain ⟨⟨pieces, r⟩, hr, rfl⟩ := Option.map_eq_some_iff.1 h
  exact scanString_length_lt hr

theorem afterMarker_length_le {marker cs rest : List Char} (h : afterMarker marker cs = some rest) :
    rest.length ≤ cs.length := by
  rw [afterMarker_eq_some_iff.1 h]
  simp

theorem skipScalar_length_lt {cs rest : List Char} (h : skipScalar cs = some rest) :
    rest.length < cs.length := by
  unfold skipScalar at h
  split at h
  · exact Nat.lt_succ_of_le (afterMarker_length_le h)
  · exact Nat.lt_succ_of_le (afterMarker_length_le h)
  · exact Nat.lt_succ_of_le (afterMarker_length_le h)
  · exact Nat.lt_succ_of_lt (skipString_length_lt h)
  · obtain ⟨⟨n, r⟩, hr, rfl⟩ := Option.map_eq_some_iff.1 h
    exact scanNumber_length_lt hr

/-- An open bracket. -/
inductive Bracket where
  | array
  | object
  deriving DecidableEq, Repr

/-- The character that closes a bracket. -/
def Bracket.closer : Bracket → Char
  | .array => ']'
  | .object => '}'

/-- What comes next. -/
inductive Expected where
  /-- a value -/
  | value
  /-- a key of the innermost object -/
  | key
  /-- a comma or the end of the innermost bracket; nothing at all when no bracket is open -/
  | next
  deriving DecidableEq, Repr

/-- What an item of a bracket begins with. -/
def Bracket.item : Bracket → Expected
  | .array => .value
  | .object => .key

/-- What follows a key and its colon.  The opening quote of the key has been read. -/
def skipKey (cs : List Char) : Option (List Char) :=
  match skipString cs with
  | none => none
  | some rest => afterMarker [':'] (skipSpace rest)

theorem skipKey_length_lt {cs rest : List Char} (h : skipKey cs = some rest) :
    rest.length < cs.length := by
  unfold skipKey at h
  split at h
  · cases h
  · next hs =>
    have h1 := skipString_length_lt hs
    have h2 := afterMarker_length_le h
    exact Nat.lt_of_le_of_lt (Nat.le_trans h2 (skipSpace_length_le _)) h1

/-- What follows the blanks, when it begins with a closing bracket, without that bracket. -/
def closed? (b : Bracket) (cs : List Char) : Option (List Char) :=
  afterMarker [b.closer] (skipSpace cs)

theorem closed?_length_le {b : Bracket} {cs rest : List Char} (h : closed? b cs = some rest) :
    rest.length ≤ cs.length :=
  Nat.le_trans (afterMarker_length_le h) (skipSpace_length_le _)

theorem length_lt_of_skipSpace {cs rest : List Char} {c : Char} (h : skipSpace cs = c :: rest) :
    rest.length < cs.length := by
  have := skipSpace_length_le cs
  rw [h, List.length_cons] at this
  omega

/-- The bracket that a character opens. -/
def opening? (c : Char) : Option Bracket :=
  if c == '[' then some .array else if c == '\x7b' then some .object else none

/-- Pass over what is expected and all that it takes to close the open brackets, innermost first. -/
def skipFrom (expected : Expected) (opened : List Bracket) (cs : List Char) :
    Option (List Char) :=
  match expected, opened with
  | .value, opened =>
    match _h : skipSpace cs with
    | [] => none
    | c :: rest =>
      match opening? c with
      | some b =>
        match _h' : closed? b rest with
        | some after => skipFrom .next opened after
        | none => skipFrom b.item (b :: opened) rest
      | none =>
        match _h' : skipScalar (c :: rest) with
        | some after => skipFrom .next opened after
        | none => none
  | .key, opened =>
    match _h : skipSpace cs with
    | '"' :: rest =>
      match _h' : skipKey rest with
      | some after => skipFrom .value opened after
      | none => none
    | _ => none
  | .next, [] => some cs
  | .next, b :: outer =>
    match _h : skipSpace cs with
    | [] => none
    | c :: rest =>
      if c == b.closer then skipFrom .next outer rest
      else if c == ',' then skipFrom b.item (b :: outer) rest
      else none
termination_by cs.length
decreasing_by
  · exact Nat.lt_of_le_of_lt (closed?_length_le _h') (length_lt_of_skipSpace _h)
  · exact length_lt_of_skipSpace _h
  · have := skipScalar_length_lt _h'
    have := skipSpace_length_le cs
    rw [_h] at this
    omega
  · exact Nat.lt_trans (skipKey_length_lt _h') (length_lt_of_skipSpace _h)
  · exact length_lt_of_skipSpace _h
  · exact length_lt_of_skipSpace _h

/-- What follows the value that a text begins with, after any blanks. -/
def skipValue (cs : List Char) : Option (List Char) := skipFrom .value [] cs

theorem skipFrom_length_le {expected : Expected} {opened : List Bracket} {cs rest : List Char}
    (h : skipFrom expected opened cs = some rest) : rest.length ≤ cs.length := by
  fun_induction skipFrom expected opened cs with
  | case1 => cases h
  | case2 opened cs c rest' hs b _ after hc ih =>
    have := closed?_length_le hc
    have := length_lt_of_skipSpace hs
    have := ih h
    omega
  | case3 opened cs c rest' hs b _ _ ih =>
    have := length_lt_of_skipSpace hs
    have := ih h
    omega
  | case4 cs opened c rest' hs _ after hc ih =>
    have := skipScalar_length_lt hc
    have hl := skipSpace_length_le cs
    rw [hs] at hl
    have := ih h
    omega
  | case5 => cases h
  | case6 opened cs rest' hs after hk ih =>
    have := skipKey_length_lt hk
    have := length_lt_of_skipSpace hs
    have := ih h
    omega
  | case7 => cases h
  | case8 => cases h
  | case9 => cases h; exact Nat.le_refl _
  | case10 => cases h
  | case11 cs b outer c rest' hs _ ih =>
    have := length_lt_of_skipSpace hs
    have := ih h
    omega
  | case12 cs b outer c rest' hs _ _ ih =>
    have := length_lt_of_skipSpace hs
    have := ih h
    omega
  | case13 => cases h

theorem skipValue_length_lt {cs rest : List Char} (h : skipValue cs = some rest) :
    rest.length < cs.length := by
  unfold skipValue at h
  unfold skipFrom at h
  split at h
  · cases h
  · next c rest' hs =>
    have hlt := length_lt_of_skipSpace hs
    split at h
    · split at h
      · next hc =>
        exact Nat.lt_of_le_of_lt
          (Nat.le_trans (skipFrom_length_le h) (closed?_length_le hc)) hlt
      · exact Nat.lt_of_le_of_lt (skipFrom_length_le h) hlt
    · split at h
      · next hc =>
        have h1 := skipScalar_length_lt hc
        have h2 := skipFrom_length_le h
        simp only [List.length_cons] at h1
        omega
      · cases h

end Json

end EditableGrammar
