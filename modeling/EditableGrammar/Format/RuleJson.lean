import EditableGrammar.Error
import EditableGrammar.Format.Json.Reader
import EditableGrammar.Format.Json.Writer

set_option autoImplicit false

/-!
# Rules as JSON

A rule is written as an object with the fields `lhs` and `rhs`, in this order and without blanks,
and a list of rules as an array of them.  The reader is more liberal: the fields may come in any
order and among others, which are passed over, and a rule may also be an array of a name and a list
of names.  A field must not be missing and must not be repeated; a repetition is noticed at its key.
-/

namespace EditableGrammar

namespace RuleJson

open Json

/-! ## Writing -/

/-- A rule as it is written. -/
def write (r : Rule) : List Char :=
  '{' :: quote "lhs" ++ ':' :: quote r.lhs ++ ',' :: quote "rhs" ++
    ':' :: bracketed (r.rhs.map quote) ++ ['}']

/-- A list of rules as it is written. -/
def writeAll (rules : List Rule) : List Char := bracketed (rules.map write)

/-! ## Reading -/

/-- What the fields of an object have said about a rule so far. -/
structure Fields where
  lhs : Option Symbol := none
  rhs : Option (List Symbol) := none

/-- What a field says. -/
def field (key : String) (known : Fields) : Except Fault (Reader Fields) :=
  if key = "lhs" then
    match known.lhs with
    | some _ => .error .misshapen
    | none => .ok (Reader.string.map fun s => { known with lhs := some s })
  else if key = "rhs" then
    match known.rhs with
    | some _ => .error .misshapen
    | none => .ok ((Reader.list Reader.string).map fun rhs => { known with rhs := some rhs })
  else .ok (Reader.skip known)

/-- Read what follows the opening bracket of a rule that is an object. -/
def ofObject (inside : List Char) : Except Fault (Rule × List Char) :=
  match Reader.object field {} inside with
  | .error e => .error e
  | .ok (⟨some lhs, some rhs⟩, rest) => .ok (⟨lhs, rhs⟩, rest)
  | .ok _ => .error .misshapen

/-- Read what follows the opening bracket of a rule that is an array. -/
def ofArray (inside : List Char) : Except Fault (Rule × List Char) :=
  match closed? .array inside with
  | some _ => .error .misshapen
  | none =>
    match Reader.string.run inside with
    | .error e => .error e
    | .ok (lhs, rest) =>
      match skipSpace rest with
      | ']' :: _ => .error .misshapen
      | ',' :: rest =>
        match (Reader.list Reader.string).run rest with
        | .error e => .error e
        | .ok (rhs, rest) =>
          match closed? .array rest with
          | some rest => .ok (⟨lhs, rhs⟩, rest)
          | none => .error .malformed
      | _ => .error .malformed

theorem ofObject_length_le {inside rest : List Char} {r : Rule}
    (h : ofObject inside = .ok (r, rest)) : rest.length ≤ inside.length := by
  unfold ofObject at h
  split at h
  · cases h
  · next ho =>
    cases h
    exact Reader.object_length_le ho
  · cases h

theorem ofArray_length_le {inside rest : List Char} {r : Rule}
    (h : ofArray inside = .ok (r, rest)) : rest.length ≤ inside.length := by
  unfold ofArray at h
  split at h
  · cases h
  split at h
  · cases h
  next hl =>
  have h1 := Reader.string.shortens hl
  split at h
  · cases h
  · next hs =>
    have h2 := length_lt_of_skipSpace hs
    split at h
    · cases h
    next hr =>
    have h3 := (Reader.list Reader.string).shortens hr
    split at h
    · next hc =>
      cases h
      have h4 := closed?_length_le hc
      omega
    · cases h
  · cases h

/-- Read one rule. -/
def rule : Reader Rule where
  run cs :=
    match skipSpace cs with
    | '{' :: inside => ofObject inside
    | '[' :: inside => ofArray inside
    | other => .error (otherForm other)
  shortens {cs rest r} h := by
    split at h
    · next hs => exact Nat.lt_of_le_of_lt (ofObject_length_le h) (length_lt_of_skipSpace hs)
    · next hs => exact Nat.lt_of_le_of_lt (ofArray_length_le h) (length_lt_of_skipSpace hs)
    · cases h

/-- How a fault is reported. -/
def errorOf : Fault → Error
  | .malformed => .malformedJson
  | .misshapen => .misshapenJson

/-- The rules of a JSON text in order, each at its first place only. -/
def read (text : String) : Except Error (List Rule) :=
  match (Reader.list rule).readAll text with
  | .error fault => .error (errorOf fault)
  | .ok rules => .ok (Rule.firstPlaces rules)

end RuleJson

end EditableGrammar
