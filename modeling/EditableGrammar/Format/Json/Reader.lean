import EditableGrammar.Format.Json.Magnitude
import EditableGrammar.Format.Json.Skip

set_option autoImplicit false

/-!
# Readers of JSON values

A reader takes a value of a certain form from the beginning of a text and says what is left.  It
reads from left to right and stops at the first fault, so a text with two faults has the fault that
stands first.  There are two: the text is no JSON (`malformed`), or a value is there but of another
form (`misshapen`).  A value of another form that begins with a literal, a string or a number is
read to its end first and may turn out to be malformed; one that begins with a bracket is not.

A reader always takes something away from the text.  That is part of its type, so readers of lists
and objects can be built from readers of their items and need no bound of their own.
-/

namespace EditableGrammar

namespace Json

/-- Why a text could not be read. -/
inductive Fault where
  /-- the text is not JSON -/
  | malformed
  /-- a value has another form than the one that is read -/
  | misshapen
  deriving DecidableEq, Repr, Inhabited

/-- A reader of values of type `α`. -/
structure Reader (α : Type) where
  /-- the value and what is left, or the first fault -/
  run : List Char → Except Fault (α × List Char)
  /-- something is taken away -/
  shortens : ∀ {cs rest : List Char} {a : α}, run cs = .ok (a, rest) → rest.length < cs.length

/-- The fault of a text that begins with a value of another form, or with none. -/
def otherForm (cs : List Char) : Fault :=
  match cs with
  | '"' :: rest => if (readString rest).isSome then .misshapen else .malformed
  | '[' :: _ => .misshapen
  | '{' :: _ => .misshapen
  | 'n' :: rest => if (afterMarker ['u', 'l', 'l'] rest).isSome then .misshapen else .malformed
  | 't' :: rest => if (afterMarker ['r', 'u', 'e'] rest).isSome then .misshapen else .malformed
  | 'f' :: rest => if (afterMarker ['a', 'l', 's', 'e'] rest).isSome then .misshapen else .malformed
  | cs => if (readNumber cs).isSome then .misshapen else .malformed

namespace Reader

variable {α β : Type}

/-- Read a value and change it. -/
def map (f : α → β) (r : Reader α) : Reader β where
  run cs :=
    match r.run cs with
    | .error e => .error e
    | .ok (a, rest) => .ok (f a, rest)
  shortens {cs rest b} h := by
    split at h
    · cases h
    · next ha =>
      cases h
      exact r.shortens ha

/-- Read a string. -/
def string : Reader String where
  run cs :=
    match skipSpace cs with
    | '"' :: rest =>
      match readString rest with
      | some (text, rest) => .ok (text, rest)
      | none => .error .malformed
    | other => .error (otherForm other)
  shortens {cs rest a} h := by
    split at h
    · next hs =>
      split at h
      · next hr =>
        cases h
        exact Nat.lt_trans (readString_length_lt hr) (length_lt_of_skipSpace hs)
      · cases h
    · cases h

/-- Read a natural number that fits into 64 bits, written without sign, point and exponent. -/
def natural : Reader Nat where
  run cs :=
    match readNumber (skipSpace cs) with
    | some (n, rest) =>
      match n.natural? with
      | some v => .ok (v, rest)
      | none => .error .misshapen
    | none => .error (otherForm (skipSpace cs))
  shortens {cs rest a} h := by
    split at h
    · next hr =>
      split at h <;> cases h
      exact Nat.lt_of_lt_of_le (readNumber_length_lt hr) (skipSpace_length_le cs)
    · cases h

/-- Read a value that may also be `null`. -/
def nullable (r : Reader α) : Reader (Option α) where
  run cs :=
    match skipSpace cs with
    | 'n' :: rest =>
      match afterMarker ['u', 'l', 'l'] rest with
      | some rest => .ok (none, rest)
      | none => .error .malformed
    | _ =>
      match r.run cs with
      | .error e => .error e
      | .ok (a, rest) => .ok (some a, rest)
  shortens {cs rest a} h := by
    split at h
    · next hs =>
      split at h
      · next hm =>
        cases h
        exact Nat.lt_of_le_of_lt (afterMarker_length_le hm) (length_lt_of_skipSpace hs)
      · cases h
    · split at h
      · cases h
      · next ha =>
        cases h
        exact r.shortens ha

/-- Pass over a value of any form; the result is given beforehand. -/
def skip (a : α) : Reader α where
  run cs :=
    match skipValue cs with
    | some rest => .ok (a, rest)
    | none => .error .malformed
  shortens {cs rest b} h := by
    split at h
    · next hs =>
      cases h
      exact skipValue_length_lt hs
    · cases h

/-! ## Lists -/

/-- Read the items of a list up to its closing bracket.  There is at least one. -/
def items (item : Reader α) (cs : List Char) : Except Fault (List α × List Char) :=
  match _h : item.run cs with
  | .error e => .error e
  | .ok (a, rest) =>
    match _h' : skipSpace rest with
    | ']' :: rest => .ok ([a], rest)
    | ',' :: rest =>
      match items item rest with
      | .error e => .error e
      | .ok (as, rest) => .ok (a :: as, rest)
    | _ => .error .malformed
termination_by cs.length
decreasing_by exact Nat.lt_trans (length_lt_of_skipSpace _h') (item.shortens _h)

theorem items_length_lt {item : Reader α} {cs rest : List Char} {as : List α}
    (h : items item cs = .ok (as, rest)) : rest.length < cs.length := by
  fun_induction items item cs generalizing as rest with
  | case1 => cases h
  | case2 cs a rest' hr rest'' hs =>
    cases h
    exact Nat.lt_trans (length_lt_of_skipSpace hs) (item.shortens hr)
  | case3 => cases h
  | case4 cs a rest' hr rest'' hs as' rest''' hi ih =>
    cases h
    exact Nat.lt_trans (ih hi) (Nat.lt_trans (length_lt_of_skipSpace hs) (item.shortens hr))
  | case5 => cases h

/-- Read a list. -/
def list (item : Reader α) : Reader (List α) where
  run cs :=
    match skipSpace cs with
    | '[' :: inside =>
      match closed? .array inside with
      | some rest => .ok ([], rest)
      | none => items item inside
    | other => .error (otherForm other)
  shortens {cs rest as} h := by
    split at h
    · next hs =>
      have := length_lt_of_skipSpace hs
      split at h
      · next hc =>
        cases h
        exact Nat.lt_of_le_of_lt (closed?_length_le hc) this
      · exact Nat.lt_trans (items_length_lt h) this
    · cases h

/-! ## Objects

What an object says is gathered in a state.  When a key has been read, `field` refuses it or names
the reader of its value, which gives the state after it. -/

/-- Read one field: its key, a colon and its value. -/
def entry (field : String → α → Except Fault (Reader α)) (state : α) : Reader α where
  run cs :=
    match skipSpace cs with
    | '"' :: rest =>
      match readString rest with
      | none => .error .malformed
      | some (key, rest) =>
        match field key state with
        | .error e => .error e
        | .ok value =>
          match skipSpace rest with
          | ':' :: rest => value.run rest
          | _ => .error .malformed
    | _ => .error .malformed
  shortens {cs rest after} h := by
    split at h
    · next h1 =>
      split at h
      · cases h
      · next h2 =>
        split at h
        · cases h
        · next value _ =>
          split at h
          · next h3 =>
            have := length_lt_of_skipSpace h1
            have := readString_length_lt h2
            have := length_lt_of_skipSpace h3
            have := value.shortens h
            omega
          · cases h
    · cases h

/-- Read the fields of an object up to its closing bracket.  There is at least one. -/
def fields (field : String → α → Except Fault (Reader α)) (state : α) (cs : List Char) :
    Except Fault (α × List Char) :=
  match _h : (entry field state).run cs with
  | .error e => .error e
  | .ok (state, rest) =>
    match _h' : skipSpace rest with
    | '}' :: rest => .ok (state, rest)
    | ',' :: rest => fields field state rest
    | _ => .error .malformed
termination_by cs.length
decreasing_by exact Nat.lt_trans (length_lt_of_skipSpace _h') ((entry field _).shortens _h)

theorem fields_length_lt {field : String → α → Except Fault (Reader α)} {state after : α}
    {cs rest : List Char} (h : fields field state cs = .ok (after, rest)) :
    rest.length < cs.length := by
  fun_induction fields field state cs with
  | case1 => cases h
  | case2 state cs state' r hr r' hs =>
    cases h
    exact Nat.lt_trans (length_lt_of_skipSpace hs) ((entry field state).shortens hr)
  | case3 state cs state' r hr r' hs ih =>
    exact Nat.lt_trans (ih h)
      (Nat.lt_trans (length_lt_of_skipSpace hs) ((entry field state).shortens hr))
  | case4 => cases h

/-- Read what follows the opening bracket of an object. -/
def object (field : String → α → Except Fault (Reader α)) (state : α) (inside : List Char) :
    Except Fault (α × List Char) :=
  match closed? .object inside with
  | some rest => .ok (state, rest)
  | none => fields field state inside

theorem object_length_le {field : String → α → Except Fault (Reader α)} {state after : α}
    {cs rest : List Char} (h : object field state cs = .ok (after, rest)) :
    rest.length ≤ cs.length := by
  unfold object at h
  split at h
  · next hc =>
    cases h
    exact closed?_length_le hc
  · exact Nat.le_of_lt (fields_length_lt h)

/-! ## Whole texts -/

/-- Read a text that holds one value and nothing else. -/
def readAll (r : Reader α) (text : String) : Except Fault α :=
  match r.run text.toList with
  | .error e => .error e
  | .ok (a, rest) =>
    match skipSpace rest with
    | [] => .ok a
    | _ => .error .malformed

end Reader

end Json

end EditableGrammar
