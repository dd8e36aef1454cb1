import EditableGrammar.Error
import EditableGrammar.Format.Json.Reader

set_option autoImplicit false

/-!
# Settings

How sentences are shown, how many of them, and where the program that writes reports is looked for.
Settings are kept in a JSON text: an object, in which every field may be missing and fields of other
names are passed over, or an array of the values in order, which may break off early.  A value of
the wrong form counts as a fault of the text here, like any other.
-/

namespace EditableGrammar

/-- The settings of a run. -/
structure Settings where
  /-- what stands between the symbols of a shown sentence -/
  separator : String := " "
  /-- how many sentences are shown at most; finding them is never cut short -/
  maxSentences : Option Nat := none
  /-- the directories in which the program that writes reports is looked for -/
  toolPath : Option String := none
  deriving DecidableEq, Repr

namespace Settings

/-- The settings of a run that asks for nothing special. -/
def standard : Settings := {}

/-- A sentence as it is shown. -/
def render (settings : Settings) (sentence : Sentence) : String :=
  settings.separator.intercalate sentence

/-! ## Reading -/

open Json

/-- The settings so far, and which of them have been given. -/
structure Given where
  settings : Settings := {}
  separator : Bool := false
  maxSentences : Bool := false
  toolPath : Bool := false

/-- Read a separator. -/
def separatorReader (given : Given) : Reader Given :=
  Reader.string.map fun s =>
    { given with settings := { given.settings with separator := s }, separator := true }

/-- Read a bound on the sentences shown. -/
def maxSentencesReader (given : Given) : Reader Given :=
  Reader.natural.nullable.map fun n =>
    { given with settings := { given.settings with maxSentences := n }, maxSentences := true }

/-- Read where to look for the program that writes reports. -/
def toolPathReader (given : Given) : Reader Given :=
  Reader.string.nullable.map fun p =>
    { given with settings := { given.settings with toolPath := p }, toolPath := true }

/-- What a field says; it may say it once. -/
def field (key : String) (given : Given) : Except Fault (Reader Given) :=
  if key = "separator" then
    if given.separator then .error .misshapen else .ok (separatorReader given)
  else if key = "max_sentences" then
    if given.maxSentences then .error .misshapen else .ok (maxSentencesReader given)
  else if key = "bison_path" then
    if given.toolPath then .error .misshapen else .ok (toolPathReader given)
  else .ok (Reader.skip given)

/-- Read values in order, each after a comma, until the array ends or all have been read. -/
def readInOrder : List (Given → Reader Given) → Given → List Char →
    Except Fault (Given × List Char)
  | values, given, cs =>
    match closed? .array cs with
    | some rest => .ok (given, rest)
    | none =>
      match values with
      | [] => .error .malformed
      | value :: values =>
        match afterMarker [','] (skipSpace cs) with
        | none => .error .malformed
        | some rest =>
          match (value given).run rest with
          | .error e => .error e
          | .ok (given, rest) => readInOrder values given rest

/-- Read what follows the opening bracket of settings that are an array. -/
def ofArray (inside : List Char) : Except Fault (Given × List Char) :=
  match closed? .array inside with
  | some rest => .ok ({}, rest)
  | none =>
    match (separatorReader {}).run inside with
    | .error e => .error e
    | .ok (given, rest) => readInOrder [maxSentencesReader, toolPathReader] given rest

theorem readInOrder_length_le {values : List (Given → Reader Given)} {given after : Given}
    {cs rest : List Char} (h : readInOrder values given cs = .ok (after, rest)) :
    rest.length ≤ cs.length := by
  induction values generalizing given cs with
  | nil =>
    unfold readInOrder at h
    split at h
    · next hc =>
      cases h
      exact closed?_length_le hc
    · cases h
  | cons value values ih =>
    unfold readInOrder at h
    split at h
    · next hc =>
      cases h
      exact closed?_length_le hc
    · simp only at h
      split at h
      · cases h
      · next hm =>
        have h1 := Nat.le_trans (afterMarker_length_le hm) (skipSpace_length_le _)
        split at h
        · cases h
        · next hv =>
          have h2 := (value given).shortens hv
          have h3 := ih h
          omega

/-- Read settings. -/
def reader : Reader Given where
  run cs :=
    match skipSpace cs with
    | '{' :: inside => Reader.object field {} inside
    | '[' :: inside => ofArray inside
    | other => .error (otherForm other)
  shortens {cs rest given} h := by
    split at h
    · next hs => exact Nat.lt_of_le_of_lt (Reader.object_length_le h) (length_lt_of_skipSpace hs)
    · next inside hs =>
      refine Nat.lt_of_le_of_lt ?_ (length_lt_of_skipSpace hs)
      unfold ofArray at h
      split at h
      · next hc =>
        cases h
        exact closed?_length_le hc
      · split at h
        · cases h
        · next hv =>
          exact Nat.le_of_lt
            (Nat.lt_of_le_of_lt (readInOrder_length_le h) ((separatorReader {}).shortens hv))
    · cases h

/-- The settings of a JSON text. -/
def read (text : String) : Except Error Settings :=
  match reader.readAll text with
  | .error _ => .error .malformedJson
  | .ok given => .ok given.settings

end Settings

end EditableGrammar
