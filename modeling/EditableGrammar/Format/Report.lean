import EditableGrammar.Event
import EditableGrammar.Error
import EditableGrammar.Text.Entity
import EditableGrammar.Text.WordChar

set_option autoImplicit false

/-!
# Reading the XML report of a parser generator

A report holds one element per rule,

    <rule number="1" usefulness="useful">
      <lhs>start</lhs>
      <rhs><symbol>KW</symbol><symbol>&apos;(&apos;</symbol></rhs>
    </rule>

and much else, which is passed over.  The reader looks for these elements and for nothing else about
the document: an element's content ends at the first closing tag of its name, and the blanks around
a name are not part of it, unless they are written as references.
-/

namespace EditableGrammar

namespace Report

/-! ## Tags -/

/-- The name of the element that holds a rule. -/
def ruleName : List Char := ['r', 'u', 'l', 'e']

/-- The name of the element that holds a left-hand side. -/
def lhsName : List Char := ['l', 'h', 's']

/-- The name of the element that holds a right-hand side. -/
def rhsName : List Char := ['r', 'h', 's']

/-- The name of the element that holds a symbol. -/
def symbolName : List Char := ['s', 'y', 'm', 'b', 'o', 'l']

/-- The tag that opens an element without attributes. -/
def opening (name : List Char) : List Char := '<' :: name ++ ['>']

/-- The tag that closes an element. -/
def closing (name : List Char) : List Char := '<' :: '/' :: name ++ ['>']

/-- The content of the first element of a name, and what follows it. -/
def element? (name text : List Char) : Option (List Char × List Char) :=
  between (opening name) (closing name) text

theorem length_lt_of_element? {name text body rest : List Char}
    (h : element? name text = some (body, rest)) : rest.length < text.length :=
  length_lt_of_between h (by simp [opening])

/-! ## Elements -/

/-- Whether the text that follows a tag's name ends that name: the name of `<rules>` is not that of
`<rule>`. -/
def endsName (text : List Char) : Bool :=
  match text with
  | [] => true
  | c :: _ => !isWordChar c

/-- The contents of the rule elements of a report, in order. -/
def ruleBodies (text : List Char) : List (List Char) :=
  match _h : splitAtFirst ('<' :: ruleName) text with
  | none => []
  | some (_, afterName) =>
    if endsName afterName then
      match _h' : between ['>'] (closing ruleName) afterName with
      | none => []
      | some (body, rest) => body :: ruleBodies rest
    else ruleBodies afterName
termination_by text.length
decreasing_by
  · have h1 := length_of_splitAtFirst _h
    have h2 := length_lt_of_between _h' (by simp)
    omega
  · have := length_of_splitAtFirst _h
    simp only [List.length_cons] at this
    omega

/-- The contents of the symbol elements of a right-hand side, in order. -/
def symbolBodies (text : List Char) : List (List Char) :=
  match _h : element? symbolName text with
  | none => []
  | some (body, rest) => body :: symbolBodies rest
termination_by text.length
decreasing_by exact length_lt_of_element? _h

/-- The name that an element holds. -/
def name (body : List Char) : Symbol := String.ofList (unescape (trim body))

/-- The rule that a rule element holds. -/
def readRule (body : List Char) : Except Error Rule :=
  match element? lhsName body with
  | none => .error (.reportLacksLhs (String.ofList (trim body)))
  | some (lhs, _) =>
    match element? rhsName body with
    | none => .error (.reportLacksRhs (String.ofList (trim body)))
    | some (rhs, _) => .ok ⟨name lhs, (symbolBodies rhs).map name⟩

/-- The rules of some rule elements; the first faulty element counts. -/
def readRules : List (List Char) → Except Error (List Rule)
  | [] => .ok []
  | body :: bodies =>
    match readRule body with
    | .error e => .error e
    | .ok r =>
      match readRules bodies with
      | .error e => .error e
      | .ok rules => .ok (r :: rules)

/-- The rules of a report in order, each at its first place only. -/
def read (text : String) : Logged (Except Error (List Rule)) :=
  match readRules (ruleBodies text.toList) with
  | .error e => .pure (.error e)
  | .ok rules => .note (.decoded rules.length) (.ok (Rule.firstPlaces rules))

end Report

end EditableGrammar
