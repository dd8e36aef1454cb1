import EditableGrammar.Error
import EditableGrammar.Text.Blank

set_option autoImplicit false

/-!
# Reading rules from a listing

A listing is a text with one rule after the other, each beginning on a line of its own:

    # a comment
    <greeting> ::= ["hello", <name>]
    <name> ::= [
        world, 'dear reader'
    ]

Lines are trimmed.  Empty lines and lines that begin with `#` are passed over, even inside a rule.
A rule goes on over the lines until one of them ends with a closing bracket; its lines are joined by
single spaces.  An element of a right-hand side stands between angle brackets, between quotes of
either kind, or bare; commas and blanks separate elements.
-/

namespace EditableGrammar

namespace Listing

/-! ## Elements -/

/-- What may stand between elements. -/
def isSeparator (c : Char) : Bool := isBlank c || c == ','

/-- What a bare element consists of. -/
def isBare (c : Char) : Bool := !(isBlank c || c == ',' || c == '<')

/-- The characters up to a delimiter, which is passed over, and what follows it.  Where there is no
delimiter the whole text is taken. -/
def upTo (delimiter : Char) (cs : List Char) : List Char × List Char :=
  (cs.takeWhile (· != delimiter), (cs.dropWhile (· != delimiter)).drop 1)

/-- The element that begins with the given character, and what follows it. -/
def element (c : Char) (cs : List Char) : List Char × List Char :=
  if c = '<' then upTo '>' cs
  else if c = '"' ∨ c = '\'' then upTo c cs
  else (c :: cs.takeWhile isBare, cs.dropWhile isBare)

theorem element_length_le (c : Char) (cs : List Char) : (element c cs).2.length ≤ cs.length := by
  have h (p : Char → Bool) : (cs.dropWhile p).length ≤ cs.length :=
    (List.dropWhile_sublist p).length_le
  unfold element
  split
  · simp only [upTo, List.length_drop]
    exact Nat.le_trans (Nat.sub_le _ _) (h _)
  split
  · simp only [upTo, List.length_drop]
    exact Nat.le_trans (Nat.sub_le _ _) (h _)
  · exact h _

/-- The elements of a right-hand side, in order, without their delimiters. -/
def elements (cs : List Char) : List (List Char) :=
  match _h : cs.dropWhile isSeparator with
  | [] => []
  | c :: rest => (element c rest).1 :: elements (element c rest).2
termination_by cs.length
decreasing_by
  have h1 := element_length_le c rest
  have h2 : (cs.dropWhile isSeparator).length ≤ cs.length :=
    (List.dropWhile_sublist isSeparator).length_le
  rw [_h, List.length_cons] at h2
  omega

/-- The symbols of a right-hand side. -/
def symbols (cs : List Char) : List Symbol := (elements cs).map String.ofList

/-! ## One rule -/

/-- What follows the arrow and the opening bracket that a text begins with. -/
def afterArrow? : List Char → Option (List Char)
  | ':' :: ':' :: '=' :: rest =>
    match trimLeft rest with
    | '[' :: inside => some inside
    | _ => none
  | _ => none

/-- The text before the first arrow that an opening bracket follows, and the text after that
bracket. -/
def splitAtArrow : List Char → Option (List Char × List Char)
  | [] => none
  | c :: cs =>
    match afterArrow? (c :: cs) with
    | some inside => some ([], inside)
    | none => (splitAtArrow cs).map fun (before, inside) => (c :: before, inside)

/-- Whether an arrow stands anywhere in a text. -/
def hasArrow : List Char → Bool
  | ':' :: ':' :: '=' :: _ => true
  | _ :: cs => hasArrow cs
  | [] => false

/-- The name between the angle brackets, when a text is one name between angle brackets: not empty,
and without angle brackets and blanks. -/
def lhsName? (cs : List Char) : Option Symbol :=
  match cs with
  | '<' :: rest =>
    match rest.reverse with
    | '>' :: reversed =>
      let name := reversed.reverse
      if name.isEmpty || name.any fun c => c == '<' || c == '>' || isBlank c then none
      else some (String.ofList name)
    | _ => none
  | _ => none

/-- Read one rule from its joined lines, which end with the closing bracket. -/
def readRule (line : Nat) (text : List Char) : Except Error Rule :=
  match splitAtArrow text with
  | none => .error (.expectedRule line)
  | some (before, inside) =>
    let lhs := trim before
    match lhsName? lhs with
    | none => .error (.badLhs line (String.ofList lhs))
    | some name => .ok ⟨name, symbols inside.dropLast⟩

/-! ## The lines -/

/-- A rule that goes on. -/
structure Begun where
  /-- the number of the line it began on -/
  line : Nat
  /-- its lines so far, latest first -/
  parts : List (List Char)
  /-- whether an arrow stands in one of its lines -/
  arrow : Bool
  deriving Repr

/-- The rule that goes on, or one that begins here, with one more line. -/
def Begun.extend (begun : Option Begun) (line : Nat) (part : List Char) : Begun :=
  match begun with
  | some b => { b with parts := part :: b.parts, arrow := b.arrow || hasArrow part }
  | none => ⟨line, [part], hasArrow part⟩

/-- The lines of a rule, joined. -/
def Begun.text (b : Begun) : List Char := [' '].intercalate b.parts.reverse

/-- Whether a trimmed line holds nothing of a rule. -/
def isIgnored : List Char → Bool
  | [] => true
  | c :: _ => c == '#'

/-- Read the rules of the lines from number `line` on, where a rule may have begun before. -/
def readLines (line : Nat) (begun : Option Begun) : List (List Char) → Except Error (List Rule)
  | [] =>
    match begun with
    | some b => .error (.unclosedRule b.line)
    | none => .ok []
  | l :: lines =>
    let trimmed := trim l
    if isIgnored trimmed then readLines (line + 1) begun lines
    else
      let b := Begun.extend begun line trimmed
      if trimmed.getLast? = some ']' then
        match readRule b.line b.text with
        | .error e => .error e
        | .ok r =>
          match readLines (line + 1) none lines with
          | .error e => .error e
          | .ok rules => .ok (r :: rules)
      else if b.arrow then readLines (line + 1) (some b) lines
      else .error (.expectedRule b.line)

/-- The rules of a listing in order, each at its first place only. -/
def read (text : String) : Except Error (List Rule) :=
  match readLines 1 none (text.toList.splitOn '\n') with
  | .error e => .error e
  | .ok rules => .ok (Rule.firstPlaces rules)

end Listing

end EditableGrammar
