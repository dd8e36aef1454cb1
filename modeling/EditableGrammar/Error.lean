import EditableGrammar.Rule

set_option autoImplicit false

/-!
# Why an operation failed

Failures are causes, not texts.  Each cause belongs to one `Kind`, the coarse class a caller
branches on, and has one wording, given by `Error.message`.
-/

namespace EditableGrammar

/-- What went wrong with a file. -/
inductive FileFault where
  /-- there is no such file -/
  | notFound
  /-- the file may not be used in the way asked for -/
  | permissionDenied
  /-- the bytes are not the UTF-8 form of any text -/
  | notUtf8
  deriving DecidableEq, Repr, Inhabited

/-- The wording of a file fault. -/
def FileFault.message : FileFault → String
  | .notFound => "No such file or directory (os error 2)"
  | .permissionDenied => "Permission denied (os error 13)"
  | .notUtf8 => "stream did not contain valid UTF-8"

/-- Why an operation on a grammar, or the reading of one, failed. -/
inductive Error where
  /-- a file could not be read -/
  | file (fault : FileFault)
  /-- a text is not well-formed JSON -/
  | malformedJson
  /-- a JSON value is not of the form that is read at its place -/
  | misshapenJson
  /-- the rule that starts at a line of a listing lacks its arrow or its bracket -/
  | expectedRule (line : Nat)
  /-- the rule that starts at a line of a listing never closes its bracket -/
  | unclosedRule (line : Nat)
  /-- the left-hand side of a listed rule is not one symbol between angle brackets -/
  | badLhs (line : Nat) (found : String)
  /-- a rule of a report names no left-hand side -/
  | reportLacksLhs (body : String)
  /-- a rule of a report names no right-hand side -/
  | reportLacksRhs (body : String)
  /-- the grammar does not hold this symbol -/
  | unknownSymbol (symbol : Symbol)
  /-- the grammar does not hold this rule -/
  | ruleNotFound (rule : Rule)
  /-- the program that writes reports is not among the directories searched -/
  | toolMissing (searchPath : String)
  /-- the program that writes reports refused the grammar file -/
  | undecodable (path : String)
  deriving DecidableEq, Repr, Inhabited

namespace Error

/-- The coarse class of a failure. -/
inductive Kind where
  | io
  | json
  | parse
  | invalidArgument
  | unknownSymbol
  | ruleNotFound
  | toolMissing
  | undecodable
  deriving DecidableEq, Repr, Inhabited

/-- The class of a cause. -/
def kind : Error → Kind
  | .file _ => .io
  | .malformedJson => .json
  | .misshapenJson => .invalidArgument
  | .expectedRule _ => .parse
  | .unclosedRule _ => .parse
  | .badLhs _ _ => .invalidArgument
  | .reportLacksLhs _ => .parse
  | .reportLacksRhs _ => .parse
  | .unknownSymbol _ => .unknownSymbol
  | .ruleNotFound _ => .ruleNotFound
  | .toolMissing _ => .toolMissing
  | .undecodable _ => .undecodable

/-- The name of the program that turns a grammar file into a report. -/
def toolName : String := "bison"

/-- The wording of a failure. -/
def message : Error → String
  | .file fault => "IO error: " ++ fault.message
  | .malformedJson => "JSON error: not well-formed"
  | .misshapenJson => "Invalid argument type: a JSON value has the wrong form"
  | .expectedRule line =>
    "Parse error: line " ++ toString line ++ ": expected `<symbol> ::= [...]`"
  | .unclosedRule line =>
    "Parse error: line " ++ toString line ++ ": rule is missing its closing `]`"
  | .badLhs line found =>
    "Invalid argument type: line " ++ toString line ++
      ": lhs must be a single <symbol>, found `" ++ found ++ "`"
  | .reportLacksLhs body => "Parse error: rule without lhs: " ++ body
  | .reportLacksRhs body => "Parse error: rule without rhs: " ++ body
  | .unknownSymbol symbol => symbol ++ " not in symbols"
  | .ruleNotFound rule => rule.text ++ " not in rules"
  | .toolMissing searchPath =>
    toolName ++ " executable not found. PATH: " ++ searchPath
  | .undecodable path => "Failed to decode grammar file: " ++ path

section

variable (line : Nat) (body path : String)

@[simp] theorem message_file (fault : FileFault) :
    (file fault).message = "IO error: " ++ fault.message := rfl

@[simp] theorem message_malformedJson : malformedJson.message = "JSON error: not well-formed" := rfl

@[simp] theorem message_misshapenJson :
    misshapenJson.message = "Invalid argument type: a JSON value has the wrong form" := rfl

@[simp] theorem message_expectedRule : (expectedRule line).message =
    "Parse error: line " ++ toString line ++ ": expected `<symbol> ::= [...]`" := rfl

@[simp] theorem message_unclosedRule : (unclosedRule line).message =
    "Parse error: line " ++ toString line ++ ": rule is missing its closing `]`" := rfl

@[simp] theorem message_badLhs (found : String) : (badLhs line found).message =
    "Invalid argument type: line " ++ toString line ++
      ": lhs must be a single <symbol>, found `" ++ found ++ "`" := rfl

@[simp] theorem message_reportLacksLhs :
    (reportLacksLhs body).message = "Parse error: rule without lhs: " ++ body := rfl

@[simp] theorem message_reportLacksRhs :
    (reportLacksRhs body).message = "Parse error: rule without rhs: " ++ body := rfl

@[simp] theorem message_unknownSymbol (symbol : Symbol) :
    (unknownSymbol symbol).message = symbol ++ " not in symbols" := rfl

@[simp] theorem message_ruleNotFound (rule : Rule) :
    (ruleNotFound rule).message = rule.text ++ " not in rules" := rfl

@[simp] theorem message_toolMissing :
    (toolMissing path).message = toolName ++ " executable not found. PATH: " ++ path := rfl

@[simp] theorem message_undecodable :
    (undecodable path).message = "Failed to decode grammar file: " ++ path := rfl

end

end Error

end EditableGrammar
