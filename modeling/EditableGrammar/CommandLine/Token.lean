set_option autoImplicit false

/-!
# The parts of a command line

A command line is a list of arguments.  An option has a long name behind two dashes and may have a
letter behind one.

* A value follows in the next argument, or after an equals sign, or after the letter itself.  The
  next argument is a value only if it does not begin with a dash; a dash alone is a value.
* Letters may be run together; one that takes a value ends the run.
* Behind two dashes alone there are no options, only words.
-/

namespace EditableGrammar.CommandLine

/-- The options of all commands. -/
inductive OptionName where
  | config
  | toolPath
  | verbose
  | version
  | help
  | start
  | limit
  | separator
  | count
  | seed
  deriving DecidableEq, Repr

/-- How an option is written. -/
structure OptionForm where
  name : OptionName
  long : List Char
  short : Option Char
  takesValue : Bool

/-- A part of a command line. -/
inductive Token where
  /-- an option without a value -/
  | flag (name : OptionName)
  /-- an option with its value -/
  | valued (name : OptionName) (value : List Char)
  /-- an argument that is neither an option nor a value: its text, whether it stands behind two
  dashes alone, and the arguments after it -/
  | word (text : List Char) (escaped : Bool) (after : List (List Char))
  /-- an argument that is wrong -/
  | bad
  deriving DecidableEq, Repr

/-- Whether an argument begins an option, or the part without options. -/
def isDashed : List Char → Bool
  | '-' :: _ :: _ => true
  | _ => false

/-- What a run of letters behind one dash says, and the option that still lacks its value. -/
def letters (forms : List OptionForm) : List Char → List Token × Option OptionName
  | [] => ([], none)
  | c :: rest =>
    match forms.find? fun form => form.short == some c with
    | none => ([.bad], none)
    | some form =>
      if form.takesValue then
        match rest with
        | [] => ([], some form.name)
        | '=' :: value => ([.valued form.name value], none)
        | value => ([.valued form.name value], none)
      else
        let (tokens, lacking) := letters forms rest
        (.flag form.name :: tokens, lacking)

/-- What a long name behind two dashes says, and the option that still lacks its value. -/
def longName (forms : List OptionForm) (text : List Char) : List Token × Option OptionName :=
  match forms.find? fun form => form.long == text.takeWhile (· != '=') with
  | none => ([.bad], none)
  | some form =>
    match text.dropWhile (· != '='), form.takesValue with
    | _ :: value, true => ([.valued form.name value], none)
    | _ :: _, false => ([.bad], none)
    | [], true => ([], some form.name)
    | [], false => ([.flag form.name], none)

/-- What an argument that begins an option says, and the option that still lacks its value. -/
def optionsOf (forms : List OptionForm) : List Char → List Token × Option OptionName
  | '-' :: '-' :: text => longName forms text
  | _ :: text => letters forms text
  | [] => ([], none)

/-- The parts of a command line.  An option may still lack its value from the argument before, and
two dashes alone may have been passed. -/
def tokens (forms : List OptionForm) (lacking : Option OptionName) (escaped : Bool) :
    List (List Char) → List Token
  | [] => if lacking.isSome then [.bad] else []
  | arg :: args =>
    match lacking with
    | some name =>
      if isDashed arg then [.bad] else .valued name arg :: tokens forms none escaped args
    | none =>
      if escaped then .word arg true args :: tokens forms none true args
      else if arg = ['-', '-'] then tokens forms none true args
      else if isDashed arg then
        let (first, lacking) := optionsOf forms arg
        first ++ tokens forms lacking false args
      else .word arg false args :: tokens forms none false args

end EditableGrammar.CommandLine
