import EditableGrammar.CommandLine.Token

set_option autoImplicit false

/-!
# What a command line asks for

A command line holds common options, the name of a command, and the options and the one file of that
command.  Common options may stand on either side of the command's name; given on both sides, those
behind it count.  An option with a value may be given only once on its side.

Arguments are taken from left to right.  The first one that is wrong makes the whole line wrong,
unless the version or help was asked for before it.  Help is a command too: it may be followed by the
name of one command and by nothing else.
-/

namespace EditableGrammar.CommandLine

/-- The common options. -/
structure Common where
  config : Option String := none
  toolPath : Option String := none
  verbosity : Nat := 0
  deriving DecidableEq, Repr

/-- What may be asked for about a grammar file. -/
inductive Command where
  /-- list the sentences -/
  | sentences (start : Option String) (limit : Option Nat) (separator : Option String)
  /-- draw sentences by chance -/
  | sample (start : Option String) (count : Nat) (seed : Option Nat)
  /-- describe the grammar -/
  | info
  deriving DecidableEq, Repr

/-- What a command line asks for. -/
inductive Request where
  | version
  | help
  | run (common : Common) (command : Command) (file : String)
  deriving DecidableEq, Repr

/-! ## Values -/

/-- A path is any text but the empty one. -/
def path? (value : List Char) : Option String :=
  if value.isEmpty then none else some (String.ofList value)

/-- A number of at least one decimal digit that fits into 64 bits; a plus sign may stand before
it. -/
def number? (value : List Char) : Option Nat :=
  let digits := match value with
    | '+' :: digits => digits
    | digits => digits
  let n := digits.foldl (fun n c => n * 10 + (c.toNat - '0'.toNat)) 0
  if !digits.isEmpty && digits.all Char.isDigit && n < UInt64.size then some n else none

/-- Give an option its value, unless it has one or the value is none for it. -/
def once {α : Type} (present : Option α) (value : Option α) : Option (Option α) :=
  match present, value with
  | none, some v => some (some v)
  | _, _ => none

/-- Give a common option its value. -/
def Common.give (common : Common) (name : OptionName) (value : List Char) : Option Common :=
  match name with
  | .config => (once common.config (path? value)).map fun v => { common with config := v }
  | .toolPath => (once common.toolPath (path? value)).map fun v => { common with toolPath := v }
  | _ => none

/-- Common options from before and behind a command's name. -/
def Common.merge (before behind : Common) : Common where
  config := behind.config.or before.config
  toolPath := behind.toolPath.or before.toolPath
  verbosity := if behind.verbosity = 0 then before.verbosity else behind.verbosity

/-! ## Options of the commands -/

/-- The options that may stand on either side of a command's name. -/
def commonForms : List OptionForm :=
  [⟨.config, "config".toList, none, true⟩, ⟨.toolPath, "bison-path".toList, none, true⟩,
    ⟨.verbose, "verbose".toList, some 'v', false⟩, ⟨.help, "help".toList, some 'h', false⟩]

/-- The options before a command's name. -/
def outerForms : List OptionForm := ⟨.version, "version".toList, some 'V', false⟩ :: commonForms

/-- The name of a command. -/
inductive CommandName where
  | sentences
  | sample
  | info
  deriving DecidableEq, Repr

/-- The command with a name. -/
def CommandName.ofText (text : List Char) : Option CommandName :=
  if text = "sentences".toList then some .sentences
  else if text = "sample".toList then some .sample
  else if text = "info".toList then some .info
  else none

/-- Whether help may be asked for about what these arguments name: about the program, or about one
command, help being one itself. -/
def isHelpTopic : List (List Char) → Bool
  | [] => true
  | [text] => text = "help".toList || (CommandName.ofText text).isSome
  | _ => false

/-- The options behind a command's name. -/
def CommandName.forms : CommandName → List OptionForm
  | .sentences =>
    [⟨.start, "start".toList, some 's', true⟩, ⟨.limit, "limit".toList, some 'l', true⟩,
      ⟨.separator, "separator".toList, none, true⟩] ++ commonForms
  | .sample =>
    [⟨.start, "start".toList, some 's', true⟩, ⟨.count, "count".toList, some 'n', true⟩,
      ⟨.seed, "seed".toList, none, true⟩] ++ commonForms
  | .info => commonForms

/-- What stands behind a command's name. -/
structure Behind where
  common : Common := {}
  file : Option String := none
  start : Option String := none
  limit : Option Nat := none
  separator : Option String := none
  count : Option Nat := none
  seed : Option Nat := none

/-- Give an option behind a command's name its value. -/
def Behind.give (b : Behind) (name : OptionName) (value : List Char) : Option Behind :=
  match name with
  | .start => (once b.start (some (String.ofList value))).map fun v => { b with start := v }
  | .limit => (once b.limit (number? value)).map fun v => { b with limit := v }
  | .separator =>
    (once b.separator (some (String.ofList value))).map fun v => { b with separator := v }
  | .count => (once b.count (number? value)).map fun v => { b with count := v }
  | .seed => (once b.seed (number? value)).map fun v => { b with seed := v }
  | name => (b.common.give name value).map fun common => { b with common := common }

/-- The command that a name and what stands behind it make up. -/
def Behind.command (b : Behind) : CommandName → Command
  | .sentences => .sentences b.start b.limit b.separator
  | .sample => .sample b.start (b.count.getD 1) b.seed
  | .info => .info

/-! ## Reading a line -/

/-- Read what stands behind a command's name. -/
def readBehind (name : CommandName) (before : Common) (b : Behind) : List Token → Option Request
  | [] => b.file.map fun file => .run (before.merge b.common) (b.command name) file
  | .flag .help :: _ => some .help
  | .flag .verbose :: rest =>
    readBehind name before
      { b with common := { b.common with verbosity := b.common.verbosity + 1 } } rest
  | .valued option value :: rest =>
    match b.give option value with
    | some b => readBehind name before b rest
    | none => none
  | .word text _ _ :: rest =>
    match once b.file (path? text) with
    | some file => readBehind name before { b with file := file } rest
    | none => none
  | _ => none

/-- Read a command line up to the command's name, and what stands behind it. -/
def readBefore (common : Common) : List Token → Option Request
  | .flag .version :: _ => some .version
  | .flag .help :: _ => some .help
  | .flag .verbose :: rest =>
    readBefore { common with verbosity := common.verbosity + 1 } rest
  | .valued option value :: rest =>
    match common.give option value with
    | some common => readBefore common rest
    | none => none
  | .word text false behind :: _ =>
    if text = "help".toList then if isHelpTopic behind then some .help else none
    else
      match CommandName.ofText text with
      | some name => readBehind name common {} (tokens name.forms none false behind)
      | none => none
  | _ => none

/-- What a command line asks for; `none` when it is wrong. -/
def Request.ofArguments (args : List String) : Option Request :=
  readBefore {} (tokens outerForms none false (args.map String.toList))

end EditableGrammar.CommandLine
