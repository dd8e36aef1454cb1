import EditableGrammar.CommandLine.Request
import EditableGrammar.GrammarFile
import EditableGrammar.Language.Sample
import EditableGrammar.Language.Sentences

set_option autoImplicit false

/-!
# Running a command

A run reads the settings, then the grammar, and then does what was asked for.  It ends with code 0
if all went well, 1 if something failed and 2 if the command line was wrong; only a run that ends
with 0 puts anything out.
-/

namespace EditableGrammar.CommandLine

/-- How a run ends. -/
structure Outcome where
  code : Nat
  /-- what is put out -/
  output : String
  /-- what is said about a failure -/
  complaint : String := ""
  deriving DecidableEq, Repr

/-- The name and version of the program. -/
def versionLine : String := "dcfg 0.1.0\n"

/-- How the program is used. -/
def usage : String :=
  "Usage: dcfg [--config FILE] [--bison-path DIRS] [-v] <COMMAND>\n\n" ++
  "  sentences FILE [-s SYMBOL] [-l NUMBER] [--separator TEXT]\n" ++
  "  sample    FILE [-s SYMBOL] [-n NUMBER] [--seed NUMBER]\n" ++
  "  info      FILE\n"

/-- A text of lines, each with its line feed. -/
def unlines (lines : List String) : String := String.join (lines.map fun line => line ++ "\n")

/-- The settings of a run: those of the settings file, and the search path of the command line. -/
def settingsOf (host : Host) (common : Common) : Except Error Settings :=
  let base : Except Error Settings :=
    match common.config with
    | none => .ok Settings.standard
    | some path =>
      match textOf (host.read path) with
      | .error e => .error e
      | .ok text => Settings.read text
  match base with
  | .error e => .error e
  | .ok settings => .ok { settings with toolPath := common.toolPath.or settings.toolPath }

/-- The grammar of a file, with the start symbol asked for. -/
def load (host : Host) (settings : Settings) (path : String) (start : Option String) :
    Except Error Grammar :=
  match (Grammar.ofFile host settings path).value with
  | .error e => .error e
  | .ok g =>
    match start with
    | none => .ok g
    | some s => g.setStart s

/-- The sentences of a grammar, as many as are asked for, one on a line. -/
def showSentences (settings : Settings) (limit : Option Nat) (g : Grammar) : String :=
  let all := g.sentences.value.toList
  let shown :=
    match limit.or settings.maxSentences with
    | none => all
    | some n => all.take n
  unlines (shown.map settings.render)

/-- Sentences drawn by chance, one on a line. -/
def showSamples (settings : Settings) (count : Nat) (seed : Nat) (g : Grammar) : String :=
  unlines ((g.samples count ⟨[], UInt64.ofNat seed⟩).value.1.map settings.render)

/-- What there is to say about a grammar. -/
def describe (g : Grammar) : String :=
  unlines
    ["rules:        " ++ toString g.size,
      "symbols:      " ++ toString g.symbols.length,
      "terminals:    " ++ toString g.terminals.length,
      "nonterminals: " ++ toString g.nonterminals.length,
      "start symbol: " ++ g.startSymbol.getD "none",
      "finite:       " ++ (if g.isFinite then "true" else "false")]

/-- Do what a command asks for.  Chance is taken from `entropy` unless the command names a seed. -/
def perform (host : Host) (entropy : Nat) (settings : Settings) (command : Command)
    (file : String) : Except Error String :=
  match command with
  | .sentences start limit separator =>
    let settings := { settings with separator := separator.getD settings.separator }
    match load host settings file start with
    | .error e => .error e
    | .ok g => .ok (showSentences settings limit g)
  | .sample start count seed =>
    match load host settings file start with
    | .error e => .error e
    | .ok g => .ok (showSamples settings count (seed.getD entropy) g)
  | .info =>
    match load host settings file none with
    | .error e => .error e
    | .ok g => .ok (describe g)

/-- A failed run. -/
def failed (e : Error) : Outcome := ⟨1, "", "Error: " ++ e.message ++ "\n"⟩

/-- Do what is asked for. -/
def fulfil (host : Host) (entropy : Nat) : Option Request → Outcome
  | none => ⟨2, "", usage⟩
  | some .version => ⟨0, versionLine, ""⟩
  | some .help => ⟨0, usage, ""⟩
  | some (.run common command file) =>
    match settingsOf host common with
    | .error e => failed e
    | .ok settings =>
      match perform host entropy settings command file with
      | .error e => failed e
      | .ok output => ⟨0, output, ""⟩

/-- Run a command line. -/
def run (host : Host) (entropy : Nat) (args : List String) : Outcome :=
  fulfil host entropy (Request.ofArguments args)

/-- The files that a request reads. -/
def filesOf : Option Request → List String
  | some (.run common _ file) => common.config.toList ++ [file]
  | _ => []

end EditableGrammar.CommandLine
