import EditableGrammar.Format.Listing
import EditableGrammar.Format.Report
import EditableGrammar.Format.RuleJson
import EditableGrammar.Grammar.Edit
import EditableGrammar.Settings

set_option autoImplicit false

/-!
# Grammar files

The extension of a file's name says how it is read: a listing, a JSON array of rules, or a grammar
file of a parser generator.  The last kind is not read here but handed to a program that writes a
report about it, and the report is read.

What is outside, files and that program, is described by a `Host`: what reading a file gives, and
what comes of running the program.
-/

namespace EditableGrammar

/-! ## The outside -/

/-- The bytes of a file, or why there are none. -/
abbrev FileContent := Except FileFault ByteArray

/-- What came of running the program that writes reports. -/
inductive ToolRun where
  /-- the program is in none of the directories searched -/
  | missing (searchPath : String)
  /-- the program is there but may not be run -/
  | notExecutable
  /-- the program ran and refused the grammar file -/
  | refused
  /-- the program wrote a report -/
  | wrote (report : ByteArray)

/-- What is outside. -/
structure Host where
  /-- what reading a file gives -/
  read : String → FileContent
  /-- what comes of running the program on a grammar file, looked for in the directories given, or
  in the usual ones if none are -/
  runTool : Option String → String → ToolRun

/-- The text of a file. -/
def textOf (content : FileContent) : Except Error String :=
  match content with
  | .error fault => .error (.file fault)
  | .ok bytes =>
    match String.fromUTF8? bytes with
    | some text => .ok text
    | none => .error (.file .notUtf8)

/-! ## File names -/

/-- The last component of a path; empty components and single dots do not count. -/
def fileName? (path : String) : Option (List Char) :=
  match ((path.toList.splitOn '/').filter fun part => part != [] && part != ['.']).getLast? with
  | some ['.', '.'] => none
  | name => name

/-- What follows the last dot of a file name.  A dot at the beginning begins no extension. -/
def extension? (name : List Char) : Option (List Char) :=
  match name.reverse.dropWhile (· != '.') with
  | _ :: _ :: _ => some (name.reverse.takeWhile (· != '.')).reverse
  | _ => none

/-- How a grammar file is read. -/
inductive FileFormat where
  | listing
  | json
  | report
  deriving DecidableEq, Repr, Inhabited

/-- The format that a path's extension stands for; the case of letters counts. -/
def FileFormat.ofPath (path : String) : FileFormat :=
  match ((fileName? path).bind extension?).map String.ofList with
  | some "y" => .report
  | some "yy" => .report
  | some "json" => .json
  | _ => .listing

/-! ## Reading rules -/

/-- The bytes of a report, or why there are none. -/
def reportOf (path : String) : ToolRun → Except Error String
  | .missing searchPath => .error (.toolMissing searchPath)
  | .notExecutable => .error (.file .permissionDenied)
  | .refused => .error (.undecodable path)
  | .wrote report => textOf (.ok report)

/-- The rules of a grammar file in order, each at its first place only. -/
def Host.readRules (host : Host) (format : FileFormat) (toolPath : Option String) (path : String) :
    Logged (Except Error (List Rule)) :=
  match format with
  | .listing =>
    match textOf (host.read path) with
    | .error e => .pure (.error e)
    | .ok text => .pure (Listing.read text)
  | .json =>
    match textOf (host.read path) with
    | .error e => .pure (.error e)
    | .ok text => .pure (RuleJson.read text)
  | .report =>
    match reportOf path (host.runTool toolPath path) with
    | .error e => .pure (.error e)
    | .ok text => Report.read text

namespace Grammar

/-! ## Adding what a file holds -/

/-- The symbol that a parser generator puts after the start symbol in its own first rule. -/
def endMarker : Symbol := "$end"

/-- The symbol that a parser generator derives everything from. -/
def acceptSymbol : Symbol := "$accept"

/-- Add the rules of a report, take the end marker out again and start at the generator's own first
symbol.  If either symbol is missing, there is no new grammar. -/
def adoptReport (g : Grammar) (rules : List Rule) : Logged (Except Error Grammar) :=
  (g.extend rules).bind fun staged =>
    match staged.removeSymbol endMarker with
    | .error e => .pure (.error e)
    | .ok trimmed => trimmed.map fun g => g.setStart acceptSymbol

/-- Add the rules of a parser generator's grammar file. -/
def loadReport (g : Grammar) (host : Host) (toolPath : Option String) (path : String) :
    Logged (Except Error Grammar) :=
  (host.readRules .report toolPath path).bind fun
    | .error e => .pure (.error e)
    | .ok rules =>
      (g.adoptReport rules).bind fun
        | .error e => .pure (.error e)
        | .ok loaded => .note (.loaded loaded.size path) (.ok loaded)

/-- The grammar of a file, read as its name says. -/
def ofFile (host : Host) (settings : Settings) (path : String) : Logged (Except Error Grammar) :=
  match FileFormat.ofPath path with
  | .report => empty.loadReport host settings.toolPath path
  | format =>
    (host.readRules format settings.toolPath path).bind fun
      | .error e => .pure (.error e)
      | .ok rules => (ofRules rules).map .ok

end Grammar

end EditableGrammar
