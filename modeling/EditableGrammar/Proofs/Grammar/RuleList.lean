import EditableGrammar.Error
import EditableGrammar.Proofs.Grammar.Removal

set_option autoImplicit false

/-!
# A grammar as a plain list of numbered rules

What a grammar is to its user can be said without an index: a list of rules with their numbers, the
oldest first, a set of known symbols, perhaps a chosen start symbol, and the next number.
`RuleList` is that, and every command is carried out by searching the list from end to end.  It says
what the commands mean; how a grammar with an index comes to do the same is another matter.
-/

namespace EditableGrammar

/-- A command to a grammar. -/
inductive Command where
  | add (rule : Rule)
  | removeRule (rule : Rule)
  | removeSymbol (symbol : Symbol)
  | makeTerminal (symbol : Symbol)
  | prune
  | setStart (symbol : Symbol)
  deriving DecidableEq, Repr

/-- What is answered to a command. -/
inductive Answer where
  /-- the rule was added if it was new -/
  | added (new : Bool)
  /-- these symbols were forgotten -/
  | pruned (symbols : List Symbol)
  | done
  /-- nothing was done, for this reason -/
  | refused (error : Error)
  deriving DecidableEq, Repr

/-- Give commands to something that answers them, one after the other. -/
def answers {State : Type} (respond : State → Command → State × Answer) :
    State → List Command → State × List Answer
  | state, [] => (state, [])
  | state, command :: commands =>
    let next := respond state command
    let rest := answers respond next.1 commands
    (rest.1, next.2 :: rest.2)

/-- A grammar without an index. -/
structure RuleList where
  /-- the rules with their numbers, oldest first -/
  rows : List (RuleId × Rule) := []
  symbols : Std.ExtTreeSet Symbol := ∅
  start : Option Symbol := none
  nextId : RuleId := 0

namespace RuleList

/-! ## Questions -/

/-- Whether a rule is in the list. -/
def holds (m : RuleList) (r : Rule) : Bool := m.rows.any fun row => row.2 == r

/-- Whether some rule has `s` on the left. -/
def produces (m : RuleList) (s : Symbol) : Bool := m.rows.any fun row => row.2.lhs == s

/-- Whether some rule mentions `s`. -/
def mentions (m : RuleList) (s : Symbol) : Bool := m.rows.any fun row => row.2.symbols.contains s

/-- The rules as a set. -/
def ruleSet (m : RuleList) : Std.ExtTreeSet Rule := .ofList (m.rows.map Prod.snd)

/-- The rules that mention `s`. -/
def rulesContaining (m : RuleList) (s : Symbol) : Std.ExtTreeSet Rule :=
  .ofList ((m.rows.map Prod.snd).filter fun r => r.symbols.contains s)

def terminals (m : RuleList) : Std.ExtTreeSet Symbol := m.symbols.filter fun s => !m.produces s

def nonterminals (m : RuleList) : Std.ExtTreeSet Symbol := m.symbols.filter m.produces

def isTerminal (m : RuleList) (s : Symbol) : Except Error Bool :=
  if s ∈ m.symbols then .ok (!m.produces s) else .error (.unknownSymbol s)

/-- The chosen start symbol, else the left-hand side of the first rule. -/
def startSymbol (m : RuleList) : Option Symbol :=
  match m.start with
  | some s => some s
  | none => m.rows.head?.map fun row => row.2.lhs

/-! ## Commands -/

/-- Append a rule that is not in the list, with the next number; its symbols become known. -/
def append (m : RuleList) (r : Rule) : RuleList :=
  { m with
    rows := m.rows ++ [(m.nextId, r)]
    symbols := m.symbols.insertMany r.symbols
    nextId := m.nextId + 1 }

/-- Keep the rows whose rule passes a test. -/
def filterRules (m : RuleList) (test : Rule → Bool) : RuleList :=
  { m with rows := m.rows.filter fun row => test row.2 }

/-- Of rows with equal rules keep the one with the smallest number. -/
def keepOldest (rows : List (RuleId × Rule)) : List (RuleId × Rule) :=
  rows.filter fun row => rows.all fun other => other.2 != row.2 || row.1 ≤ other.1

/-- Delete the productions of `s`, drop `s` from all other rules and from the known symbols, and
forget a choice of it as the start symbol. -/
def removeSymbol (m : RuleList) (s : Symbol) : RuleList :=
  { m with
    rows := keepOldest ((m.filterRules (·.lhs != s)).rows.map fun row => (row.1, row.2.without s))
    symbols := m.symbols.erase s
    start := if m.start = some s then none else m.start }

/-- The symbols that no rule mentions, without a chosen start symbol. -/
def unreferenced (m : RuleList) : Std.ExtTreeSet Symbol :=
  m.symbols.filter fun s => !m.mentions s && m.start != some s

/-- Keep the symbols that some rule mentions, and a chosen start symbol. -/
def prune (m : RuleList) : RuleList :=
  { m with symbols := m.symbols.filter fun s => m.mentions s || m.start == some s }

/-- Do something that needs a symbol to be known. -/
def withKnown (m : RuleList) (s : Symbol) (change : RuleList → RuleList) : RuleList × Answer :=
  if s ∈ m.symbols then (change m, .done) else (m, .refused (.unknownSymbol s))

/-- Carry out a command. -/
def respond (m : RuleList) : Command → RuleList × Answer
  | .add r => if m.holds r then (m, .added false) else (m.append r, .added true)
  | .removeRule r =>
    if m.holds r then (m.filterRules (· != r), .done) else (m, .refused (.ruleNotFound r))
  | .removeSymbol s => m.withKnown s (·.removeSymbol s)
  | .makeTerminal s => m.withKnown s (·.filterRules (·.lhs != s))
  | .prune => (m.prune, .pruned m.unreferenced.toList)
  | .setStart s => m.withKnown s fun m => { m with start := some s }

end RuleList

end EditableGrammar
