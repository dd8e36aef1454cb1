import EditableGrammar.Event
import EditableGrammar.Grammar.Basic

set_option autoImplicit false

/-!
# Edits

Every edit checks its argument before it touches the grammar: a refused edit has no new grammar at
all, so nothing can be left half done.  An edit that goes through is logged.

Two productions of one symbol are never equal.  An edit that changes a right-hand side keeps it so:
where the new right-hand side is that of another production, the older of the two survives, so the
default start symbol never moves.
-/

namespace EditableGrammar

namespace Grammar

/-! ## Adding -/

/-- Store a rule under the next number; its symbols become known. -/
def storeRule (g : Grammar) (r : Rule) : Grammar :=
  { g with
    index := (g.index.addProduction r.lhs g.nextId).addOccurrences r.rhs g.nextId
    rules := g.rules.insert g.nextId r
    nextId := g.nextId + 1 }

/-- Add a rule.  A rule that is there already is left alone and takes no number. -/
def addRule (g : Grammar) (r : Rule) : Logged Grammar :=
  if g.containsRule r then .pure g else .note (.added r g.nextId) (g.storeRule r)

/-- Add rules in order. -/
def extend (g : Grammar) (rules : List Rule) : Logged Grammar := .foldl addRule g rules

/-- The grammar of a list of rules, numbered in order. -/
def ofRules (rules : List Rule) : Logged Grammar := empty.extend rules

/-! ## Erasing rules -/

/-- Erase the rule of a number; its symbols stay known. -/
def eraseRule (g : Grammar) (id : RuleId) : Logged Grammar :=
  match g.rules[id]? with
  | none => .pure g
  | some r =>
    .note (.erased id)
      { g with
        index := (g.index.dropProduction r.lhs id).dropOccurrences r.rhs id
        rules := g.rules.erase id }

/-- Erase the rules of some numbers, in order. -/
def eraseRules (g : Grammar) (ids : List RuleId) : Logged Grammar := .foldl eraseRule g ids

/-- Remove a rule, matched by content. -/
def removeRule (g : Grammar) (r : Rule) : Except Error (Logged Grammar) :=
  match (g.productions r.lhs).filter fun id => g.rhs? id == some r.rhs with
  | [] => .error (.ruleNotFound r)
  | ids => .ok (g.eraseRules ids)

/-- Make a symbol a terminal by removing all its productions. -/
def makeTerminal (g : Grammar) (s : Symbol) : Except Error (Logged Grammar) :=
  if g.containsSymbol s then .ok (g.eraseRules (g.productions s))
  else .error (.unknownSymbol s)

/-! ## Changing right-hand sides -/

/-- Store another right-hand side under a number, whatever other rules hold. -/
def replaceRhs (g : Grammar) (id : RuleId) (rhs : List Symbol) : Grammar :=
  match g.rules[id]? with
  | none => g
  | some r =>
    { g with
      index := (g.index.dropOccurrences r.rhs id).addOccurrences rhs id
      rules := g.rules.insert id { r with rhs := rhs } }

/-- Give the rule of a number another right-hand side.  If that makes it equal to another
production, the older of the two stays, under its own number, and the younger goes. -/
def changeRhs (g : Grammar) (id : RuleId) (rhs : List Symbol) : Logged Grammar :=
  match g.rules[id]? with
  | none => .pure g
  | some r =>
    match g.findRule r.lhs rhs with
    | none => .pure (g.replaceRhs id rhs)
    | some other =>
      if other < id then
        (Logged.note (.merged id other) g).bind fun g => g.eraseRule id
      else if id < other then
        ((Logged.note (.merged other id) g).bind fun g => g.eraseRule other).map fun g =>
          g.replaceRhs id rhs
      else .pure (g.replaceRhs id rhs)

/-! ## Removing symbols -/

/-- Take the symbol `s` out of the right-hand side of one rule, if the rule is still there. -/
def strikeFromRule (s : Symbol) (g : Grammar) (id : RuleId) : Logged Grammar :=
  match g.rhs? id with
  | none => .pure g
  | some rhs => g.changeRhs id (rhs.filter (· != s))

/-- Take a symbol without productions out of all right-hand sides, oldest rule first, and out of
the known symbols.  A choice of it as the start symbol is forgotten. -/
def strike (g : Grammar) (s : Symbol) : Logged Grammar :=
  ((Logged.note (.symbolRemoved s) { g with index := g.index.erase s }).bind fun bare =>
    Logged.foldl (strikeFromRule s) bare (g.occurrences s)).map fun struck =>
      { struck with
        explicitStart := if struck.explicitStart = some s then none else struck.explicitStart }

/-- Remove a symbol: its productions go, and every other rule keeps its other symbols in order. -/
def removeSymbol (g : Grammar) (s : Symbol) : Except Error (Logged Grammar) :=
  match g.makeTerminal s with
  | .error e => .error e
  | .ok cleared => .ok (cleared.bind fun g => g.strike s)

/-! ## Collecting symbols -/

/-- Whether nothing holds on to a symbol with these uses: no rule mentions it and it was not chosen
as the start. -/
def isUnreferenced (g : Grammar) (s : Symbol) (uses : Uses) : Bool :=
  uses.isEmpty && g.explicitStart != some s

/-- The known symbols that no rule mentions, in order, without a chosen start symbol. -/
def unreferenced (g : Grammar) : List Symbol := (g.index.filter g.isUnreferenced).keys

/-- Forget the unreferenced symbols. -/
def prune (g : Grammar) : Logged Grammar :=
  match g.unreferenced with
  | [] => .pure g
  | dropped =>
    .note (.pruned dropped.length)
      { g with index := g.index.filter fun s uses => !g.isUnreferenced s uses }

/-! ## What the refusals depend on -/

theorem makeTerminal_eq_error_iff {g : Grammar} {s : Symbol} {e : Error} :
    g.makeTerminal s = .error e ↔ s ∉ g.symbols ∧ e = .unknownSymbol s := by
  rw [← containsSymbol_iff]
  unfold makeTerminal
  split
  next h => simp [h]
  next h => simp [h, @eq_comm _ e]

theorem removeSymbol_eq_error_iff {g : Grammar} {s : Symbol} {e : Error} :
    g.removeSymbol s = .error e ↔ s ∉ g.symbols ∧ e = .unknownSymbol s := by
  rw [← makeTerminal_eq_error_iff]
  unfold removeSymbol
  split <;> simp_all

theorem setStart_eq_error_iff {g : Grammar} {s : Symbol} {e : Error} :
    g.setStart s = .error e ↔ s ∉ g.symbols ∧ e = .unknownSymbol s := by
  rw [← containsSymbol_iff]
  unfold setStart
  split
  next h => simp [h]
  next h => simp [h, @eq_comm _ e]

end Grammar

end EditableGrammar
