import EditableGrammar.Error
import EditableGrammar.Grammar.Index

set_option autoImplicit false

/-!
# The grammar store

A grammar keeps its rules by number and, for every symbol, the numbers of the rules that produce it
and of the rules that mention it.  The second table is an index: it can be recomputed from the rules
but for one thing, namely which symbols the grammar knows.  A symbol becomes known when a rule
mentions it and stays known, even when no rule mentions it any more, until it is removed.

All tables are extensional, so two grammars are equal exactly when they hold the same rules under
the same numbers, the same index, the same counter and the same chosen start.

A symbol is a terminal when it has no productions; nothing else marks it as one.
-/

namespace EditableGrammar

/-- An editable context-free grammar. -/
structure Grammar where
  /-- the known symbols, each with its uses -/
  index : Index := ∅
  /-- the rules by number -/
  rules : Std.ExtTreeMap RuleId Rule := ∅
  /-- the number of the next new rule; numbers are never used again -/
  nextId : RuleId := 0
  /-- the start symbol, where one was chosen -/
  explicitStart : Option Symbol := none
  deriving DecidableEq

namespace Grammar

/-- The grammar without rules and symbols. -/
def empty : Grammar := {}

instance : Inhabited Grammar := ⟨empty⟩

/-! ## Rules -/

/-- The numbers of the rules with left-hand side `s`, oldest first. -/
def productions (g : Grammar) (s : Symbol) : List RuleId :=
  match g.index[s]? with
  | some uses => uses.productions.toList
  | none => []

/-- The right-hand side stored under a number, until its rule is erased. -/
def rhs? (g : Grammar) (id : RuleId) : Option (List Symbol) :=
  g.rules[id]?.map Rule.rhs

/-- The numbers of the rules that mention `s` on their right-hand side, oldest first. -/
def occurrences (g : Grammar) (s : Symbol) : List RuleId :=
  match g.index[s]? with
  | some uses => uses.occurrences.toList
  | none => []

/-- The symbols of all productions of `s`, in the order of the productions, with repetitions. -/
def successors (g : Grammar) (s : Symbol) : List Symbol :=
  (g.productions s).flatMap fun id => (g.rhs? id).getD []

/-- The number of the oldest production of `lhs` with the right-hand side `rhs`. -/
def findRule (g : Grammar) (lhs : Symbol) (rhs : List Symbol) : Option RuleId :=
  (g.productions lhs).find? fun id => g.rhs? id == some rhs

/-- Whether the grammar holds a rule, matched by content. -/
def containsRule (g : Grammar) (r : Rule) : Bool := (g.findRule r.lhs r.rhs).isSome

/-- The rules with their numbers, oldest first. -/
def numberedRules (g : Grammar) : List (RuleId × Rule) := g.rules.toList

/-- The rules of the grammar as a set. -/
def ruleSet (g : Grammar) : Std.ExtTreeSet Rule := .ofList (g.numberedRules.map Prod.snd)

/-- The number of rules. -/
def size (g : Grammar) : Nat := g.rules.size

/-- Whether the grammar has no rules.  It may still know symbols. -/
def isEmpty (g : Grammar) : Bool := g.rules.isEmpty

/-- The rules that mention `s` on either side.  No rule mentions an unknown symbol. -/
def rulesContaining (g : Grammar) (s : Symbol) : Std.ExtTreeSet Rule :=
  .ofList ((g.productions s ++ g.occurrences s).filterMap (g.rules[·]?))

/-! ## Symbols -/

/-- The known symbols, in order. -/
def symbols (g : Grammar) : List Symbol := g.index.keys

/-- Whether a symbol is known. -/
def containsSymbol (g : Grammar) (s : Symbol) : Bool := g.index.contains s

/-- The known symbols without productions, in order. -/
def terminals (g : Grammar) : List Symbol :=
  (g.index.filter fun _ uses => uses.productions.isEmpty).keys

/-- The known symbols with a production, in order. -/
def nonterminals (g : Grammar) : List Symbol :=
  (g.index.filter fun _ uses => !uses.productions.isEmpty).keys

/-- Whether a known symbol is a terminal; a question about an unknown symbol is refused. -/
def isTerminal (g : Grammar) (s : Symbol) : Except Error Bool :=
  match g.index[s]? with
  | some uses => .ok uses.productions.isEmpty
  | none => .error (.unknownSymbol s)

/-! ## The start symbol -/

/-- The left-hand side of the oldest rule that is still there. -/
def oldestLhs (g : Grammar) : Option Symbol :=
  g.rules.minKey?.bind fun id => g.rules[id]?.map Rule.lhs

/-- Where derivations start: at the chosen start symbol as long as the grammar knows it, else at the
left-hand side of the oldest rule. -/
def startSymbol (g : Grammar) : Option Symbol :=
  match g.explicitStart with
  | some s => if g.containsSymbol s then some s else g.oldestLhs
  | none => g.oldestLhs

/-- Choose the start symbol among the known symbols. -/
def setStart (g : Grammar) (s : Symbol) : Except Error Grammar :=
  if g.containsSymbol s then .ok { g with explicitStart := some s }
  else .error (.unknownSymbol s)

/-! ## Look-up lemmas -/

theorem mem_symbols {g : Grammar} {s : Symbol} : s ∈ g.symbols ↔ s ∈ g.index := by
  simp [symbols]

theorem containsSymbol_iff {g : Grammar} {s : Symbol} :
    g.containsSymbol s = true ↔ s ∈ g.symbols := by
  simp [containsSymbol, mem_symbols]

theorem productions_of_not_mem {g : Grammar} {s : Symbol} (h : s ∉ g.symbols) :
    g.productions s = [] := by
  rw [mem_symbols] at h
  simp [productions, Std.ExtTreeMap.getElem?_eq_none h]

theorem successors_of_not_mem {g : Grammar} {s : Symbol} (h : s ∉ g.symbols) :
    g.successors s = [] := by
  simp [successors, productions_of_not_mem h]

theorem mem_ruleSet {g : Grammar} {r : Rule} :
    r ∈ g.ruleSet ↔ ∃ id : RuleId, g.rules[id]? = some r := by
  simp [ruleSet, numberedRules, Std.ExtTreeSet.mem_ofList,
    Std.ExtTreeMap.mem_toList_iff_getElem?_eq_some]

/-- The order in which symbols are listed is the order of their names. -/
theorem pairwise_symbols (g : Grammar) :
    g.symbols.Pairwise fun a b => compare a b = .lt :=
  Std.ExtTreeMap.ordered_keys

end Grammar

end EditableGrammar
