import EditableGrammar.Proofs.Grammar.History
import EditableGrammar.Proofs.Grammar.RuleList

set_option autoImplicit false

/-!
# The index cannot be seen

Leave the index of a grammar away, and a `RuleList` remains: `Grammar.listed`.  Every command does
to a well formed grammar what it does to that list, and gives the same answer
(`WellFormed.respond_listed`), and every question has the same answer of both
(`WellFormed.agrees_listed`).  So no conversation can tell a grammar from a plain list of numbered
rules.

A list in the order of its numbers is known by its rows, so the rules of a grammar after a command
need only be compared number by number.
-/

namespace EditableGrammar

namespace Grammar

variable {g : Grammar} {s x : Symbol} {id : RuleId} {r : Rule}

/-- The grammar without its index. -/
def listed (g : Grammar) : RuleList where
  rows := g.numberedRules
  symbols := .ofList g.symbols
  start := g.explicitStart
  nextId := g.nextId

/-- The grammar after an edit that may be refused, and what is answered. -/
def outcome (g : Grammar) : Except Error Grammar → Grammar × Answer
  | .ok edited => (edited, .done)
  | .error e => (g, .refused e)

/-- Carry out a command. -/
def respond (g : Grammar) : Command → Grammar × Answer
  | .add r => ((g.addRule r).value, .added !g.containsRule r)
  | .removeRule r => g.outcome (g.perform (.removeRule r))
  | .removeSymbol s => g.outcome (g.perform (.removeSymbol s))
  | .makeTerminal s => g.outcome (g.perform (.makeTerminal s))
  | .prune => (g.prune.value, .pruned g.unreferenced)
  | .setStart s => g.outcome (g.perform (.setStart s))

/-! ## What the list holds -/

/-- Rows in the order of their numbers. -/
def InOrder (rows : List (RuleId × Rule)) : Prop := rows.Pairwise fun a b => a.1 < b.1

/-- Rows in order are known by their members. -/
theorem InOrder.eq_of_mem_iff {rows rows' : List (RuleId × Rule)} (h : InOrder rows)
    (h' : InOrder rows') (hmem : ∀ row, row ∈ rows ↔ row ∈ rows') : rows = rows' :=
  List.Pairwise.eq_of_mem_iff h h' hmem

theorem inOrder_listed (g : Grammar) : InOrder g.listed.rows :=
  Std.ExtTreeMap.ordered_keys_toList.imp fun h => Std.compare_eq_lt.1 h

theorem mem_rows_listed : (id, r) ∈ g.listed.rows ↔ g.rules[id]? = some r :=
  Std.ExtTreeMap.mem_toList_iff_getElem?_eq_some

theorem mem_symbols_listed : x ∈ g.listed.symbols ↔ x ∈ g.index := by
  simp [listed, Std.ExtTreeSet.mem_ofList, mem_symbols]

/-- The list of a grammar is known by its rules, symbols, start symbol and next number. -/
theorem listed_eq {m : RuleList} (horder : InOrder m.rows)
    (hrows : ∀ (id : RuleId) (r : Rule), (id, r) ∈ m.rows ↔ g.rules[id]? = some r)
    (hsymbols : ∀ x, x ∈ m.symbols ↔ x ∈ g.index) (hstart : m.start = g.explicitStart)
    (hnext : m.nextId = g.nextId) : g.listed = m := by
  have hrows' : g.listed.rows = m.rows := by
    refine (inOrder_listed g).eq_of_mem_iff horder ?_
    rintro ⟨id, r⟩
    rw [mem_rows_listed, hrows]
  have hsymbols' : g.listed.symbols = m.symbols := by
    apply Std.ExtTreeSet.ext_mem
    intro x
    rw [mem_symbols_listed, hsymbols]
  obtain ⟨rows, symbols, start, nextId⟩ := m
  dsimp only at hrows' hsymbols' hstart hnext
  rw [← hrows', ← hsymbols', hstart, hnext]
  rfl

theorem exists_row_iff (test : Rule → Bool) :
    (g.listed.rows.any fun row => test row.2) = true ↔
      ∃ (id : RuleId) (r : Rule), g.rules[id]? = some r ∧ test r = true := by
  rw [List.any_eq_true]
  constructor
  · rintro ⟨⟨id, r⟩, hrow, htest⟩
    exact ⟨id, r, mem_rows_listed.1 hrow, htest⟩
  · rintro ⟨id, r, hr, htest⟩
    exact ⟨(id, r), mem_rows_listed.2 hr, htest⟩

theorem holds_listed_iff : g.listed.holds r = true ↔ ∃ id : RuleId, g.rules[id]? = some r := by
  rw [RuleList.holds, exists_row_iff fun q => q == r]
  simp

theorem produces_listed_iff : g.listed.produces s = true ↔
    ∃ (id : RuleId) (r : Rule), g.rules[id]? = some r ∧ r.lhs = s := by
  rw [RuleList.produces, exists_row_iff fun q => q.lhs == s]
  simp

theorem mentions_listed_iff : g.listed.mentions s = true ↔
    ∃ (id : RuleId) (r : Rule), g.rules[id]? = some r ∧ s ∈ r.symbols := by
  rw [RuleList.mentions, exists_row_iff fun q => q.symbols.contains s]
  simp

/-! ## Commands -/

/-- The rows of a list that pass a test, in terms of the rules of the grammar. -/
theorem mem_filterRules_listed {test : Rule → Bool} :
    (id, r) ∈ (g.listed.filterRules test).rows ↔ g.rules[id]? = some r ∧ test r = true := by
  rw [RuleList.filterRules, List.mem_filter, mem_rows_listed]

theorem inOrder_filterRules_listed (g : Grammar) (test : Rule → Bool) :
    InOrder (g.listed.filterRules test).rows :=
  (inOrder_listed g).sublist List.filter_sublist

theorem Indexed.containsRule_eq_holds (hg : g.Indexed) (r : Rule) :
    g.containsRule r = g.listed.holds r := by
  rw [Bool.eq_iff_iff, hg.containsRule_iff, holds_listed_iff]

theorem Indexed.listed_storeRule (hg : g.Indexed) (r : Rule) :
    (g.storeRule r).listed = g.listed.append r := by
  apply listed_eq
  · refine List.pairwise_append.2 ⟨inOrder_listed g, List.pairwise_singleton _ _, ?_⟩
    rintro ⟨id, q⟩ hrow _ hnew
    rw [List.mem_singleton.1 hnew]
    exact hg.bounded (mem_rows_listed.1 hrow)
  · intro id q
    have hfree : g.rules[g.nextId]? = none := by
      rw [Option.eq_none_iff_forall_ne_some]
      intro q hq
      exact Nat.lt_irrefl _ (hg.bounded hq)
    rw [RuleList.append, List.mem_append, mem_rows_listed, List.mem_singleton, rules_storeRule]
    split
    next hid =>
      subst hid
      simp [hfree, listed, eq_comm]
    next hid => simp [listed, Ne.symm hid]
  · intro x
    rw [mem_index_storeRule]
    simp [RuleList.append, Std.ExtTreeSet.mem_insertMany_list, mem_symbols_listed, or_comm]
  · rfl
  · rfl

/-- Erasing the rules that fail a test is filtering the list. -/
theorem listed_eraseRules {ids : List RuleId} {test : Rule → Bool}
    (hids : ∀ {id : RuleId} {r : Rule}, g.rules[id]? = some r → (id ∈ ids ↔ test r = false)) :
    (g.eraseRules ids).value.listed = g.listed.filterRules test := by
  apply listed_eq
  · exact inOrder_filterRules_listed g test
  · intro id r
    rw [mem_filterRules_listed, rules_eraseRules]
    constructor
    · rintro ⟨hr, htest⟩
      rw [if_neg, hr]
      simp [hids hr, htest]
    · intro hr
      split at hr
      next => cases hr
      next hid =>
        refine ⟨hr, ?_⟩
        simpa [hids hr] using hid
  · intro x
    rw [mem_index_eraseRules]
    exact mem_symbols_listed
  · exact (explicitStart_eraseRules g ids).symm
  · exact (nextId_eraseRules g ids).symm

theorem Indexed.listed_makeTerminal (hg : g.Indexed) (s : Symbol) :
    (g.eraseRules (g.productions s)).value.listed = g.listed.filterRules (·.lhs != s) := by
  apply listed_eraseRules
  intro id r hr
  rw [hg.mem_productions_iff, hr]
  simp

theorem Indexed.listed_removeRule (hg : g.Indexed) (r : Rule) :
    (g.eraseRules ((g.productions r.lhs).filter fun id => g.rhs? id == some r.rhs)).value.listed =
      g.listed.filterRules (· != r) := by
  apply listed_eraseRules
  intro id q hq
  rw [List.mem_filter, hg.mem_productions_iff, rhs?, hq]
  obtain ⟨lhs, rhs⟩ := q
  obtain ⟨lhs', rhs'⟩ := r
  simp

/-- Of equal rows the list keeps the oldest. -/
theorem mem_keepOldest {rows : List (RuleId × Rule)} :
    (id, r) ∈ RuleList.keepOldest rows ↔
      (id, r) ∈ rows ∧ ∀ {j : RuleId}, (j, r) ∈ rows → id ≤ j := by
  rw [RuleList.keepOldest, List.mem_filter, List.all_eq_true]
  refine and_congr_right fun _ => ⟨fun hall j hj => ?_, fun hall row hrow => ?_⟩
  · simpa using hall (j, r) hj
  · by_cases hsame : row.2 = r
    · subst hsame
      simpa using hall hrow
    · simp [hsame]

theorem WellFormed.listed_removeSymbol (hg : g.WellFormed) {l : Logged Grammar}
    (hl : g.removeSymbol s = .ok l) : l.value.listed = g.listed.removeSymbol s := by
  have hmem : ∀ {id : RuleId} {q : Rule},
      (id, q) ∈ (g.listed.filterRules (·.lhs != s)).rows.map
          (fun row => (row.1, row.2.without s)) ↔
        ∃ r, g.rules[id]? = some r ∧ r.lhs ≠ s ∧ r.without s = q := by
    intro id q
    rw [List.mem_map]
    constructor
    · rintro ⟨⟨k, r⟩, hrow, heq⟩
      obtain ⟨hr, hlhs⟩ := mem_filterRules_listed.1 hrow
      cases heq
      exact ⟨r, hr, by simpa using hlhs, rfl⟩
    · rintro ⟨r, hr, hlhs, rfl⟩
      exact ⟨(id, r), mem_filterRules_listed.2 ⟨hr, by simpa using hlhs⟩, rfl⟩
  apply listed_eq
  · refine List.Pairwise.sublist List.filter_sublist ?_
    exact (inOrder_filterRules_listed g _).map _ fun a b hab => hab
  · intro id q
    rw [hg.rules_removeSymbol hl, RuleList.removeSymbol, mem_keepOldest, hmem]
    refine and_congr_right fun _ => ?_
    constructor
    · intro hall j r hr hlhs hq
      exact hall (hmem.2 ⟨r, hr, hlhs, hq⟩)
    · intro hall j hj
      obtain ⟨r, hr, hlhs, hq⟩ := hmem.1 hj
      exact hall hr hlhs hq
  · intro x
    rw [hg.mem_index_removeSymbol hl, RuleList.removeSymbol, Std.ExtTreeSet.mem_erase,
      mem_symbols_listed, ne_eq, Std.compare_eq_iff_eq, and_comm, ← ne_eq, ne_comm]
  · exact (explicitStart_removeSymbol hl).symm
  · exact (nextId_removeSymbol hl).symm

/-- The entry of a symbol says whether it has productions. -/
theorem Indexed.isEmpty_productions (hg : g.Indexed) {uses : Uses} (hs : g.index[s]? = some uses) :
    uses.productions.isEmpty = !g.listed.produces s := by
  rw [Bool.eq_iff_iff, Bool.not_eq_true', ← Bool.not_eq_true, produces_listed_iff, not_exists,
    Std.ExtTreeSet.isEmpty_iff, Std.ExtTreeSet.eq_empty_iff_forall_not_mem]
  exact forall_congr' fun id => not_congr (hg.productions_iff hs id)

/-- The entry of a symbol says whether some rule mentions it. -/
theorem Indexed.isEmpty_uses (hg : g.Indexed) {uses : Uses} (hs : g.index[s]? = some uses) :
    uses.isEmpty = !g.listed.mentions s := by
  rw [Bool.eq_iff_iff, Bool.not_eq_true', ← Bool.not_eq_true, mentions_listed_iff,
    hg.isEmpty_uses_iff hs]

/-- A set of symbols in order. -/
theorem toList_eq {keys : List Symbol} {symbols : Std.ExtTreeSet Symbol}
    (horder : keys.Pairwise fun a b => compare a b = .lt)
    (hmem : ∀ x, x ∈ keys ↔ x ∈ symbols) : keys = symbols.toList :=
  eq_of_strictly_ordered horder symbols.ordered_toList fun x => by
    rw [hmem, Std.ExtTreeSet.mem_toList]

/-- Selecting known symbols by their entries is selecting them from the list by the rules. -/
theorem keys_filter_eq {select : Symbol → Uses → Bool} {test : Symbol → Bool}
    (hsame : ∀ {s : Symbol} {uses : Uses}, g.index[s]? = some uses → select s uses = test s) :
    (g.index.filter select).keys = (g.listed.symbols.filter test).toList := by
  refine toList_eq Std.ExtTreeMap.ordered_keys fun x => ?_
  rw [Std.ExtTreeMap.mem_keys, Index.mem_iff]
  simp only [Std.ExtTreeMap.getElem?_filter', Option.filter_eq_some_iff, Std.ExtTreeSet.mem_filter,
    Std.ExtTreeSet.get_eq, mem_symbols_listed, exists_prop, Index.mem_iff]
  constructor
  · rintro ⟨uses, huses, hselect⟩
    exact ⟨⟨uses, huses⟩, hsame huses ▸ hselect⟩
  · rintro ⟨⟨uses, huses⟩, htest⟩
    exact ⟨uses, huses, (hsame huses).trans htest⟩

theorem Indexed.isUnreferenced_eq (hg : g.Indexed) {uses : Uses} (hs : g.index[s]? = some uses) :
    g.isUnreferenced s uses = (!g.listed.mentions s && g.listed.start != some s) := by
  rw [isUnreferenced, hg.isEmpty_uses hs]
  rfl

theorem Indexed.unreferenced_eq (hg : g.Indexed) :
    g.unreferenced = g.listed.unreferenced.toList :=
  keys_filter_eq hg.isUnreferenced_eq

theorem Indexed.listed_prune (hg : g.Indexed) : g.prune.value.listed = g.listed.prune := by
  have hkept_iff : ∀ {x : Symbol} {uses : Uses}, g.index[x]? = some uses →
      ((g.listed.mentions x || g.listed.start == some x) = true ↔
        g.isUnreferenced x uses = false) := by
    intro x uses huses
    rw [hg.isUnreferenced_eq huses, bne, ← Bool.not_or, Bool.not_eq_false']
  apply listed_eq
  · exact inOrder_listed g
  · intro id r
    rw [value_prune]
    exact mem_rows_listed
  · intro x
    simp only [RuleList.prune, Std.ExtTreeSet.mem_filter, Std.ExtTreeSet.get_eq, exists_prop,
      mem_symbols_listed, Index.mem_iff, index_prune]
    constructor
    · rintro ⟨⟨uses, huses⟩, hkept⟩
      exact ⟨uses, huses, (hkept_iff huses).1 hkept⟩
    · rintro ⟨uses, huses, hkept⟩
      exact ⟨⟨uses, huses⟩, (hkept_iff huses).2 hkept⟩
  · rw [value_prune]
    rfl
  · rw [value_prune]
    rfl

/-! ## Commands and answers -/

/-- An edit of a known symbol is refused, or done, by grammar and list alike. -/
theorem withKnown_listed (g : Grammar) (s : Symbol) (change : RuleList → RuleList)
    {edit : Except Error Grammar}
    (hrefused : ∀ {e : Error}, edit = .error e ↔ s ∉ g.symbols ∧ e = .unknownSymbol s)
    (hdone : ∀ {g' : Grammar}, edit = .ok g' → g'.listed = change g.listed) :
    g.listed.withKnown s change = ((g.outcome edit).1.listed, (g.outcome edit).2) := by
  have hknown : s ∈ g.listed.symbols ↔ s ∈ g.symbols := mem_symbols_listed.trans mem_symbols.symm
  cases edit with
  | error e =>
    obtain ⟨hunknown, rfl⟩ := hrefused.1 rfl
    rw [RuleList.withKnown, if_neg (mt hknown.1 hunknown)]
    rfl
  | ok g' =>
    have hs : s ∈ g.symbols := by
      by_contra hunknown
      cases hrefused.2 ⟨hunknown, rfl⟩
    rw [RuleList.withKnown, if_pos (hknown.2 hs), ← hdone rfl]
    rfl

/-- To a command, grammar and list do the same and answer the same. -/
theorem WellFormed.respond_listed (hg : g.WellFormed) (command : Command) :
    g.listed.respond command = ((g.respond command).1.listed, (g.respond command).2) := by
  cases command with
  | add r =>
    show (if g.listed.holds r = true then _ else _) =
      ((g.addRule r).value.listed, Answer.added !g.containsRule r)
    rw [Grammar.addRule, hg.containsRule_eq_holds]
    split
    next hheld => simp [hheld]
    next hnew => simp [hnew, hg.listed_storeRule]
  | removeRule r =>
    show (if g.listed.holds r = true then _ else _) =
      ((g.outcome ((g.removeRule r).map Logged.value)).1.listed,
        (g.outcome ((g.removeRule r).map Logged.value)).2)
    rw [removeRule_eq, hg.containsRule_eq_holds]
    split
    next =>
      rw [← hg.listed_removeRule]
      rfl
    next => rfl
  | removeSymbol s =>
    refine withKnown_listed g s (·.removeSymbol s)
      (logged_eq_error_iff.trans removeSymbol_eq_error_iff) ?_
    intro g' h
    obtain ⟨l, hl, rfl⟩ := logged_eq_ok_iff.1 h
    exact hg.listed_removeSymbol hl
  | makeTerminal s =>
    refine withKnown_listed g s (·.filterRules (·.lhs != s))
      (logged_eq_error_iff.trans makeTerminal_eq_error_iff) ?_
    intro g' h
    obtain ⟨l, hl, rfl⟩ := logged_eq_ok_iff.1 h
    obtain ⟨-, rfl⟩ := makeTerminal_eq_ok_iff.1 hl
    exact hg.listed_makeTerminal s
  | prune =>
    show (g.listed.prune, Answer.pruned g.listed.unreferenced.toList) = _
    rw [← hg.listed_prune, ← hg.unreferenced_eq]
    rfl
  | setStart s =>
    refine withKnown_listed g s (fun m => { m with start := some s }) setStart_eq_error_iff ?_
    intro g' h
    obtain ⟨-, rfl⟩ := setStart_eq_ok_iff.1 h
    rfl

/-! ## Questions -/

/-- Grammar and list have the same answer to every question. -/
structure Agrees (g : Grammar) (m : RuleList) : Prop where
  numberedRules : g.numberedRules = m.rows
  ruleSet : g.ruleSet = m.ruleSet
  size : g.size = m.rows.length
  symbols : g.symbols = m.symbols.toList
  terminals : g.terminals = m.terminals.toList
  nonterminals : g.nonterminals = m.nonterminals.toList
  isTerminal : ∀ s, g.isTerminal s = m.isTerminal s
  rulesContaining : ∀ s, g.rulesContaining s = m.rulesContaining s
  containsRule : ∀ r, g.containsRule r = m.holds r
  containsSymbol : ∀ s, g.containsSymbol s = m.symbols.contains s
  startSymbol : g.startSymbol = m.startSymbol

theorem WellFormed.rulesContaining_listed (hg : g.WellFormed) (s : Symbol) :
    g.rulesContaining s = g.listed.rulesContaining s := by
  apply Std.ExtTreeSet.ext_mem
  intro r
  simp only [rulesContaining, RuleList.rulesContaining, Std.ExtTreeSet.mem_ofList,
    List.contains_iff_mem, List.mem_filterMap, List.mem_append, List.mem_filter, List.mem_map]
  constructor
  · rintro ⟨id, hid, hr⟩
    refine ⟨⟨(id, r), mem_rows_listed.2 hr, rfl⟩, ?_⟩
    rcases hid with hid | hid
    · obtain ⟨q, hq, hl⟩ := hg.mem_productions_iff.1 hid
      rw [hr, Option.some.injEq] at hq
      exact List.mem_cons.2 (Or.inl (hq ▸ hl.symm))
    · obtain ⟨q, hq, hs⟩ := hg.mem_occurrences_iff.1 hid
      rw [hr, Option.some.injEq] at hq
      exact List.mem_cons_of_mem _ (hq ▸ hs)
  · rintro ⟨⟨⟨id, q⟩, hrow, rfl⟩, hs⟩
    have hq := mem_rows_listed.1 hrow
    refine ⟨id, ?_, hq⟩
    rcases List.mem_cons.1 hs with hl | hs
    · exact Or.inl (hg.mem_productions_iff.2 ⟨q, hq, hl.symm⟩)
    · exact Or.inr (hg.mem_occurrences_iff.2 ⟨q, hq, hs⟩)

theorem Indexed.isTerminal_listed (hg : g.Indexed) (s : Symbol) :
    g.isTerminal s = g.listed.isTerminal s := by
  unfold isTerminal RuleList.isTerminal
  cases hs : g.index[s]? with
  | none =>
    rw [if_neg]
    rw [mem_symbols_listed, Index.mem_iff, hs]
    simp
  | some uses =>
    rw [if_pos (mem_symbols_listed.2 (Index.mem_iff.2 ⟨uses, hs⟩)), ← hg.isEmpty_productions hs]

/-- The oldest rule is the first of the list. -/
theorem oldestLhs_listed (g : Grammar) :
    g.oldestLhs = g.listed.rows.head?.map fun row => row.2.lhs := by
  have hkeys : g.rules.keys = g.listed.rows.map Prod.fst :=
    Std.ExtTreeMap.map_fst_toList_eq_keys.symm
  rw [oldestLhs, Std.ExtTreeMap.minKey?_eq_head?_keys, hkeys]
  cases hrows : g.listed.rows with
  | nil => rfl
  | cons row rows =>
    have hrow : g.rules[row.1]? = some row.2 := by
      apply mem_rows_listed.1
      rw [hrows]
      exact List.mem_cons_self
    simp [hrow]

theorem WellFormed.startSymbol_listed (hg : g.WellFormed) :
    g.startSymbol = g.listed.startSymbol := by
  have hchosen : g.listed.start = g.explicitStart := rfl
  unfold startSymbol RuleList.startSymbol
  rw [hchosen]
  cases hstart : g.explicitStart with
  | none => exact oldestLhs_listed g
  | some s => exact if_pos (containsSymbol_iff.2 (mem_symbols.2 (hg.start_known hstart)))

/-- A well formed grammar has the answers of its list. -/
theorem WellFormed.agrees_listed (hg : g.WellFormed) : Agrees g g.listed where
  numberedRules := rfl
  ruleSet := rfl
  size := Std.ExtTreeMap.length_toList.symm
  symbols := toList_eq (pairwise_symbols g) fun _ => mem_symbols.trans mem_symbols_listed.symm
  terminals := keys_filter_eq hg.isEmpty_productions
  nonterminals := keys_filter_eq fun hs => by rw [hg.isEmpty_productions hs, Bool.not_not]
  isTerminal := hg.isTerminal_listed
  rulesContaining := hg.rulesContaining_listed
  containsRule := hg.containsRule_eq_holds
  containsSymbol s := by
    rw [Bool.eq_iff_iff, containsSymbol_iff, mem_symbols, ← mem_symbols_listed,
      Std.ExtTreeSet.mem_iff_contains]
  startSymbol := hg.startSymbol_listed

/-! ## Conversations -/

/-- A command keeps a grammar well formed. -/
theorem WellFormed.respond (hg : g.WellFormed) (command : Command) :
    (g.respond command).1.WellFormed := by
  have hedit : ∀ e : Edit, (g.outcome (g.perform e)).1.WellFormed := by
    intro e
    cases hperform : g.perform e with
    | error _ => exact hg
    | ok g' => exact hg.perform hperform
  cases command with
  | add r => exact hg.addRule r
  | removeRule r => exact hedit _
  | removeSymbol s => exact hedit _
  | makeTerminal s => exact hedit _
  | prune => exact hg.prune
  | setStart s => exact hedit _

/-- A conversation with a well formed grammar is one with its list, and the grammar stays well
formed. -/
theorem WellFormed.answers_listed (hg : g.WellFormed) (commands : List Command) :
    (answers Grammar.respond g commands).1.WellFormed ∧
      answers RuleList.respond g.listed commands =
        ((answers Grammar.respond g commands).1.listed,
          (answers Grammar.respond g commands).2) := by
  induction commands generalizing g with
  | nil => exact ⟨hg, rfl⟩
  | cons command commands ih =>
    obtain ⟨hwf, hrest⟩ := ih (hg.respond command)
    refine ⟨hwf, ?_⟩
    simp only [answers, hg.respond_listed, hrest]

/-- Whatever commands are given, the grammar and the plain list give the same answers to them, and
afterwards they have the same answer to every question. -/
theorem answers_eq_ruleList (commands : List Command) :
    (answers Grammar.respond empty commands).2 = (answers RuleList.respond {} commands).2 ∧
      Agrees (answers Grammar.respond empty commands).1
        (answers RuleList.respond {} commands).1 := by
  have hempty : empty.listed = {} := by
    apply listed_eq <;> simp [empty, InOrder]
  obtain ⟨hwf, hanswers⟩ := empty_wellFormed.answers_listed commands
  rw [hempty] at hanswers
  rw [hanswers]
  exact ⟨rfl, hwf.agrees_listed⟩

end Grammar

end EditableGrammar
