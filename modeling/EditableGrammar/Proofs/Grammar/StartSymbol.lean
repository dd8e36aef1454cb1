import EditableGrammar.Proofs.Grammar.Chronicle
import EditableGrammar.Proofs.Recursion.Discovery

set_option autoImplicit false

/-!
# What the start symbol hangs on

Derivations start at the chosen start symbol, and without one at the left-hand side of the oldest
rule.  An edit that takes neither away does not move the start symbol, although it may erase rules
as duplicates of others: the oldest rule has the smallest number, so where it becomes equal to
another rule it is the other one that goes.

`Continues.startSymbol_eq_some` says this of any two moments of a history.  Each kind of edit need
then only be asked whether the number of the oldest rule is still in use after it.
-/

namespace EditableGrammar

/-- The edit adds rules, drops occurrences, or takes away a symbol other than `t` or the productions
of one. -/
def Edit.Spares (t : Symbol) : Edit → Prop
  | .add _ => True
  | .extend _ => True
  | .removeRule _ => False
  | .removeSymbol s => s ≠ t
  | .makeTerminal s => s ≠ t
  | .prune => True
  | .setStart _ => False
  | .cutLoops _ => True
  | .withoutLoops => True
  | .load _ _ _ => False

namespace Grammar

variable {g h : Grammar} {added : List Rule} {s t : Symbol}

/-- The start symbol is the chosen one, else the left-hand side of the oldest rule. -/
theorem WellFormed.startSymbol_eq (hg : g.WellFormed) :
    g.startSymbol = g.explicitStart.or g.oldestLhs := by
  unfold startSymbol
  cases hchosen : g.explicitStart with
  | none => rfl
  | some s => exact if_pos (containsSymbol_iff.2 (mem_symbols.2 (hg.start_known hchosen)))

theorem oldestLhs_eq_none_iff : g.oldestLhs = none ↔ ∀ id : RuleId, g.rules[id]? = none := by
  constructor
  · intro hnone id
    by_contra hid
    obtain ⟨r, hr⟩ := Option.ne_none_iff_exists'.1 hid
    have hmin : g.rules.minKey? ≠ none := by
      rw [ne_eq, Std.ExtTreeMap.minKey?_eq_none_iff]
      rintro hempty
      rw [hempty] at hr
      simp at hr
    obtain ⟨k, hk⟩ := Option.ne_none_iff_exists'.1 hmin
    obtain ⟨q, hq⟩ := mem_rules_iff.1 (Std.ExtTreeMap.minKey?_mem hk)
    simp [oldestLhs, hk, hq] at hnone
  · intro hempty
    rw [Option.eq_none_iff_forall_ne_some]
    intro s hs
    obtain ⟨id, r, hr, -⟩ := oldestLhs_eq_some_iff.1 hs
    rw [hempty id] at hr
    cases hr

/-! ## Between two moments of a history -/

/-- The start symbol stays if the same one is chosen and, where none is, the number of the oldest
rule stays in use. -/
theorem Continues.startSymbol_eq_some (hgh : Continues g added h) (hg : g.WellFormed)
    (hh : h.WellFormed) (hchosen : h.explicitStart = g.explicitStart)
    (holdest : ∀ {id : RuleId} {r : Rule}, g.rules[id]? = some r → r.lhs = t →
      (∀ j ∈ g.rules, id ≤ j) → id ∈ h.rules)
    (ht : g.startSymbol = some t) : h.startSymbol = some t := by
  rw [hg.startSymbol_eq] at ht
  rw [hh.startSymbol_eq, hchosen]
  cases hstart : g.explicitStart with
  | some s => rwa [hstart] at ht
  | none =>
    rw [hstart, Option.none_or, oldestLhs_eq_some_iff] at ht
    obtain ⟨id, r, hr, hlhs, hfirst⟩ := ht
    obtain ⟨q, hq⟩ := mem_rules_iff.1 (holdest hr hlhs hfirst)
    have hid : id < g.nextId := hg.bounded hr
    obtain ⟨r', hr', hqr⟩ := hgh.of_lt hid hq
    rw [hr, Option.some.injEq] at hr'
    subst hr'
    rw [Option.none_or, oldestLhs_eq_some_iff]
    refine ⟨id, q, hq, hqr.lhs_eq.trans hlhs, ?_⟩
    -- a number in use is an old one or a new one, and the new ones are all greater
    intro j hj
    obtain ⟨p, hp⟩ := mem_rules_iff.1 hj
    by_cases hold : j < g.nextId
    · obtain ⟨p', hp', -⟩ := hgh.of_lt hold hp
      exact hfirst j (mem_rules_iff.2 ⟨p', hp'⟩)
    · exact Nat.le_of_lt (Nat.lt_of_lt_of_le hid (Nat.not_lt.1 hold))

/-- Where nothing is added, nothing comes to be the start symbol of a grammar that has none. -/
theorem Continues.startSymbol_eq_none (hgh : Continues g [] h) (hg : g.WellFormed)
    (hh : h.WellFormed) (hchosen : h.explicitStart = g.explicitStart)
    (hnone : g.startSymbol = none) : h.startSymbol = none := by
  rw [hg.startSymbol_eq, Option.or_eq_none_iff] at hnone
  obtain ⟨hstart, hempty⟩ := hnone
  rw [hh.startSymbol_eq, hchosen, hstart, Option.none_or, oldestLhs_eq_none_iff]
  intro id
  rw [Option.eq_none_iff_forall_ne_some]
  intro q hq
  rcases hgh.origin hq with ⟨r, hr, -⟩ | ⟨i, r, -, hr, -⟩
  · rw [oldestLhs_eq_none_iff.1 hempty id] at hr
    cases hr
  · cases hr

/-! ## One edit -/

theorem WellFormed.startSymbol_addRule (hg : g.WellFormed) (r : Rule)
    (ht : g.startSymbol = some t) : (g.addRule r).value.startSymbol = some t := by
  have hadded := hg.addRule r
  cases hheld : g.containsRule r with
  | true =>
    have hsame : (g.addRule r).value = g := by
      simp [Grammar.addRule, hheld]
    rwa [hsame]
  | false =>
    have hstored : (g.addRule r).value = g.storeRule r := by
      simp [Grammar.addRule, hheld]
    rw [hstored] at hadded ⊢
    refine (continues_storeRule g r).startSymbol_eq_some hg hadded rfl ?_ ht
    intro id q hq _ _
    rw [mem_rules_iff]
    exact ⟨q, by rw [rules_storeRule, if_neg (Nat.ne_of_gt (hg.bounded hq)), hq]⟩

theorem WellFormed.startSymbol_extend (hg : g.WellFormed) (rules : List Rule)
    (ht : g.startSymbol = some t) : (g.extend rules).value.startSymbol = some t := by
  unfold Grammar.extend
  rw [Logged.value_foldl]
  induction rules generalizing g with
  | nil => exact ht
  | cons r rules ih => exact ih (hg.addRule r) (hg.startSymbol_addRule r ht)

theorem WellFormed.startSymbol_eraseProductions (hg : g.WellFormed)
    (hs : g.startSymbol ≠ some s) :
    (g.eraseRules (g.productions s)).value.startSymbol = g.startSymbol := by
  have hcontinues := continues_eraseRules g (g.productions s)
  have hcleared := hg.eraseRules (g.productions s)
  have hchosen := explicitStart_eraseRules g (g.productions s)
  cases ht : g.startSymbol with
  | none => exact hcontinues.startSymbol_eq_none hg hcleared hchosen ht
  | some t =>
    refine hcontinues.startSymbol_eq_some hg hcleared hchosen ?_ ht
    rintro id r hr rfl -
    have hlhs : r.lhs ≠ s := by
      rintro rfl
      exact hs ht
    exact mem_rules_iff.2 ⟨r, hg.rules_eraseProductions.2 ⟨hr, hlhs⟩⟩

theorem WellFormed.startSymbol_removeSymbol (hg : g.WellFormed) {l : Logged Grammar}
    (hl : g.removeSymbol s = .ok l) (hs : g.startSymbol ≠ some s) :
    l.value.startSymbol = g.startSymbol := by
  have hcontinues := hg.continues_removeSymbol hl
  have hremoved := hg.removeSymbol hl
  have hchosen : l.value.explicitStart = g.explicitStart := by
    rw [explicitStart_removeSymbol hl, if_neg]
    intro hstart
    rw [hg.startSymbol_eq, hstart] at hs
    exact hs rfl
  cases ht : g.startSymbol with
  | none => exact hcontinues.startSymbol_eq_none hg hremoved hchosen ht
  | some t =>
    refine hcontinues.startSymbol_eq_some hg hremoved hchosen ?_ ht
    rintro id r hr rfl hfirst
    have hlhs : r.lhs ≠ s := by
      rintro rfl
      exact hs ht
    refine mem_rules_iff.2 ⟨r.without s, (hg.rules_removeSymbol hl).2 ⟨⟨r, hr, hlhs, rfl⟩, ?_⟩⟩
    intro j q hq _ _
    exact hfirst j (mem_rules_iff.2 ⟨q, hq⟩)

theorem WellFormed.startSymbol_prune (hg : g.WellFormed) :
    g.prune.value.startSymbol = g.startSymbol := by
  rw [hg.prune.startSymbol_eq, hg.startSymbol_eq, value_prune]
  rfl

@[simp] theorem explicitStart_cutLoops (g : Grammar) (root : Symbol) :
    (g.cutLoops root).value.explicitStart = g.explicitStart := by
  rw [value_cutLoops]
  induction g.loopCuts root generalizing g with
  | nil => rfl
  | cons c cuts ih => rw [List.foldl_cons, ih, explicitStart_changeRhs]

theorem WellFormed.startSymbol_cutLoops (hg : g.WellFormed) (root : Symbol)
    (ht : g.startSymbol = some t) : (g.cutLoops root).value.startSymbol = some t := by
  refine (hg.continues_cutLoops root).startSymbol_eq_some hg (hg.cutLoops root)
    (explicitStart_cutLoops g root) ?_ ht
  intro id r hr _ hfirst
  refine mem_rules_iff.2 ⟨_, (hg.rules_cutLoops_iff root).2 ⟨⟨r, hr, rfl⟩, ?_⟩⟩
  intro j q hq _
  exact hfirst j (mem_rules_iff.2 ⟨q, hq⟩)

/-- Without loops the start symbol is the same, and it is chosen. -/
theorem WellFormed.startSymbol_withoutLoops (hg : g.WellFormed) (ht : g.startSymbol = some t) :
    g.withoutLoops.value.startSymbol = some t ∧ g.withoutLoops.value.explicitStart = some t := by
  have hchosen : g.withoutLoops.value.explicitStart = some t := by
    simp [Grammar.withoutLoops, ht]
  refine ⟨?_, hchosen⟩
  rw [hg.withoutLoops.startSymbol_eq, hchosen]
  rfl

/-! ## Many edits -/

/-- An edit that spares the start symbol leaves it where it is. -/
theorem WellFormed.startSymbol_perform (hg : g.WellFormed) {e : Edit} (he : e.Spares t)
    (hperform : g.perform e = .ok h) (ht : g.startSymbol = some t) : h.startSymbol = some t := by
  have hother : ∀ {s : Symbol}, s ≠ t → g.startSymbol ≠ some s := by
    intro s hne hs
    exact hne (Option.some.inj (hs.symm.trans ht))
  cases e with
  | add r =>
    cases hperform
    exact hg.startSymbol_addRule r ht
  | extend rules =>
    cases hperform
    exact hg.startSymbol_extend rules ht
  | removeRule r => exact he.elim
  | removeSymbol s =>
    obtain ⟨l, hl, rfl⟩ := logged_eq_ok_iff.1 hperform
    rw [hg.startSymbol_removeSymbol hl (hother he), ht]
  | makeTerminal s =>
    obtain ⟨l, hl, rfl⟩ := logged_eq_ok_iff.1 hperform
    obtain ⟨-, rfl⟩ := makeTerminal_eq_ok_iff.1 hl
    rw [hg.startSymbol_eraseProductions (hother he), ht]
  | prune =>
    cases hperform
    rw [hg.startSymbol_prune, ht]
  | setStart s => exact he.elim
  | cutLoops s =>
    cases hperform
    exact hg.startSymbol_cutLoops s ht
  | withoutLoops =>
    cases hperform
    exact (hg.startSymbol_withoutLoops ht).1
  | load host toolPath path => exact he.elim

theorem WellFormed.startSymbol_after (hg : g.WellFormed) {e : Edit} (he : e.Spares t)
    (ht : g.startSymbol = some t) : (g.after e).startSymbol = some t := by
  unfold Grammar.after
  split
  next hperform => exact hg.startSymbol_perform he hperform ht
  next => exact ht

theorem WellFormed.startSymbol_foldl_after (hg : g.WellFormed) {edits : List Edit}
    (hspares : ∀ e ∈ edits, e.Spares t) (ht : g.startSymbol = some t) :
    (edits.foldl Grammar.after g).startSymbol = some t := by
  induction edits generalizing g with
  | nil => exact ht
  | cons e edits ih =>
    refine ih (hg.after e) ?_ (hg.startSymbol_after (hspares e List.mem_cons_self) ht)
    intro e' he'
    exact hspares e' (List.mem_cons_of_mem _ he')

/-- Edits that only drop occurrences, and edits that add rules, never move the start symbol, whether
it was chosen or not; nor do any number of them.  The copy without loops has it chosen. -/
theorem ofHistory_startSymbol_stays (edits : List Edit) (t : Symbol)
    (ht : (ofHistory edits).startSymbol = some t) :
    (∀ s ∈ (ofHistory edits).symbols, s ≠ t →
      (∃ g, (ofHistory edits).perform (.removeSymbol s) = .ok g ∧ g.startSymbol = some t) ∧
        ∃ g, (ofHistory edits).perform (.makeTerminal s) = .ok g ∧ g.startSymbol = some t) ∧
      (ofHistory edits).prune.value.startSymbol = some t ∧
      (∀ r, ((ofHistory edits).addRule r).value.startSymbol = some t) ∧
      (∀ rules, ((ofHistory edits).extend rules).value.startSymbol = some t) ∧
      (∀ root, ((ofHistory edits).cutLoops root).value.startSymbol = some t) ∧
      (ofHistory edits).withoutLoops.value.startSymbol = some t ∧
      (ofHistory edits).withoutLoops.value.explicitStart = some t ∧
      ∀ later : List Edit, (∀ e ∈ later, e.Spares t) →
        (ofHistory (edits ++ later)).startSymbol = some t := by
  have hg := ofHistory_wellFormed edits
  obtain ⟨hstays, hchosen⟩ := hg.startSymbol_withoutLoops ht
  refine ⟨?_, ?_, ?_, ?_, ?_, hstays, hchosen, ?_⟩
  · intro s hs hne
    obtain ⟨l, -, hremoved⟩ := perform_removeSymbol hs
    have hterminal := perform_makeTerminal hs
    exact ⟨⟨_, hremoved, hg.startSymbol_perform (e := .removeSymbol s) hne hremoved ht⟩,
      _, hterminal, hg.startSymbol_perform (e := .makeTerminal s) hne hterminal ht⟩
  · rw [hg.startSymbol_prune, ht]
  · intro r
    exact hg.startSymbol_addRule r ht
  · intro rules
    exact hg.startSymbol_extend rules ht
  · intro root
    exact hg.startSymbol_cutLoops root ht
  · intro later hspares
    rw [ofHistory_append]
    exact hg.startSymbol_foldl_after hspares ht

/-- The oldest rule becomes equal to a younger one when `c` is removed, and to another one when the
loop of `a` is cut.  Between these rules there is one of another symbol. -/
def mergingEdits : List Edit :=
  [.extend [⟨"a", ["b", "c"]⟩, ⟨"z", ["q"]⟩, ⟨"a", ["b"]⟩, ⟨"a", ["b", "a"]⟩]]

theorem ofHistory_startSymbol_stays_merging :
    (ofHistory mergingEdits).startSymbol = some "a" ∧
      "c" ∈ (ofHistory mergingEdits).symbols ∧
      (∃ g, (ofHistory mergingEdits).perform (.removeSymbol "c") = .ok g ∧
        g.startSymbol = some "a") ∧
      (ofHistory (mergingEdits ++
        [.removeSymbol "c", .cutLoops "a", .add ⟨"s", ["a"]⟩])).startSymbol = some "a" := by
  have hstart : (ofHistory mergingEdits).startSymbol = some "a" := by cbv
  have hknown : "c" ∈ (ofHistory mergingEdits).symbols := by
    have hsymbols : (ofHistory mergingEdits).symbols = ["a", "b", "c", "q", "z"] := by cbv
    rw [hsymbols]
    decide
  obtain ⟨hone, -, -, -, -, -, -, hmany⟩ := ofHistory_startSymbol_stays mergingEdits "a" hstart
  exact ⟨hstart, hknown, (hone "c" hknown (by decide)).1, hmany _ (by simp [Edit.Spares])⟩

end Grammar

end EditableGrammar
