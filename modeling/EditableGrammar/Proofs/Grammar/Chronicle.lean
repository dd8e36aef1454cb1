import EditableGrammar.Proofs.Grammar.History
import EditableGrammar.Proofs.Grammar.Removal

set_option autoImplicit false

/-!
# Numbers tell the history

The chronicle of some edits is the list of all rules they added, in order; a rule that was removed
and added again stands in it twice.  The number of a rule is its place in the chronicle: numbers are
given out in order, and what is stored under one is the rule of that place, or what is left of it
when symbols were dropped from its right-hand side.

`Continues` is that statement about two moments of a history.  It holds across every single edit and
may be composed, so it holds across any number of them.  With the empty grammar as the first moment
it says how the stored rules stand in the chronicle.
-/

namespace EditableGrammar

namespace Rule

/-- `q` is `r` with symbols dropped from its right-hand side, or `r` itself. -/
structure Shortens (q r : Rule) : Prop where
  lhs_eq : q.lhs = r.lhs
  sublist : q.rhs.Sublist r.rhs

theorem Shortens.refl (r : Rule) : r.Shortens r := ⟨rfl, .refl _⟩

theorem Shortens.trans {p q r : Rule} (h : p.Shortens q) (h' : q.Shortens r) : p.Shortens r :=
  ⟨h.lhs_eq.trans h'.lhs_eq, h.sublist.trans h'.sublist⟩

theorem shortens_without (s : Symbol) (r : Rule) : (r.without s).Shortens r :=
  ⟨rfl, List.filter_sublist⟩

end Rule

namespace Grammar

/-! ## The chronicle -/

/-- The rules that an edit brings, be they new or not. -/
def brought (g : Grammar) : Edit → List Rule
  | .add r => [r]
  | .extend rules => rules
  | .load host toolPath path =>
    match (g.loadReport host toolPath path).value, (host.readRules .report toolPath path).value with
    | .ok _, .ok rules => rules
    | _, _ => []
  | _ => []

/-- The rules that are new when an edit brings them, in order. -/
def newcomers (g : Grammar) (e : Edit) : List Rule := Rule.unmet g.ruleSet (g.brought e)

/-- All rules that some edits add, in order. -/
def chronicle (g : Grammar) : List Edit → List Rule
  | [] => []
  | e :: edits => g.newcomers e ++ (g.after e).chronicle edits

theorem chronicle_append (g : Grammar) (edits later : List Edit) :
    g.chronicle (edits ++ later) =
      g.chronicle edits ++ (edits.foldl after g).chronicle later := by
  induction edits generalizing g with
  | nil => rfl
  | cons e edits ih => rw [List.cons_append, chronicle, ih, ← List.append_assoc]; rfl

/-! ## From one moment to a later one -/

/-- `h` comes after `g`, and `added` are the rules that were added between them. -/
structure Continues (g : Grammar) (added : List Rule) (h : Grammar) : Prop where
  /-- every rule added took a number -/
  nextId_eq : h.nextId = g.nextId + added.length
  /-- what is stored later was stored before under the same number, or added under it -/
  origin : ∀ {id : RuleId} {q : Rule}, h.rules[id]? = some q →
    (∃ r, g.rules[id]? = some r ∧ q.Shortens r) ∨
      ∃ i r, id = g.nextId + i ∧ added[i]? = some r ∧ q.Shortens r

namespace Continues

variable {g h k : Grammar} {added added' : List Rule}

/-- Nothing is added where the stored rules are the old ones, or what is left of them. -/
theorem of_shortens (hnext : h.nextId = g.nextId)
    (hrules : ∀ {id : RuleId} {q : Rule}, h.rules[id]? = some q →
      ∃ r, g.rules[id]? = some r ∧ q.Shortens r) : Continues g [] h :=
  ⟨hnext, fun hq => Or.inl (hrules hq)⟩

theorem of_rules_eq (hnext : h.nextId = g.nextId) (hrules : h.rules = g.rules) :
    Continues g [] h :=
  of_shortens hnext fun hq => ⟨_, hrules ▸ hq, .refl _⟩

theorem refl (g : Grammar) : Continues g [] g := of_rules_eq rfl rfl

theorem trans (h₁ : Continues g added h) (h₂ : Continues h added' k) :
    Continues g (added ++ added') k := by
  constructor
  · rw [h₂.nextId_eq, h₁.nextId_eq, List.length_append, Nat.add_assoc]
  · intro id p hp
    rcases h₂.origin hp with ⟨q, hq, hpq⟩ | ⟨i, q, rfl, hq, hpq⟩
    · rcases h₁.origin hq with ⟨r, hr, hqr⟩ | ⟨i, r, hid, hr, hqr⟩
      · exact Or.inl ⟨r, hr, hpq.trans hqr⟩
      · refine Or.inr ⟨i, r, hid, ?_, hpq.trans hqr⟩
        rw [List.getElem?_append_left (List.getElem?_eq_some_iff.1 hr).1, hr]
    · refine Or.inr ⟨added.length + i, q, ?_, ?_, hpq⟩
      · rw [h₁.nextId_eq, Nat.add_assoc]
      · rw [List.getElem?_append_right (Nat.le_add_right _ _), Nat.add_sub_cancel_left, hq]

/-- A number below the next one is not given out again. -/
theorem of_lt (hgh : Continues g added h) {id : RuleId} {q : Rule} (hid : id < g.nextId)
    (hq : h.rules[id]? = some q) : ∃ r, g.rules[id]? = some r ∧ q.Shortens r := by
  rcases hgh.origin hq with hold | ⟨i, r, rfl, -, -⟩
  · exact hold
  · exact absurd hid (Nat.not_lt.2 (Nat.le_add_right _ _))

end Continues

/-! ## Every edit continues the history -/

section Edits

variable {g : Grammar}

theorem continues_storeRule (g : Grammar) (r : Rule) : Continues g [r] (g.storeRule r) := by
  refine ⟨rfl, ?_⟩
  intro id q hq
  rw [rules_storeRule] at hq
  split at hq
  next hid => exact Or.inr ⟨0, r, hid.symm, rfl, Option.some.inj hq ▸ .refl r⟩
  next => exact Or.inl ⟨q, hq, .refl q⟩

theorem ruleSet_addRule (hg : g.WellFormed) (r : Rule) :
    (g.addRule r).value.ruleSet = g.ruleSet.insert r := by
  apply Std.ExtTreeSet.ext_mem
  intro q
  rw [hg.mem_ruleSet_addRule, Std.ExtTreeSet.mem_insert, Std.compare_eq_iff_eq, @eq_comm _ q]

/-- Adding rules adds those that are new when it is their turn. -/
theorem WellFormed.continues_extend (hg : g.WellFormed) (rules : List Rule) :
    Continues g (Rule.unmet g.ruleSet rules) (g.extend rules).value := by
  rw [Grammar.extend, Logged.value_foldl]
  induction rules generalizing g with
  | nil => exact .refl g
  | cons r rules ih =>
    have hrest := ih (hg.addRule r)
    have hcontains : g.ruleSet.contains r = g.containsRule r := by
      rw [Bool.eq_iff_iff, Std.ExtTreeSet.contains_iff_mem, mem_ruleSet, hg.containsRule_iff]
    rw [List.foldl_cons, Rule.unmet, hcontains]
    cases hheld : g.containsRule r with
    | true =>
      have hsame : (g.addRule r).value = g := by
        simp [Grammar.addRule, hheld]
      rw [hsame] at hrest ⊢
      exact hrest
    | false =>
      have hstored : (g.addRule r).value = g.storeRule r := by
        simp [Grammar.addRule, hheld]
      rw [ruleSet_addRule hg, hstored] at hrest
      rw [hstored]
      exact (continues_storeRule g r).trans hrest

theorem continues_eraseRules (g : Grammar) (ids : List RuleId) :
    Continues g [] (g.eraseRules ids).value := by
  refine .of_shortens (nextId_eraseRules g ids) ?_
  intro id q hq
  rw [rules_eraseRules] at hq
  split at hq
  next => cases hq
  next => exact ⟨q, hq, .refl q⟩

theorem WellFormed.continues_removeSymbol (hg : g.WellFormed) {s : Symbol} {l : Logged Grammar}
    (hl : g.removeSymbol s = .ok l) : Continues g [] l.value := by
  refine .of_shortens (nextId_removeSymbol hl) ?_
  intro id q hq
  obtain ⟨⟨r, hr, -, rfl⟩, -⟩ := (hg.rules_removeSymbol hl).1 hq
  exact ⟨r, hr, Rule.shortens_without s r⟩

theorem continues_setStart {g' : Grammar} {s : Symbol} (h : g.setStart s = .ok g') :
    Continues g [] g' := by
  obtain ⟨-, rfl⟩ := setStart_eq_ok_iff.1 h
  exact .of_rules_eq rfl rfl

theorem nextId_cutLoops (g : Grammar) (root : Symbol) :
    (g.cutLoops root).value.nextId = g.nextId := by
  rw [value_cutLoops]
  induction g.loopCuts root generalizing g with
  | nil => rfl
  | cons c cuts ih => rw [List.foldl_cons, ih, nextId_changeRhs]

theorem WellFormed.continues_cutLoops (hg : g.WellFormed) (root : Symbol) :
    Continues g [] (g.cutLoops root).value := by
  refine .of_shortens (nextId_cutLoops g root) ?_
  intro id q hq
  obtain ⟨r, hr, rfl⟩ := (hg.cutLoops_leaves_paths root).rule_left hq
  exact ⟨r, hr, rfl, List.filter_sublist⟩

theorem WellFormed.continues_withoutLoops (hg : g.WellFormed) :
    Continues g [] g.withoutLoops.value := by
  unfold Grammar.withoutLoops
  cases hstart : g.startSymbol with
  | none => exact .refl g
  | some s =>
    have hchosen := hg.startAt (hg.startSymbol_known hstart)
    have hstarted : Continues g [] { g with explicitStart := some s } := .of_rules_eq rfl rfl
    exact hstarted.trans (hchosen.continues_cutLoops s)

theorem WellFormed.continues_adoptReport (hg : g.WellFormed) {rules : List Rule} {g' : Grammar}
    (h : (g.adoptReport rules).value = .ok g') :
    Continues g (Rule.unmet g.ruleSet rules) g' := by
  obtain ⟨l, hremove, hstart⟩ := adoptReport_eq_ok_iff.1 h
  have hremoved := (hg.extend rules).continues_removeSymbol hremove
  have hall := (hg.continues_extend rules).trans (hremoved.trans (continues_setStart hstart))
  rwa [List.append_nil, List.append_nil] at hall

/-- An edit that goes through adds its newcomers. -/
theorem WellFormed.continues_perform (hg : g.WellFormed) {e : Edit} {g' : Grammar}
    (h : g.perform e = .ok g') : Continues g (g.newcomers e) g' := by
  cases e with
  | add r =>
    cases h
    exact hg.continues_extend [r]
  | extend rules =>
    cases h
    exact hg.continues_extend rules
  | removeRule r =>
    obtain ⟨l, hl, rfl⟩ := logged_eq_ok_iff.1 h
    unfold Grammar.removeRule at hl
    split at hl
    next => cases hl
    next =>
      cases hl
      exact continues_eraseRules g _
  | removeSymbol s =>
    obtain ⟨l, hl, rfl⟩ := logged_eq_ok_iff.1 h
    exact hg.continues_removeSymbol hl
  | makeTerminal s =>
    obtain ⟨l, hl, rfl⟩ := logged_eq_ok_iff.1 h
    obtain ⟨-, rfl⟩ := makeTerminal_eq_ok_iff.1 hl
    exact continues_eraseRules g _
  | prune =>
    cases h
    rw [value_prune]
    exact .of_rules_eq rfl rfl
  | setStart s => exact continues_setStart h
  | cutLoops s =>
    cases h
    exact hg.continues_cutLoops s
  | withoutLoops =>
    cases h
    exact hg.continues_withoutLoops
  | load host toolPath path =>
    have hload : (g.loadReport host toolPath path).value = .ok g' := h
    obtain ⟨rules, hread, hadopt⟩ := loadReport_eq_ok hload
    have hbrought : g.brought (.load host toolPath path) = rules := by
      simp [brought, hload, hread]
    rw [newcomers, hbrought]
    exact hg.continues_adoptReport hadopt

/-- A refused edit brings nothing. -/
theorem newcomers_of_refused {e : Edit} {error : Error} (h : g.perform e = .error error) :
    g.newcomers e = [] := by
  cases e with
  | add r => cases h
  | extend rules => cases h
  | load host toolPath path =>
    have hload : (g.loadReport host toolPath path).value = .error error := h
    simp [newcomers, brought, hload, Rule.unmet]
  | _ => rfl

/-- An edit adds its newcomers, whether it goes through or not. -/
theorem WellFormed.continues_after (hg : g.WellFormed) (e : Edit) :
    Continues g (g.newcomers e) (g.after e) := by
  unfold Grammar.after
  split
  next h => exact hg.continues_perform h
  next h =>
    rw [newcomers_of_refused h]
    exact .refl g

/-- A chain of edits adds its chronicle. -/
theorem WellFormed.continues_foldl_after (hg : g.WellFormed) (edits : List Edit) :
    Continues g (g.chronicle edits) (edits.foldl Grammar.after g) := by
  induction edits generalizing g with
  | nil => exact .refl g
  | cons e edits ih => exact (hg.continues_after e).trans (ih (hg.after e))

end Edits

/-! ## Whole histories -/

theorem ofHistory_append (edits later : List Edit) :
    ofHistory (edits ++ later) = later.foldl after (ofHistory edits) :=
  List.foldl_append

/-- Between two moments of a history the chronicle of the edits between them is added. -/
theorem continues_ofHistory (edits later : List Edit) :
    Continues (ofHistory edits) ((ofHistory edits).chronicle later)
      (ofHistory (edits ++ later)) := by
  rw [ofHistory_append]
  exact (ofHistory_wellFormed edits).continues_foldl_after later

/-- What is stored under a number is what is left of the rule at that place of the chronicle. -/
theorem ofHistory_shortens_chronicle {edits : List Edit} {id : RuleId} {q : Rule}
    (hq : (ofHistory edits).rules[id]? = some q) :
    ∃ r, (empty.chronicle edits)[id]? = some r ∧ q.Shortens r := by
  rcases (empty_wellFormed.continues_foldl_after edits).origin hq with
    ⟨r, hr, -⟩ | ⟨i, r, hid, hr, hqr⟩
  · simp [empty] at hr
  · have hzero : empty.nextId = 0 := rfl
    rw [hzero, Nat.zero_add] at hid
    exact ⟨r, hid ▸ hr, hqr⟩

theorem mem_rules_iff {g : Grammar} {id : RuleId} :
    id ∈ g.rules ↔ ∃ r, g.rules[id]? = some r := by
  rw [Std.ExtTreeMap.mem_iff_isSome_getElem?, Option.isSome_iff_exists]

theorem oldestLhs_eq_some_iff {g : Grammar} {s : Symbol} :
    g.oldestLhs = some s ↔
      ∃ id r, g.rules[id]? = some r ∧ r.lhs = s ∧ ∀ j ∈ g.rules, id ≤ j := by
  simp only [oldestLhs, Option.bind_eq_some_iff, Option.map_eq_some_iff,
    Std.ExtTreeMap.minKey?_eq_some_iff_mem_and_forall, Nat.isLE_compare]
  constructor
  · rintro ⟨id, ⟨-, holdest⟩, r, hr, hlhs⟩
    exact ⟨id, r, hr, hlhs, holdest⟩
  · rintro ⟨id, r, hr, hlhs, holdest⟩
    exact ⟨id, ⟨mem_rules_iff.2 ⟨r, hr⟩, holdest⟩, r, hr, hlhs⟩

/-- Where no start symbol was chosen, derivations start at the left-hand side of the rule that was
added first of those still there. -/
theorem startSymbol_eq_first_added {edits : List Edit}
    (hnone : (ofHistory edits).explicitStart = none) {s : Symbol} :
    (ofHistory edits).startSymbol = some s ↔
      ∃ id r, (empty.chronicle edits)[id]? = some r ∧ r.lhs = s ∧ id ∈ (ofHistory edits).rules ∧
        ∀ j ∈ (ofHistory edits).rules, id ≤ j := by
  have hstart : (ofHistory edits).startSymbol = (ofHistory edits).oldestLhs := by
    rw [startSymbol, hnone]
  rw [hstart, oldestLhs_eq_some_iff]
  constructor
  · rintro ⟨id, q, hq, hlhs, holdest⟩
    obtain ⟨r, hr, hqr⟩ := ofHistory_shortens_chronicle hq
    exact ⟨id, r, hr, hqr.lhs_eq ▸ hlhs, mem_rules_iff.2 ⟨q, hq⟩, holdest⟩
  · rintro ⟨id, r, hr, hlhs, hid, holdest⟩
    obtain ⟨q, hq⟩ := mem_rules_iff.1 hid
    obtain ⟨r', hr', hqr⟩ := ofHistory_shortens_chronicle hq
    rw [hr, Option.some.injEq] at hr'
    subst hr'
    exact ⟨id, q, hq, hqr.lhs_eq.trans hlhs, holdest⟩

/-- Numbers are places in the chronicle, which is only ever appended to.  From one moment to a later
one a number keeps its left-hand side, and its right-hand side is at most shortened; a number that
is gone does not come back, and a number that is new is greater than all that were ever stored.  The
first rule of the chronicle that is still there is the default start. -/
theorem ofHistory_numbers_follow_chronicle (edits later latest : List Edit) :
    (ofHistory edits).nextId = (empty.chronicle edits).length ∧
      empty.chronicle edits <+: empty.chronicle (edits ++ later) ∧
      (∀ (id : RuleId) (q : Rule), (ofHistory edits).rules[id]? = some q →
        ∃ r, (empty.chronicle edits)[id]? = some r ∧ q.Shortens r) ∧
      (∀ (id : RuleId) (r q : Rule), (ofHistory edits).rules[id]? = some r →
        (ofHistory (edits ++ later)).rules[id]? = some q → q.Shortens r) ∧
      (∀ id ∈ (ofHistory edits).rules, id ∉ (ofHistory (edits ++ later)).rules →
        id ∉ (ofHistory (edits ++ later ++ latest)).rules) ∧
      (∀ id ∈ (ofHistory (edits ++ later ++ latest)).rules,
        id ∉ (ofHistory (edits ++ later)).rules → ∀ j ∈ (ofHistory edits).rules, j < id) ∧
      ((ofHistory edits).explicitStart = none → ∀ s, (ofHistory edits).startSymbol = some s ↔
        ∃ id r, (empty.chronicle edits)[id]? = some r ∧ r.lhs = s ∧ id ∈ (ofHistory edits).rules ∧
          ∀ j ∈ (ofHistory edits).rules, id ≤ j) := by
  have hlater := continues_ofHistory edits later
  have hlatest := continues_ofHistory (edits ++ later) latest
  have hwf := ofHistory_wellFormed edits
  -- a number stored once is below the next one from then on, and so is not given out again
  have hbelow : ∀ id ∈ (ofHistory edits).rules, id < (ofHistory (edits ++ later)).nextId := by
    intro id hid
    obtain ⟨r, hr⟩ := mem_rules_iff.1 hid
    rw [hlater.nextId_eq]
    exact Nat.lt_of_lt_of_le (hwf.bounded hr) (Nat.le_add_right _ _)
  refine ⟨?_, ?_, ?_, ?_, ?_, ?_, ?_⟩
  · have hnext := (empty_wellFormed.continues_foldl_after edits).nextId_eq
    exact hnext.trans (Nat.zero_add _)
  · rw [chronicle_append]
    exact List.prefix_append _ _
  · intro id q hq
    exact ofHistory_shortens_chronicle hq
  · intro id r q hr hq
    obtain ⟨r', hr', hqr⟩ := hlater.of_lt (hwf.bounded hr) hq
    rw [hr, Option.some.injEq] at hr'
    exact hr' ▸ hqr
  · intro id hid hgone hback
    obtain ⟨q, hq⟩ := mem_rules_iff.1 hback
    obtain ⟨r, hr, -⟩ := hlatest.of_lt (hbelow id hid) hq
    exact hgone (mem_rules_iff.2 ⟨r, hr⟩)
  · intro id hid hnew j hj
    obtain ⟨q, hq⟩ := mem_rules_iff.1 hid
    refine Nat.lt_of_lt_of_le (hbelow j hj) (Nat.not_lt.1 fun hlt => hnew ?_)
    obtain ⟨r, hr, -⟩ := hlatest.of_lt hlt hq
    exact mem_rules_iff.2 ⟨r, hr⟩
  · intro hnone s
    exact startSymbol_eq_first_added hnone

end Grammar

end EditableGrammar
