import EditableGrammar.Proofs.Grammar.Merging

set_option autoImplicit false

/-!
# What removing a symbol leaves

A symbol is struck from one rule after the other, and rules that become equal are merged on the
way.  `Thinned` holds at every moment: it is `Merged` for the rules without the symbol.  In the end
no rule mentions the symbol any more, so of all rules that come to the same the oldest is there, and
no other (`WellFormed.rules_removeSymbol`).
-/

namespace EditableGrammar

namespace Rule

/-- The rule with all occurrences of `s` dropped from its right-hand side. -/
def without (s : Symbol) (r : Rule) : Rule := ⟨r.lhs, r.rhs.filter (· != s)⟩

@[simp] theorem lhs_without (s : Symbol) (r : Rule) : (r.without s).lhs = r.lhs := rfl

theorem mem_rhs_without {s x : Symbol} {r : Rule} :
    x ∈ (r.without s).rhs ↔ x ∈ r.rhs ∧ x ≠ s := by
  simp [without]

theorem without_eq_self {s : Symbol} {r : Rule} (h : s ∉ r.rhs) : r.without s = r := by
  have hall : r.rhs.filter (· != s) = r.rhs := by
    rw [List.filter_eq_self]
    intro x hx
    rw [bne_iff_ne]
    rintro rfl
    exact h hx
  rw [without, hall]

@[simp] theorem without_without (s : Symbol) (r : Rule) :
    (r.without s).without s = r.without s :=
  without_eq_self fun h => (mem_rhs_without.1 h).2 rfl

end Rule

namespace Grammar

variable {g h : Grammar} {s : Symbol} {id : RuleId}

/-! ## Removing the productions -/

/-- The rules that stay when a symbol loses its productions. -/
theorem Indexed.rules_eraseProductions (hg : g.Indexed) {r : Rule} :
    (g.eraseRules (g.productions s)).value.rules[id]? = some r ↔
      g.rules[id]? = some r ∧ r.lhs ≠ s := by
  rw [rules_eraseRules]
  constructor
  · intro hr
    split at hr
    next => cases hr
    next hid =>
      refine ⟨hr, ?_⟩
      rintro rfl
      exact hid (hg.mem_productions_iff.2 ⟨r, hr, rfl⟩)
  · rintro ⟨hr, hlhs⟩
    rw [if_neg, hr]
    intro hid
    obtain ⟨q, hq, hl⟩ := hg.mem_productions_iff.1 hid
    rw [hr, Option.some.injEq] at hq
    exact hlhs (hq ▸ hl)

/-- The same of the rules as a set. -/
theorem Indexed.mem_ruleSet_eraseProductions (hg : g.Indexed) {r : Rule} :
    r ∈ (g.eraseRules (g.productions s)).value.ruleSet ↔ r ∈ g.ruleSet ∧ r.lhs ≠ s := by
  simp only [mem_ruleSet, hg.rules_eraseProductions, exists_and_right]

/-- What erasing one rule leaves alone, erasing many leaves alone. -/
theorem eraseRules_keeps {α : Type} {f : Grammar → α}
    (h : ∀ (g : Grammar) (id : RuleId), f (g.eraseRule id).value = f g) (g : Grammar)
    (ids : List RuleId) : f (g.eraseRules ids).value = f g := by
  induction ids generalizing g with
  | nil => rfl
  | cons id ids ih => rw [eraseRules_cons, ih, h]

theorem mem_index_eraseRules {ids : List RuleId} {x : Symbol} :
    x ∈ (g.eraseRules ids).value.index ↔ x ∈ g.index := by
  have hkept : ∀ (g : Grammar) (id : RuleId), (x ∈ (g.eraseRule id).value.index) = (x ∈ g.index) :=
    fun _ _ => propext mem_index_eraseRule
  exact (eraseRules_keeps (f := fun g => x ∈ g.index) hkept g ids).to_iff

@[simp] theorem nextId_eraseRules (g : Grammar) (ids : List RuleId) :
    (g.eraseRules ids).value.nextId = g.nextId :=
  eraseRules_keeps nextId_eraseRule g ids

@[simp] theorem explicitStart_eraseRules (g : Grammar) (ids : List RuleId) :
    (g.eraseRules ids).value.explicitStart = g.explicitStart :=
  eraseRules_keeps explicitStart_eraseRule g ids

/-! ## Striking the symbol out -/

/-- `h` is `g` with `s` struck from some of its rules. -/
structure Thinned (g : Grammar) (s : Symbol) (h : Grammar) : Prop where
  /-- without `s` a stored rule comes to the same as the original rule of its number -/
  origin : ∀ {id : RuleId} {q : Rule}, h.rules[id]? = some q →
    ∃ r, g.rules[id]? = some r ∧ q.without s = r.without s
  /-- for every original rule there is one at most as old that comes to the same without `s` -/
  remains : ∀ {id : RuleId} {r : Rule}, g.rules[id]? = some r →
    ∃ k ≤ id, ∃ q, h.rules[k]? = some q ∧ q.without s = r.without s

theorem thinned_iff : Thinned g s h ↔ Merged (Rule.without s) g h :=
  ⟨fun hthin => ⟨hthin.origin, hthin.remains⟩, fun hmerged => ⟨hmerged.origin, hmerged.remains⟩⟩

/-- Striking the symbol from one more rule. -/
theorem Thinned.strikeFromRule (hthin : Thinned g s h) (hh : h.Indexed) (id : RuleId) :
    Thinned g s (strikeFromRule s h id).value := by
  rw [thinned_iff] at hthin ⊢
  rw [strikeFromRule_eq]
  refine hthin.changeRhs hh (Rule.without_without s) ?_
  intro p hp
  simp [rhs?, hp, Rule.without]

/-- Striking the symbol from all rules left. -/
theorem StruckOut.thinned {left : List RuleId} (hh : StruckOut s left h) (hthin : Thinned g s h) :
    Thinned g s (left.foldl (fun h id => (Grammar.strikeFromRule s h id).value) h) := by
  induction left generalizing h with
  | nil => exact hthin
  | cons id left ih => exact ih hh.strikeFromRule (hthin.strikeFromRule hh.toIndexed id)

/-- When no rule mentions the symbol any more, the oldest of the rules that come to the same is
there, and no other. -/
theorem Thinned.rules_iff (hthin : Thinned g s h) (hh : h.Indexed)
    (hgone : ∀ {k : RuleId} {q : Rule}, h.rules[k]? = some q → s ∉ q.rhs) {q : Rule} :
    h.rules[id]? = some q ↔
      (∃ r, g.rules[id]? = some r ∧ r.without s = q) ∧
        ∀ {j : RuleId} {r : Rule}, g.rules[j]? = some r → r.without s = q → id ≤ j :=
  (thinned_iff.1 hthin).rules_iff hh fun hq => Rule.without_eq_self (hgone hq)

@[simp] theorem nextId_strikeAll (s : Symbol) (left : List RuleId) (g : Grammar) :
    (left.foldl (fun g id => (Grammar.strikeFromRule s g id).value) g).nextId = g.nextId := by
  induction left generalizing g with
  | nil => rfl
  | cons id left ih => rw [List.foldl_cons, ih, strikeFromRule_eq, nextId_changeRhs]

/-! ## Removing the symbol -/

section Remove

variable {l : Logged Grammar}

theorem removeSymbol_eq_ok (hl : g.removeSymbol s = .ok l) :
    l.value = ((g.eraseRules (g.productions s)).value.strike s).value := by
  obtain ⟨-, rfl⟩ := removeSymbol_eq_ok_iff.1 hl
  rfl

/-- What is left of the rules: the productions of the symbol are gone, the other rules have lost its
occurrences, and of those that became equal the oldest is left. -/
theorem WellFormed.rules_removeSymbol (hg : g.WellFormed) (hl : g.removeSymbol s = .ok l)
    {q : Rule} :
    l.value.rules[id]? = some q ↔
      (∃ r, g.rules[id]? = some r ∧ r.lhs ≠ s ∧ r.without s = q) ∧
        ∀ {j : RuleId} {r : Rule}, g.rules[j]? = some r → r.lhs ≠ s → r.without s = q →
          id ≤ j := by
  have hcleared := hg.eraseRules (g.productions s)
  have hbare := hcleared.forget hg.lhs_ne_of_eraseRules
  have hstruck := hbare.strikeAll
  have hthin : Thinned (g.eraseRules (g.productions s)).value s
      { (g.eraseRules (g.productions s)).value with
        index := (g.eraseRules (g.productions s)).value.index.erase s } :=
    ⟨fun hq => ⟨_, hq, rfl⟩, fun hr => ⟨_, Nat.le_refl _, _, hr, rfl⟩⟩
  rw [removeSymbol_eq_ok hl, value_strike]
  refine ((hbare.thinned hthin).rules_iff hstruck.toIndexed fun hq hs =>
    List.not_mem_nil (hstruck.left_over hq hs)).trans ?_
  simp only [hg.rules_eraseProductions, and_assoc, and_imp]

/-- What is left of a rule is stored under its number or an older one. -/
theorem WellFormed.exists_removeSymbol (hg : g.WellFormed) (hl : g.removeSymbol s = .ok l)
    {r : Rule} (hr : g.rules[id]? = some r) (hlhs : r.lhs ≠ s) :
    ∃ k ≤ id, l.value.rules[k]? = some (r.without s) := by
  classical
  have hsome : ∃ (k : RuleId) (q : Rule),
      g.rules[k]? = some q ∧ q.lhs ≠ s ∧ q.without s = r.without s := ⟨id, r, hr, hlhs, rfl⟩
  refine ⟨Nat.find hsome, Nat.find_min' hsome ⟨r, hr, hlhs, rfl⟩, ?_⟩
  rw [hg.rules_removeSymbol hl]
  refine ⟨Nat.find_spec hsome, ?_⟩
  intro j q hq hne hsame
  exact Nat.find_min' hsome ⟨q, hq, hne, hsame⟩

/-- As a set, the rules are those of other symbols without the one removed. -/
theorem WellFormed.mem_ruleSet_removeSymbol (hg : g.WellFormed) (hl : g.removeSymbol s = .ok l)
    {q : Rule} : q ∈ l.value.ruleSet ↔ ∃ r ∈ g.ruleSet, r.lhs ≠ s ∧ r.without s = q := by
  constructor
  · intro hq
    obtain ⟨id, hid⟩ := mem_ruleSet.1 hq
    obtain ⟨⟨r, hr, hlhs, hsame⟩, -⟩ := (hg.rules_removeSymbol hl).1 hid
    exact ⟨r, mem_ruleSet.2 ⟨id, hr⟩, hlhs, hsame⟩
  · rintro ⟨r, hr, hlhs, rfl⟩
    obtain ⟨id, hid⟩ := mem_ruleSet.1 hr
    obtain ⟨k, -, hk⟩ := hg.exists_removeSymbol hl hid hlhs
    exact mem_ruleSet.2 ⟨k, hk⟩

theorem WellFormed.mem_index_removeSymbol (hg : g.WellFormed) (hl : g.removeSymbol s = .ok l)
    {x : Symbol} : x ∈ l.value.index ↔ x ∈ g.index ∧ x ≠ s := by
  have hbare := (hg.eraseRules (g.productions s)).forget hg.lhs_ne_of_eraseRules
  rw [removeSymbol_eq_ok hl, value_strike]
  refine hbare.mem_index_strikeAll.trans ?_
  rw [Std.ExtTreeMap.mem_erase, mem_index_eraseRules, ne_eq, Std.compare_eq_iff_eq, and_comm,
    ← ne_eq, ne_comm]

theorem nextId_removeSymbol (hl : g.removeSymbol s = .ok l) : l.value.nextId = g.nextId := by
  rw [removeSymbol_eq_ok hl, value_strike]
  simp

theorem explicitStart_removeSymbol (hl : g.removeSymbol s = .ok l) :
    l.value.explicitStart = if g.explicitStart = some s then none else g.explicitStart := by
  rw [removeSymbol_eq_ok hl, value_strike]
  simp [explicitStart_strikeAll]

end Remove

end Grammar

end EditableGrammar
