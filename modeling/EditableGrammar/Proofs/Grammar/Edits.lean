import EditableGrammar.Proofs.Grammar.Indexed

set_option autoImplicit false

/-!
# Edits keep the index in step

Every edit is a chain of the single changes of the store.  `changeRhs_cases` says once what changing
a right-hand side can come to: the changed rule gives way to an older equal one, or a younger equal
one gives way to it, or there is no other.  What the edits built from it do to the rules is read off
from its three cases.

While a symbol is struck from the rules, the grammar does not know it and yet mentions it.
`StruckOut` holds through that time.
-/

namespace EditableGrammar

namespace Grammar

/-! ## Changing a right-hand side -/

/-- What changing a right-hand side can come to. -/
theorem Indexed.changeRhs_cases {g : Grammar} (hg : g.Indexed) {id : RuleId} {r : Rule}
    (h : g.rules[id]? = some r) (rhs : List Symbol) :
    (∃ other < id, g.rules[other]? = some ⟨r.lhs, rhs⟩ ∧
        (g.changeRhs id rhs).value = (g.eraseRule id).value) ∨
      (∃ other, id < other ∧ g.rules[other]? = some ⟨r.lhs, rhs⟩ ∧
        (g.changeRhs id rhs).value = (g.eraseRule other).value.replaceRhs id rhs) ∨
      ((∀ k : RuleId, k ≠ id → g.rules[k]? ≠ some ⟨r.lhs, rhs⟩) ∧
        (g.changeRhs id rhs).value = g.replaceRhs id rhs) := by
  unfold changeRhs
  rw [h]
  dsimp only
  cases hfind : g.findRule r.lhs rhs with
  | none =>
    have hfresh := hg.findRule_eq_none_iff.1 hfind
    exact Or.inr (Or.inr ⟨fun k _ => hfresh k, rfl⟩)
  | some other =>
    have hother := hg.findRule_eq_some_iff.1 hfind
    dsimp only
    split
    next hlt => exact Or.inl ⟨other, hlt, hother, rfl⟩
    split
    next hgt => exact Or.inr (Or.inl ⟨other, hgt, hother, rfl⟩)
    next hle hge =>
      have hsame : other = id := Nat.le_antisymm (Nat.not_lt.1 hge) (Nat.not_lt.1 hle)
      refine Or.inr (Or.inr ⟨fun k hk hrule => hk ?_, rfl⟩)
      rw [hg.unique hrule hother, hsame]

theorem changeRhs_of_erased {g : Grammar} {id : RuleId} (h : g.rules[id]? = none)
    (rhs : List Symbol) : (g.changeRhs id rhs).value = g := by
  simp [changeRhs, h]

section Change

variable {g : Grammar} {id : RuleId} {r : Rule} {rhs : List Symbol}

/-- A rule that is there after the change was there before, or is the changed one. -/
theorem Indexed.rules_changeRhs_sound (hg : g.Indexed) (h : g.rules[id]? = some r) {k : RuleId}
    {q : Rule} (hq : (g.changeRhs id rhs).value.rules[k]? = some q) :
    (k ≠ id ∧ g.rules[k]? = some q) ∨ (k = id ∧ q = ⟨r.lhs, rhs⟩) := by
  have hreplaced : ∀ {h' : Grammar}, h'.rules[id]? = some r →
      (h'.replaceRhs id rhs).rules[k]? = some q →
      (k ≠ id ∧ h'.rules[k]? = some q) ∨ (k = id ∧ q = ⟨r.lhs, rhs⟩) := by
    intro h' hr hq
    rw [rules_replaceRhs hr] at hq
    split at hq
    next hk => exact Or.inr ⟨hk.symm, (Option.some.inj hq).symm⟩
    next hk => exact Or.inl ⟨Ne.symm hk, hq⟩
  obtain ⟨other, hlt, hother, heq⟩ | ⟨other, hgt, hother, heq⟩ | ⟨-, heq⟩ :=
    hg.changeRhs_cases h rhs
  · rw [heq, rules_eraseRule] at hq
    split at hq
    next => cases hq
    next hk => exact Or.inl ⟨Ne.symm hk, hq⟩
  · have hr : (g.eraseRule other).value.rules[id]? = some r := by
      rw [rules_eraseRule, if_neg (Nat.ne_of_gt hgt), h]
    rw [heq] at hq
    rcases hreplaced hr hq with ⟨hk, hq⟩ | hq
    · rw [rules_eraseRule] at hq
      split at hq
      next => cases hq
      next => exact Or.inl ⟨hk, hq⟩
    · exact Or.inr hq
  · rw [heq] at hq
    exact hreplaced h hq

/-- Another rule is still there after the change, unless it is equal to the changed one. -/
theorem Indexed.rules_changeRhs_keep (hg : g.Indexed) (h : g.rules[id]? = some r) {k : RuleId}
    {q : Rule} (hk : k ≠ id) (hq : g.rules[k]? = some q) (hne : q ≠ ⟨r.lhs, rhs⟩) :
    (g.changeRhs id rhs).value.rules[k]? = some q := by
  obtain ⟨other, -, -, heq⟩ | ⟨other, hgt, hother, heq⟩ | ⟨-, heq⟩ := hg.changeRhs_cases h rhs
  · rw [heq, rules_eraseRule, if_neg (Ne.symm hk), hq]
  · have hr : (g.eraseRule other).value.rules[id]? = some r := by
      rw [rules_eraseRule, if_neg (Nat.ne_of_gt hgt), h]
    have hother' : other ≠ k := by
      rintro rfl
      exact hne (Option.some.inj (hq.symm.trans hother))
    rw [heq, rules_replaceRhs hr, if_neg (Ne.symm hk), rules_eraseRule, if_neg hother', hq]
  · rw [heq, rules_replaceRhs h, if_neg (Ne.symm hk), hq]

/-- The change disturbs no rule of another symbol. -/
theorem Indexed.rules_changeRhs_other (hg : g.Indexed) (h : g.rules[id]? = some r) {k : RuleId}
    {q : Rule} (hne : q.lhs ≠ r.lhs) :
    (g.changeRhs id rhs).value.rules[k]? = some q ↔ g.rules[k]? = some q := by
  constructor
  · intro hq
    rcases hg.rules_changeRhs_sound h hq with ⟨-, hq⟩ | ⟨-, rfl⟩
    · exact hq
    · exact absurd rfl hne
  · intro hq
    refine hg.rules_changeRhs_keep h ?_ hq ?_
    · intro hk
      rw [hk, h, Option.some.injEq] at hq
      exact hne (congrArg Rule.lhs hq.symm)
    · rintro rfl
      exact hne rfl

/-- No rule appears under a number that held none. -/
theorem Indexed.rules_changeRhs_none (hg : g.Indexed) (h : g.rules[id]? = some r) {k : RuleId}
    (hk : g.rules[k]? = none) : (g.changeRhs id rhs).value.rules[k]? = none := by
  rw [Option.eq_none_iff_forall_ne_some]
  intro q hq
  rcases hg.rules_changeRhs_sound h hq with ⟨-, hq⟩ | ⟨hid, -⟩
  · rw [hk] at hq
    cases hq
  · rw [hid, h] at hk
    cases hk

/-- After the change some rule holds the new content, the changed one or an older one, and no rule
that held it before was older still. -/
theorem Indexed.exists_changeRhs (hg : g.Indexed) (h : g.rules[id]? = some r)
    (rhs : List Symbol) :
    ∃ k ≤ id, (g.changeRhs id rhs).value.rules[k]? = some ⟨r.lhs, rhs⟩ ∧
      ∀ {j : RuleId}, g.rules[j]? = some ⟨r.lhs, rhs⟩ → k ≤ j := by
  obtain ⟨other, hlt, hother, heq⟩ | ⟨other, hgt, hother, heq⟩ | ⟨hfresh, heq⟩ :=
    hg.changeRhs_cases h rhs
  · refine ⟨other, Nat.le_of_lt hlt, ?_, fun hj => Nat.le_of_eq (hg.unique hother hj)⟩
    rw [heq, rules_eraseRule, if_neg (Nat.ne_of_gt hlt), hother]
  · have hr : (g.eraseRule other).value.rules[id]? = some r := by
      rw [rules_eraseRule, if_neg (Nat.ne_of_gt hgt), h]
    refine ⟨id, Nat.le_refl _, ?_, fun hj => hg.unique hother hj ▸ Nat.le_of_lt hgt⟩
    rw [heq, rules_replaceRhs hr, if_pos rfl]
  · refine ⟨id, Nat.le_refl _, ?_, fun {j} hj => ?_⟩
    · rw [heq, rules_replaceRhs h, if_pos rfl]
    · by_contra hlt
      exact hfresh j (Nat.ne_of_lt (Nat.not_le.1 hlt)) hj

/-- Changing a right-hand side to known symbols keeps the index in step. -/
theorem Indexed.changeRhs (hg : g.Indexed) (id : RuleId) (hknown : ∀ x ∈ rhs, x ∈ g.index) :
    (g.changeRhs id rhs).value.Indexed := by
  cases h : g.rules[id]? with
  | none => rwa [changeRhs_of_erased h]
  | some r =>
    obtain ⟨other, -, -, heq⟩ | ⟨other, hgt, hother, heq⟩ | ⟨hfresh, heq⟩ :=
      hg.changeRhs_cases h rhs
    · rw [heq]
      exact hg.eraseRule id
    · have hr : (g.eraseRule other).value.rules[id]? = some r := by
        rw [rules_eraseRule, if_neg (Nat.ne_of_gt hgt), h]
      rw [heq]
      refine (hg.eraseRule other).replaceRhs hr ?_ ?_
      · intro x hx
        exact mem_index_eraseRule.2 (hknown x hx)
      · intro k _ hrule
        rw [rules_eraseRule] at hrule
        split at hrule
        next => cases hrule
        next hne => exact hne (hg.unique hother hrule)
    · rw [heq]
      exact hg.replaceRhs h hknown hfresh

theorem Indexed.mem_index_changeRhs (hg : g.Indexed) {id : RuleId}
    (hknown : ∀ x ∈ rhs, x ∈ g.index) {x : Symbol} :
    x ∈ (g.changeRhs id rhs).value.index ↔ x ∈ g.index := by
  cases h : g.rules[id]? with
  | none => rw [changeRhs_of_erased h]
  | some r =>
    obtain ⟨other, -, -, heq⟩ | ⟨other, hgt, -, heq⟩ | ⟨-, heq⟩ := hg.changeRhs_cases h rhs
    · rw [heq, mem_index_eraseRule]
    · have hr : (g.eraseRule other).value.rules[id]? = some r := by
        rw [rules_eraseRule, if_neg (Nat.ne_of_gt hgt), h]
      rw [heq, mem_index_replaceRhs hr (fun x hx => mem_index_eraseRule.2 (hknown x hx)),
        mem_index_eraseRule]
    · rw [heq, mem_index_replaceRhs h hknown]

@[simp] theorem explicitStart_changeRhs (g : Grammar) (id : RuleId) (rhs : List Symbol) :
    (g.changeRhs id rhs).value.explicitStart = g.explicitStart := by
  unfold Grammar.changeRhs
  split
  next => rfl
  split
  next => simp
  split
  next => simp
  split <;> simp

@[simp] theorem nextId_changeRhs (g : Grammar) (id : RuleId) (rhs : List Symbol) :
    (g.changeRhs id rhs).value.nextId = g.nextId := by
  unfold Grammar.changeRhs
  split
  next => rfl
  split
  next => simp
  split
  next => simp
  split <;> simp

/-- Changing a right-hand side to known symbols keeps a grammar well formed. -/
theorem WellFormed.changeRhs (hg : g.WellFormed) (id : RuleId)
    (hknown : ∀ x ∈ rhs, x ∈ g.index) : (g.changeRhs id rhs).value.WellFormed := by
  refine ⟨hg.toIndexed.changeRhs id hknown, ?_, ?_⟩
  · intro k q hq x hx
    rw [hg.mem_index_changeRhs hknown]
    cases h : g.rules[id]? with
    | none =>
      rw [changeRhs_of_erased h] at hq
      exact hg.rhs_known hq x hx
    | some r =>
      rcases hg.rules_changeRhs_sound h hq with ⟨-, hq⟩ | ⟨-, rfl⟩
      · exact hg.rhs_known hq x hx
      · exact hknown x hx
  · intro s hs
    rw [explicitStart_changeRhs] at hs
    exact (hg.mem_index_changeRhs hknown).2 (hg.start_known hs)

end Change

/-! ## Adding and erasing rules -/

theorem empty_wellFormed : empty.WellFormed := by
  have hrules : ∀ {id : RuleId} {r : Rule}, empty.rules[id]? ≠ some r := by
    intro id r
    simp [empty]
  refine ⟨⟨?_, ?_, ?_, ?_, ?_⟩, ?_, ?_⟩
  · intro s uses huses
    simp [empty] at huses
  · intro s uses huses
    simp [empty] at huses
  · intro id r hr
    exact absurd hr hrules
  · intro i j r hi
    exact absurd hi hrules
  · intro id r hr
    exact absurd hr hrules
  · intro id r hr
    exact absurd hr hrules
  · intro s hs
    simp [empty] at hs

theorem WellFormed.addRule {g : Grammar} (hg : g.WellFormed) (r : Rule) :
    (g.addRule r).value.WellFormed := by
  unfold Grammar.addRule
  split
  next => exact hg
  next h =>
    refine hg.storeRule fun id hid => h ?_
    exact hg.containsRule_iff.2 ⟨id, hid⟩

theorem WellFormed.extend {g : Grammar} (hg : g.WellFormed) (rules : List Rule) :
    (g.extend rules).value.WellFormed := by
  unfold Grammar.extend
  rw [Logged.value_foldl]
  induction rules generalizing g with
  | nil => exact hg
  | cons r rules ih => exact ih (hg.addRule r)

/-- Adding a rule adds it to the rules, be it new or not. -/
theorem WellFormed.mem_ruleSet_addRule {g : Grammar} (hg : g.WellFormed) {r q : Rule} :
    q ∈ (g.addRule r).value.ruleSet ↔ q = r ∨ q ∈ g.ruleSet := by
  unfold Grammar.addRule
  split
  next hheld =>
    have hr : r ∈ g.ruleSet := mem_ruleSet.2 (hg.containsRule_iff.1 hheld)
    rw [Logged.value_pure, iff_or_self]
    rintro rfl
    exact hr
  next =>
    rw [Logged.value_note, mem_ruleSet, mem_ruleSet]
    constructor
    · rintro ⟨id, hq⟩
      rw [rules_storeRule] at hq
      split at hq
      next => exact Or.inl (Option.some.inj hq).symm
      next => exact Or.inr ⟨id, hq⟩
    · rintro (rfl | ⟨id, hq⟩)
      · exact ⟨g.nextId, by rw [rules_storeRule, if_pos rfl]⟩
      · exact ⟨id, by rw [rules_storeRule, if_neg (Nat.ne_of_gt (hg.bounded hq)), hq]⟩

/-- Adding rules adds just these. -/
theorem WellFormed.mem_ruleSet_extend {g : Grammar} (hg : g.WellFormed) {rules : List Rule}
    {q : Rule} : q ∈ (g.extend rules).value.ruleSet ↔ q ∈ rules ∨ q ∈ g.ruleSet := by
  unfold Grammar.extend
  rw [Logged.value_foldl]
  induction rules generalizing g with
  | nil => simp
  | cons r rules ih =>
    rw [List.foldl_cons, ih (hg.addRule r), hg.mem_ruleSet_addRule, List.mem_cons, or_left_comm,
      or_assoc]

/-- Adding a rule makes its symbols known, be it new or not. -/
theorem WellFormed.mem_index_addRule {g : Grammar} (hg : g.WellFormed) {r : Rule} {x : Symbol} :
    x ∈ (g.addRule r).value.index ↔ x ∈ r.symbols ∨ x ∈ g.index := by
  unfold Grammar.addRule
  split
  next hheld =>
    rw [Logged.value_pure, iff_or_self]
    intro hx
    obtain ⟨id, hr⟩ := hg.containsRule_iff.1 hheld
    rcases List.mem_cons.1 hx with rfl | hx
    · exact hg.lhs_known hr
    · exact hg.rhs_known hr x hx
  next => exact mem_index_storeRule

theorem WellFormed.mem_index_extend {g : Grammar} (hg : g.WellFormed) {rules : List Rule}
    {x : Symbol} :
    x ∈ (g.extend rules).value.index ↔ x ∈ rules.flatMap Rule.symbols ∨ x ∈ g.index := by
  unfold Grammar.extend
  rw [Logged.value_foldl]
  induction rules generalizing g with
  | nil => simp
  | cons r rules ih =>
    rw [List.foldl_cons, ih (hg.addRule r), hg.mem_index_addRule, List.flatMap_cons,
      List.mem_append, or_left_comm, or_assoc]

theorem WellFormed.eraseRule {g : Grammar} (hg : g.WellFormed) (id : RuleId) :
    (g.eraseRule id).value.WellFormed := by
  refine ⟨hg.toIndexed.eraseRule id, ?_, ?_⟩
  · intro k r hr x hx
    rw [rules_eraseRule] at hr
    split at hr
    next => cases hr
    next => exact mem_index_eraseRule.2 (hg.rhs_known hr x hx)
  · intro s hs
    rw [explicitStart_eraseRule] at hs
    exact mem_index_eraseRule.2 (hg.start_known hs)

theorem eraseRules_cons (g : Grammar) (id : RuleId) (ids : List RuleId) :
    (g.eraseRules (id :: ids)).value = ((g.eraseRule id).value.eraseRules ids).value := by
  simp [eraseRules]

theorem rules_eraseRules (g : Grammar) (ids : List RuleId) (k : RuleId) :
    (g.eraseRules ids).value.rules[k]? = if k ∈ ids then none else g.rules[k]? := by
  induction ids generalizing g with
  | nil => simp [eraseRules]
  | cons id ids ih =>
    rw [eraseRules_cons, ih, rules_eraseRule]
    by_cases hk : k ∈ ids
    · simp [hk]
    · simp [hk, eq_comm]

theorem WellFormed.eraseRules {g : Grammar} (hg : g.WellFormed) (ids : List RuleId) :
    (g.eraseRules ids).value.WellFormed := by
  induction ids generalizing g with
  | nil => exact hg
  | cons id ids ih =>
    rw [eraseRules_cons]
    exact ih (hg.eraseRule id)

/-- A rule that is not there is refused. -/
theorem removeRule_eq (g : Grammar) (r : Rule) :
    g.removeRule r =
      if g.containsRule r = true then
        .ok (g.eraseRules ((g.productions r.lhs).filter fun id => g.rhs? id == some r.rhs))
      else .error (.ruleNotFound r) := by
  have hfound : g.containsRule r = true ↔
      ∃ id ∈ g.productions r.lhs, (g.rhs? id == some r.rhs) = true := List.find?_isSome
  unfold removeRule
  split
  next hnone =>
    rw [if_neg]
    rw [hfound]
    rintro ⟨id, hid, hrhs⟩
    exact List.filter_eq_nil_iff.1 hnone id hid hrhs
  next hsome =>
    obtain ⟨id, hid⟩ := List.exists_mem_of_ne_nil _ hsome
    rw [if_pos (hfound.2 ⟨id, List.mem_filter.1 hid⟩)]

theorem WellFormed.removeRule {g : Grammar} (hg : g.WellFormed) {r : Rule} {l : Logged Grammar}
    (h : g.removeRule r = .ok l) : l.value.WellFormed := by
  unfold Grammar.removeRule at h
  split at h
  next => cases h
  next =>
    cases h
    exact hg.eraseRules _

theorem makeTerminal_eq_ok_iff {g : Grammar} {s : Symbol} {l : Logged Grammar} :
    g.makeTerminal s = .ok l ↔ s ∈ g.index ∧ g.eraseRules (g.productions s) = l := by
  rw [← mem_symbols, ← containsSymbol_iff]
  unfold makeTerminal
  split
  next h => simp [h]
  next h => simp [h]

theorem WellFormed.makeTerminal {g : Grammar} (hg : g.WellFormed) {s : Symbol}
    {l : Logged Grammar} (h : g.makeTerminal s = .ok l) : l.value.WellFormed := by
  obtain ⟨-, rfl⟩ := makeTerminal_eq_ok_iff.1 h
  exact hg.eraseRules _

/-- A symbol without productions is on the left of no rule. -/
theorem Indexed.lhs_ne_of_eraseRules {g : Grammar} (hg : g.Indexed) {s : Symbol} {id : RuleId}
    {r : Rule} (hr : (g.eraseRules (g.productions s)).value.rules[id]? = some r) : r.lhs ≠ s := by
  rintro rfl
  rw [rules_eraseRules] at hr
  split at hr
  next => cases hr
  next hid => exact hid (hg.mem_productions_iff.2 ⟨r, hr, rfl⟩)

/-! ## Taking a symbol out -/

/-- The state of a grammar while `s` is struck from its rules: `s` is unknown already, and the rules
of the listed numbers may still mention it. -/
structure StruckOut (s : Symbol) (left : List RuleId) (g : Grammar) : Prop extends Indexed g where
  gone : s ∉ g.index
  others_known : ∀ {id : RuleId} {r : Rule}, g.rules[id]? = some r →
    ∀ x ∈ r.rhs, x ≠ s → x ∈ g.index
  left_over : ∀ {id : RuleId} {r : Rule}, g.rules[id]? = some r → s ∈ r.rhs → id ∈ left

/-- Forgetting a symbol that is on the left of no rule begins to strike it out. -/
theorem WellFormed.forget {g : Grammar} (hg : g.WellFormed) {s : Symbol}
    (hlhs : ∀ {id : RuleId} {r : Rule}, g.rules[id]? = some r → r.lhs ≠ s) :
    StruckOut s (g.occurrences s) { g with index := g.index.erase s } := by
  have hstay : ∀ {x : Symbol} {uses : Uses},
      (g.index.erase s)[x]? = some uses → g.index[x]? = some uses := by
    intro x uses huses
    rw [Std.ExtTreeMap.getElem?_erase] at huses
    split at huses
    next => cases huses
    next => exact huses
  refine ⟨⟨?_, ?_, ?_, ?_, ?_⟩, ?_, ?_, ?_⟩
  · intro x uses huses
    exact hg.productions_iff (hstay huses)
  · intro x uses huses
    exact hg.occurrences_iff (hstay huses)
  · intro id r hr
    have hne : s ≠ r.lhs := Ne.symm (hlhs hr)
    simpa [Std.ExtTreeMap.mem_erase, hne] using hg.lhs_known hr
  · intro i j r hi hj
    exact hg.unique hi hj
  · intro id r hr
    exact hg.bounded hr
  · simp
  · intro id r hr x hx hne
    simpa [Std.ExtTreeMap.mem_erase, Ne.symm hne] using hg.rhs_known hr x hx
  · intro id r hr hs
    exact hg.mem_occurrences_iff.2 ⟨r, hr, hs⟩

section Strike

variable {s : Symbol} {id : RuleId} {left : List RuleId} {g : Grammar}

/-- Striking a symbol changes no rule but the one it is struck from. -/
theorem strikeFromRule_eq (s : Symbol) (g : Grammar) (id : RuleId) :
    strikeFromRule s g id = g.changeRhs id (((g.rhs? id).getD []).filter (· != s)) := by
  unfold strikeFromRule
  cases h : g.rhs? id with
  | none =>
    have hnone : g.rules[id]? = none := Option.map_eq_none_iff.1 h
    simp [changeRhs, hnone]
  | some rhs => rfl

theorem StruckOut.known (hg : StruckOut s left g) (id : RuleId) :
    ∀ x ∈ ((g.rhs? id).getD []).filter (· != s), x ∈ g.index := by
  intro x hx
  obtain ⟨hx, hne⟩ := List.mem_filter.1 hx
  cases h : g.rules[id]? with
  | none => simp [rhs?, h] at hx
  | some r =>
    rw [rhs?, h] at hx
    exact hg.others_known h x hx (by simpa using hne)

/-- Striking a symbol from one rule leaves one rule less to strike it from. -/
theorem StruckOut.strikeFromRule (hg : StruckOut s (id :: left) g) :
    StruckOut s left (strikeFromRule s g id).value := by
  rw [strikeFromRule_eq]
  have hknown := hg.known id
  have hindex : ∀ x, x ∈ (g.changeRhs id (((g.rhs? id).getD []).filter (· != s))).value.index ↔
      x ∈ g.index := fun _ => hg.mem_index_changeRhs hknown
  cases h : g.rules[id]? with
  | none =>
    rw [changeRhs_of_erased h]
    refine ⟨hg.toIndexed, hg.gone, hg.others_known, ?_⟩
    intro k r hr hs
    rcases List.mem_cons.1 (hg.left_over hr hs) with rfl | hk
    · rw [h] at hr
      cases hr
    · exact hk
  | some r =>
    refine ⟨hg.toIndexed.changeRhs id hknown, ?_, ?_, ?_⟩
    · rw [hindex]
      exact hg.gone
    · intro k q hq x hx hne
      rw [hindex]
      rcases hg.rules_changeRhs_sound h hq with ⟨-, hq⟩ | ⟨-, rfl⟩
      · exact hg.others_known hq x hx hne
      · exact hknown x hx
    · intro k q hq hs
      rcases hg.rules_changeRhs_sound h hq with ⟨hk, hq⟩ | ⟨-, rfl⟩
      · exact List.mem_of_ne_of_mem hk (hg.left_over hq hs)
      · simp at hs

/-- Striking a symbol from all rules left leaves none. -/
theorem StruckOut.strikeAll (hg : StruckOut s left g) :
    StruckOut s [] (left.foldl (fun g id => (Grammar.strikeFromRule s g id).value) g) := by
  induction left generalizing g with
  | nil => exact hg
  | cons id left ih => exact ih hg.strikeFromRule

theorem explicitStart_strikeAll (s : Symbol) (left : List RuleId) (g : Grammar) :
    (left.foldl (fun g id => (Grammar.strikeFromRule s g id).value) g).explicitStart =
      g.explicitStart := by
  induction left generalizing g with
  | nil => rfl
  | cons id left ih => rw [List.foldl_cons, ih, strikeFromRule_eq, explicitStart_changeRhs]

theorem StruckOut.mem_index_strikeAll (hg : StruckOut s left g) {x : Symbol} :
    x ∈ (left.foldl (fun g id => (Grammar.strikeFromRule s g id).value) g).index ↔
      x ∈ g.index := by
  induction left generalizing g with
  | nil => rfl
  | cons id left ih =>
    rw [List.foldl_cons, ih hg.strikeFromRule, strikeFromRule_eq,
      hg.mem_index_changeRhs (hg.known id)]

end Strike

theorem value_strike (g : Grammar) (s : Symbol) :
    (g.strike s).value =
      let struck := (g.occurrences s).foldl (fun g id => (strikeFromRule s g id).value)
        { g with index := g.index.erase s }
      { struck with
        explicitStart :=
          if struck.explicitStart = some s then none else struck.explicitStart } := by
  simp [strike]

/-- Striking out a symbol that is on the left of no rule keeps a grammar well formed. -/
theorem WellFormed.strike {g : Grammar} (hg : g.WellFormed) {s : Symbol}
    (hlhs : ∀ {id : RuleId} {r : Rule}, g.rules[id]? = some r → r.lhs ≠ s) :
    (g.strike s).value.WellFormed := by
  have hbare := hg.forget hlhs
  have hstruck := hbare.strikeAll
  rw [value_strike]
  refine ⟨⟨hstruck.productions_iff, hstruck.occurrences_iff, hstruck.lhs_known, hstruck.unique,
    hstruck.bounded⟩, ?_, ?_⟩
  · intro id r hr x hx
    by_cases hxs : x = s
    · subst hxs
      exact absurd (hstruck.left_over hr hx) (List.not_mem_nil)
    · exact hstruck.others_known hr x hx hxs
  · intro x hx
    dsimp only at hx
    rw [explicitStart_strikeAll] at hx
    split at hx
    next => cases hx
    next hne =>
      have hxs : s ≠ x := by
        rintro rfl
        exact hne hx
      show x ∈ Grammar.index _
      rw [hbare.mem_index_strikeAll]
      simpa [Std.ExtTreeMap.mem_erase, hxs] using hg.start_known hx

theorem removeSymbol_eq_ok_iff {g : Grammar} {s : Symbol} {l : Logged Grammar} :
    g.removeSymbol s = .ok l ↔
      s ∈ g.index ∧ (g.eraseRules (g.productions s)).bind (·.strike s) = l := by
  rw [← mem_symbols, ← containsSymbol_iff]
  unfold removeSymbol makeTerminal
  by_cases h : g.containsSymbol s = true <;> simp [h]

theorem WellFormed.removeSymbol {g : Grammar} (hg : g.WellFormed) {s : Symbol}
    {l : Logged Grammar} (h : g.removeSymbol s = .ok l) : l.value.WellFormed := by
  obtain ⟨-, rfl⟩ := removeSymbol_eq_ok_iff.1 h
  rw [Logged.value_bind]
  exact (hg.eraseRules _).strike hg.lhs_ne_of_eraseRules

/-! ## Collecting symbols and choosing the start -/

theorem mem_unreferenced {g : Grammar} {s : Symbol} :
    s ∈ g.unreferenced ↔ ∃ uses, g.index[s]? = some uses ∧ g.isUnreferenced s uses = true := by
  rw [unreferenced, Std.ExtTreeMap.mem_keys, Index.mem_iff]
  simp only [Std.ExtTreeMap.getElem?_filter', Option.filter_eq_some_iff]

/-- Pruning forgets the unreferenced symbols and touches nothing else. -/
theorem value_prune (g : Grammar) :
    g.prune.value =
      { g with index := g.index.filter fun s uses => !g.isUnreferenced s uses } := by
  unfold prune
  split
  next hnone =>
    have hall : (g.index.filter fun s uses => !g.isUnreferenced s uses) = g.index := by
      rw [Std.ExtTreeMap.filter_eq_self_iff]
      intro s hs
      have hs' : s ∉ g.unreferenced := by simp [hnone]
      rw [mem_unreferenced] at hs'
      simpa [Std.ExtTreeMap.getElem?_eq_some_getElem hs] using hs'
    rw [hall]
    rfl
  next => rfl

theorem index_prune {g : Grammar} {s : Symbol} {uses : Uses} :
    g.prune.value.index[s]? = some uses ↔
      g.index[s]? = some uses ∧ g.isUnreferenced s uses = false := by
  rw [value_prune]
  simp [Option.filter_eq_some_iff]

/-- A symbol with something in its entry is still known after pruning. -/
theorem mem_index_prune_of_used {g : Grammar} {s : Symbol} {uses : Uses}
    (h : g.index[s]? = some uses)
    (hused : g.explicitStart = some s ∨ ∃ id, id ∈ uses.productions ∨ id ∈ uses.occurrences) :
    s ∈ g.prune.value.index := by
  refine Index.mem_iff.2 ⟨uses, index_prune.2 ⟨h, ?_⟩⟩
  rw [Bool.eq_false_iff]
  intro hdropped
  simp only [isUnreferenced, Uses.isEmpty, Bool.and_eq_true, bne_iff_ne,
    Std.ExtTreeSet.isEmpty_iff] at hdropped
  obtain ⟨⟨hproductions, hoccurrences⟩, hstart⟩ := hdropped
  rcases hused with hs | ⟨id, hid | hid⟩
  · exact hstart hs
  · simp [hproductions] at hid
  · simp [hoccurrences] at hid

theorem WellFormed.prune {g : Grammar} (hg : g.WellFormed) : g.prune.value.WellFormed := by
  have hrules : g.prune.value.rules = g.rules := by rw [value_prune]
  have hnext : g.prune.value.nextId = g.nextId := by rw [value_prune]
  have hstart : g.prune.value.explicitStart = g.explicitStart := by rw [value_prune]
  refine ⟨⟨?_, ?_, ?_, ?_, ?_⟩, ?_, ?_⟩
  · intro s uses huses
    rw [hrules]
    exact hg.productions_iff (index_prune.1 huses).1
  · intro s uses huses
    rw [hrules]
    exact hg.occurrences_iff (index_prune.1 huses).1
  · intro id r hr
    rw [hrules] at hr
    obtain ⟨uses, huses⟩ := Index.mem_iff.1 (hg.lhs_known hr)
    have hid := (hg.productions_iff huses id).2 ⟨r, hr, rfl⟩
    exact mem_index_prune_of_used huses (Or.inr ⟨id, Or.inl hid⟩)
  · intro i j r hi hj
    rw [hrules] at hi hj
    exact hg.unique hi hj
  · intro id r hr
    rw [hrules] at hr
    rw [hnext]
    exact hg.bounded hr
  · intro id r hr x hx
    rw [hrules] at hr
    obtain ⟨uses, huses⟩ := Index.mem_iff.1 (hg.rhs_known hr x hx)
    have hid := (hg.occurrences_iff huses id).2 ⟨r, hr, hx⟩
    exact mem_index_prune_of_used huses (Or.inr ⟨id, Or.inr hid⟩)
  · intro s hs
    rw [hstart] at hs
    obtain ⟨uses, huses⟩ := Index.mem_iff.1 (hg.start_known hs)
    exact mem_index_prune_of_used huses (Or.inl hs)

/-- A known symbol may be chosen as the start. -/
theorem WellFormed.startAt {g : Grammar} (hg : g.WellFormed) {s : Symbol} (hs : s ∈ g.index) :
    { g with explicitStart := some s }.WellFormed := by
  refine ⟨⟨hg.productions_iff, hg.occurrences_iff, hg.lhs_known, hg.unique, hg.bounded⟩,
    hg.rhs_known, ?_⟩
  intro x hx
  cases hx
  exact hs

theorem setStart_eq_ok_iff {g g' : Grammar} {s : Symbol} :
    g.setStart s = .ok g' ↔ s ∈ g.symbols ∧ { g with explicitStart := some s } = g' := by
  rw [← containsSymbol_iff]
  unfold setStart
  split
  next hknown => simp [hknown]
  next hunknown => simp [hunknown]

theorem WellFormed.setStart {g g' : Grammar} (hg : g.WellFormed) {s : Symbol}
    (h : g.setStart s = .ok g') : g'.WellFormed := by
  obtain ⟨hs, rfl⟩ := setStart_eq_ok_iff.1 h
  exact hg.startAt (mem_symbols.1 hs)

/-- The start symbol of a grammar is known. -/
theorem WellFormed.startSymbol_known {g : Grammar} (hg : g.WellFormed) {s : Symbol}
    (h : g.startSymbol = some s) : s ∈ g.index := by
  have holdest : g.oldestLhs = some s → s ∈ g.index := by
    intro h
    obtain ⟨id, -, hid⟩ := Option.bind_eq_some_iff.1 h
    obtain ⟨r, hr, rfl⟩ := Option.map_eq_some_iff.1 hid
    exact hg.lhs_known hr
  unfold Grammar.startSymbol at h
  split at h
  next t ht =>
    split at h
    next hknown =>
      cases h
      exact mem_symbols.1 (containsSymbol_iff.1 hknown)
    next => exact holdest h
  next => exact holdest h

end Grammar

end EditableGrammar
