import Mathlib.Data.List.Sort
import EditableGrammar.Grammar.Edit

set_option autoImplicit false

/-!
# The index agrees with the rules

The index of a grammar repeats what the rules say.  `Indexed` is what makes every look-up through it
right: a number found under a symbol belongs to a stored rule that really has the symbol in that
place, and no rule is stored twice.  `WellFormed` adds that the grammar knows every symbol it
mentions.  The two are apart because a symbol that is being taken out is unknown for a while and yet
still mentioned.

The single changes to the store, storing a rule, erasing one and replacing a right-hand side, are
described here by what is stored after them, and each is shown to keep the index in step.
-/

namespace EditableGrammar

/-- A list in strict order is known by its members. -/
theorem eq_of_strictly_ordered {α : Type} [Ord α] [Std.TransOrd α] {l l' : List α}
    (h : l.Pairwise fun a b => compare a b = .lt) (h' : l'.Pairwise fun a b => compare a b = .lt)
    (hmem : ∀ a, a ∈ l ↔ a ∈ l') : l = l' := by
  have hantisymm : Std.Antisymm fun a b : α => compare a b = .lt :=
    ⟨fun _ _ hab hba => absurd hba (Std.OrientedCmp.not_lt_of_lt hab)⟩
  have hirrefl : Std.Irrefl fun a b : α => compare a b = .lt := ⟨fun _ => by simp⟩
  exact h.eq_of_mem_iff h' hmem

/-- A symbol is known when it has an entry. -/
theorem Index.mem_iff {t : Index} {s : Symbol} : s ∈ t ↔ ∃ uses, t[s]? = some uses := by
  rw [Std.ExtTreeMap.mem_iff_isSome_getElem?, Option.isSome_iff_exists]

theorem Index.not_mem_iff {t : Index} {s : Symbol} : s ∉ t ↔ t[s]? = none := by
  rw [Std.ExtTreeMap.mem_iff_isSome_getElem?]
  simp

namespace Grammar

/-- The index agrees with the rules, and no rule stands under two numbers. -/
structure Indexed (g : Grammar) : Prop where
  /-- the productions of a known symbol are the rules that have it on the left -/
  productions_iff : ∀ {s : Symbol} {uses : Uses}, g.index[s]? = some uses →
    ∀ id, id ∈ uses.productions ↔ ∃ r, g.rules[id]? = some r ∧ r.lhs = s
  /-- the occurrences of a known symbol are the rules that have it on the right -/
  occurrences_iff : ∀ {s : Symbol} {uses : Uses}, g.index[s]? = some uses →
    ∀ id, id ∈ uses.occurrences ↔ ∃ r, g.rules[id]? = some r ∧ s ∈ r.rhs
  /-- the left-hand side of every rule is known -/
  lhs_known : ∀ {id : RuleId} {r : Rule}, g.rules[id]? = some r → r.lhs ∈ g.index
  /-- one rule has one number -/
  unique : ∀ {i j : RuleId} {r : Rule}, g.rules[i]? = some r → g.rules[j]? = some r → i = j
  /-- a number that was given out is below the next one -/
  bounded : ∀ {id : RuleId} {r : Rule}, g.rules[id]? = some r → id < g.nextId

/-- The index agrees with the rules, and every symbol that is mentioned is known. -/
structure WellFormed (g : Grammar) : Prop extends Indexed g where
  /-- the symbols of every right-hand side are known -/
  rhs_known : ∀ {id : RuleId} {r : Rule}, g.rules[id]? = some r → ∀ x ∈ r.rhs, x ∈ g.index
  /-- a chosen start symbol is known -/
  start_known : ∀ {s : Symbol}, g.explicitStart = some s → s ∈ g.index

/-! ## Looking things up -/

/-- The productions of a symbol are listed in its entry of the index. -/
theorem mem_productions {g : Grammar} {s : Symbol} {id : RuleId} :
    id ∈ g.productions s ↔ ∃ uses, g.index[s]? = some uses ∧ id ∈ uses.productions := by
  unfold productions
  cases g.index[s]? with
  | none => simp
  | some uses => simp

/-- The occurrences of a symbol are listed in its entry of the index. -/
theorem mem_occurrences {g : Grammar} {s : Symbol} {id : RuleId} :
    id ∈ g.occurrences s ↔ ∃ uses, g.index[s]? = some uses ∧ id ∈ uses.occurrences := by
  unfold occurrences
  cases g.index[s]? with
  | none => simp
  | some uses => simp

theorem rhs?_eq_some_iff {g : Grammar} {id : RuleId} {rhs : List Symbol} :
    g.rhs? id = some rhs ↔ ∃ r, g.rules[id]? = some r ∧ r.rhs = rhs :=
  Option.map_eq_some_iff

theorem getD_rhs? {g : Grammar} {id : RuleId} {r : Rule} (hr : g.rules[id]? = some r) :
    (g.rhs? id).getD [] = r.rhs := by
  rw [rhs?, hr]
  rfl

theorem pairwise_productions (g : Grammar) (s : Symbol) : (g.productions s).Pairwise (· < ·) := by
  unfold productions
  cases g.index[s]? with
  | none => exact .nil
  | some uses => exact Std.ExtTreeSet.ordered_toList.imp fun h => Std.compare_eq_lt.1 h

namespace Indexed

variable {g : Grammar}

/-- The productions of a symbol are the rules that have it on the left. -/
theorem mem_productions_iff (hg : g.Indexed) {s : Symbol} {id : RuleId} :
    id ∈ g.productions s ↔ ∃ r, g.rules[id]? = some r ∧ r.lhs = s := by
  rw [mem_productions]
  constructor
  · rintro ⟨uses, huses, hid⟩
    exact (hg.productions_iff huses id).1 hid
  · rintro ⟨r, hr, rfl⟩
    obtain ⟨uses, huses⟩ := Index.mem_iff.1 (hg.lhs_known hr)
    exact ⟨uses, huses, (hg.productions_iff huses id).2 ⟨r, hr, rfl⟩⟩

/-- A rule that is listed among the occurrences of a symbol is stored and mentions it. -/
theorem of_mem_occurrences (hg : g.Indexed) {s : Symbol} {id : RuleId}
    (hid : id ∈ g.occurrences s) : ∃ r, g.rules[id]? = some r ∧ s ∈ r.rhs := by
  obtain ⟨uses, huses, hid⟩ := mem_occurrences.1 hid
  exact (hg.occurrences_iff huses id).1 hid

/-- A rule is found by its content under its own number, and nothing else is found. -/
theorem findRule_eq_some_iff (hg : g.Indexed) {lhs : Symbol} {rhs : List Symbol} {id : RuleId} :
    g.findRule lhs rhs = some id ↔ g.rules[id]? = some ⟨lhs, rhs⟩ := by
  have hsound : ∀ i, i ∈ g.productions lhs → (g.rhs? i == some rhs) = true →
      g.rules[i]? = some ⟨lhs, rhs⟩ := by
    intro i hi hrhs
    obtain ⟨r, hr, hl⟩ := hg.mem_productions_iff.1 hi
    obtain ⟨r', hr', hrhs'⟩ := rhs?_eq_some_iff.1 (beq_iff_eq.1 hrhs)
    rw [hr, Option.some.injEq] at hr'
    subst hr'
    rw [hr, ← hl, ← hrhs']
  constructor
  · intro h
    have hcontent := List.find?_some h
    exact hsound id (List.mem_of_find?_eq_some h) hcontent
  · intro h
    have hid : id ∈ g.productions lhs := hg.mem_productions_iff.2 ⟨_, h, rfl⟩
    have hrhs : (g.rhs? id == some rhs) = true := by
      rw [beq_iff_eq, rhs?_eq_some_iff]
      exact ⟨_, h, rfl⟩
    cases hfind : g.findRule lhs rhs with
    | none =>
      exact absurd hrhs (List.find?_eq_none.1 hfind id hid)
    | some i =>
      have hcontent := List.find?_some hfind
      have hi := hsound i (List.mem_of_find?_eq_some hfind) hcontent
      rw [hg.unique hi h]

theorem findRule_eq_none_iff (hg : g.Indexed) {lhs : Symbol} {rhs : List Symbol} :
    g.findRule lhs rhs = none ↔ ∀ id : RuleId, g.rules[id]? ≠ some ⟨lhs, rhs⟩ := by
  rw [Option.eq_none_iff_forall_ne_some]
  exact forall_congr' fun id => not_congr hg.findRule_eq_some_iff

/-- The productions of a symbol are listed in the order of their numbers. -/
theorem productions_eq (hg : g.Indexed) (s : Symbol) :
    g.productions s = (g.numberedRules.filter fun entry => entry.2.lhs == s).map Prod.fst := by
  refine List.Pairwise.eq_of_mem_iff (pairwise_productions g s) ?_ fun id => ?_
  · rw [List.pairwise_map]
    apply List.Pairwise.sublist List.filter_sublist
    exact Std.ExtTreeMap.ordered_keys_toList.imp fun h => Std.compare_eq_lt.1 h
  · rw [hg.mem_productions_iff]
    simp [numberedRules, Std.ExtTreeMap.mem_toList_iff_getElem?_eq_some]

/-- A symbol has no more productions than there are rules. -/
theorem length_productions_le (hg : g.Indexed) (s : Symbol) :
    (g.productions s).length ≤ g.size := by
  rw [hg.productions_eq, List.length_map, size, ← Std.ExtTreeMap.length_toList]
  exact List.length_filter_le _ _

/-- The symbols that the productions mention are listed in the same order. -/
theorem successors_eq (hg : g.Indexed) (s : Symbol) :
    g.successors s =
      (g.numberedRules.filter fun entry => entry.2.lhs == s).flatMap fun entry => entry.2.rhs := by
  rw [successors, hg.productions_eq, List.flatMap_map]
  refine List.flatMap_congr fun entry hentry => ?_
  have hstored : g.rules[entry.1]? = some entry.2 :=
    Std.ExtTreeMap.mem_toList_iff_getElem?_eq_some.1 (List.mem_filter.1 hentry).1
  simp [rhs?, hstored]

theorem containsRule_iff (hg : g.Indexed) {r : Rule} :
    g.containsRule r = true ↔ ∃ id : RuleId, g.rules[id]? = some r := by
  rw [containsRule, Option.isSome_iff_exists]
  exact exists_congr fun id => hg.findRule_eq_some_iff

end Indexed

/-- The occurrences of a symbol are the rules that have it on the right. -/
theorem WellFormed.mem_occurrences_iff {g : Grammar} (hg : g.WellFormed) {s : Symbol}
    {id : RuleId} : id ∈ g.occurrences s ↔ ∃ r, g.rules[id]? = some r ∧ s ∈ r.rhs := by
  constructor
  · exact hg.of_mem_occurrences
  · rintro ⟨r, hr, hs⟩
    obtain ⟨uses, huses⟩ := Index.mem_iff.1 (hg.rhs_known hr s hs)
    exact mem_occurrences.2 ⟨uses, huses, (hg.occurrences_iff huses id).2 ⟨r, hr, hs⟩⟩

/-- The entry of a symbol is empty when no rule mentions the symbol. -/
theorem Indexed.isEmpty_uses_iff {g : Grammar} (hg : g.Indexed) {s : Symbol} {uses : Uses}
    (hs : g.index[s]? = some uses) :
    uses.isEmpty = true ↔ ¬ ∃ (id : RuleId) (r : Rule), g.rules[id]? = some r ∧ s ∈ r.symbols := by
  rw [Uses.isEmpty, Bool.and_eq_true, Std.ExtTreeSet.isEmpty_iff, Std.ExtTreeSet.isEmpty_iff,
    Std.ExtTreeSet.eq_empty_iff_forall_not_mem, Std.ExtTreeSet.eq_empty_iff_forall_not_mem,
    ← forall_and, not_exists]
  refine forall_congr' fun id => ?_
  rw [hg.productions_iff hs, hg.occurrences_iff hs, ← not_or, ← exists_or]
  refine not_congr (exists_congr fun r => ?_)
  rw [← and_or_left, Rule.symbols, List.mem_cons, eq_comm (a := s)]

/-! ## Grammars with the same rules -/

/-- The uses of a symbol follow from the rules. -/
theorem Indexed.uses_eq {g h : Grammar} (hg : g.Indexed) (hh : h.Indexed)
    (hrules : ∀ (id : RuleId) (r : Rule), g.rules[id]? = some r ↔ h.rules[id]? = some r)
    {x : Symbol} {uses uses' : Uses} (huses : g.index[x]? = some uses)
    (huses' : h.index[x]? = some uses') : uses = uses' := by
  have hproductions : uses.productions = uses'.productions := by
    apply Std.ExtTreeSet.ext_mem
    intro id
    rw [hg.productions_iff huses, hh.productions_iff huses']
    simp only [hrules]
  have hoccurrences : uses.occurrences = uses'.occurrences := by
    apply Std.ExtTreeSet.ext_mem
    intro id
    rw [hg.occurrences_iff huses, hh.occurrences_iff huses']
    simp only [hrules]
  cases uses
  cases uses'
  congr

/-- An indexed grammar is known by its rules, its symbols, its next number and its chosen start. -/
theorem Indexed.eq_of_rules_iff {g h : Grammar} (hg : g.Indexed) (hh : h.Indexed)
    (hrules : ∀ (id : RuleId) (r : Rule), g.rules[id]? = some r ↔ h.rules[id]? = some r)
    (hindex : ∀ x, x ∈ g.index ↔ x ∈ h.index) (hnext : g.nextId = h.nextId)
    (hstart : g.explicitStart = h.explicitStart) : g = h := by
  have hrules' : g.rules = h.rules := by
    apply Std.ExtTreeMap.ext_getElem?
    intro id
    exact Option.ext (hrules id)
  have hindex' : g.index = h.index := by
    apply Std.ExtTreeMap.ext_getElem?
    intro x
    cases hx : g.index[x]? with
    | none => exact (Index.not_mem_iff.1 (mt (hindex x).2 (Index.not_mem_iff.2 hx))).symm
    | some uses =>
      obtain ⟨uses', huses'⟩ := Index.mem_iff.1 ((hindex x).1 (Index.mem_iff.2 ⟨uses, hx⟩))
      rw [huses', hg.uses_eq hh hrules hx huses']
  cases g
  cases h
  congr

/-! ## Storing a rule -/

theorem rules_storeRule (g : Grammar) (r : Rule) (k : RuleId) :
    (g.storeRule r).rules[k]? = if g.nextId = k then some r else g.rules[k]? := by
  simp [storeRule, Std.ExtTreeMap.getElem?_insert]

/-- The entry of a symbol after a rule was stored; the rule's own symbols have one. -/
theorem index_storeRule (g : Grammar) (r : Rule) (x : Symbol) :
    (g.storeRule r).index[x]? =
      if x ∈ r.symbols then
        some
          { productions :=
              if r.lhs = x then (g.index[x]?.getD Uses.none).productions.insert g.nextId
              else (g.index[x]?.getD Uses.none).productions
            occurrences :=
              if x ∈ r.rhs then (g.index[x]?.getD Uses.none).occurrences.insert g.nextId
              else (g.index[x]?.getD Uses.none).occurrences }
      else g.index[x]? := by
  simp only [storeRule, Index.getElem?_addOccurrences, Index.getElem?_addProduction, Rule.symbols,
    List.mem_cons]
  by_cases hl : r.lhs = x
  · subst hl
    by_cases hr : r.lhs ∈ r.rhs <;> simp [hr, Uses.addProduction, Uses.addOccurrence]
  · have hx : x ≠ r.lhs := fun he => hl he.symm
    by_cases hr : x ∈ r.rhs <;> simp [hl, hx, hr, Uses.addOccurrence]

theorem mem_index_storeRule {g : Grammar} {r : Rule} {x : Symbol} :
    x ∈ (g.storeRule r).index ↔ x ∈ r.symbols ∨ x ∈ g.index := by
  rw [Std.ExtTreeMap.mem_iff_isSome_getElem?, index_storeRule,
    Std.ExtTreeMap.mem_iff_isSome_getElem?]
  by_cases h : x ∈ r.symbols <;> simp [h]

/-- What the entry of a symbol says about the rules that were there before. -/
theorem WellFormed.mem_uses_iff {g : Grammar} (hg : g.WellFormed) (x : Symbol) (id : RuleId) :
    (id ∈ (g.index[x]?.getD Uses.none).productions ↔ ∃ r, g.rules[id]? = some r ∧ r.lhs = x) ∧
      (id ∈ (g.index[x]?.getD Uses.none).occurrences ↔ ∃ r, g.rules[id]? = some r ∧ x ∈ r.rhs) := by
  cases hx : g.index[x]? with
  | some uses => exact ⟨hg.productions_iff hx id, hg.occurrences_iff hx id⟩
  | none =>
    have hunknown : x ∉ g.index := Index.not_mem_iff.2 hx
    constructor
    · constructor
      · intro h
        simp [Uses.none] at h
      · rintro ⟨r, hr, rfl⟩
        exact absurd (hg.lhs_known hr) hunknown
    · constructor
      · intro h
        simp [Uses.none] at h
      · rintro ⟨r, hr, hxr⟩
        exact absurd (hg.rhs_known hr x hxr) hunknown

/-- Storing a rule that is not there keeps a grammar well formed. -/
theorem WellFormed.storeRule {g : Grammar} (hg : g.WellFormed) {r : Rule}
    (hnew : ∀ id : RuleId, g.rules[id]? ≠ some r) : (g.storeRule r).WellFormed := by
  have hfree : ∀ q, g.rules[g.nextId]? ≠ some q := fun q hq =>
    absurd (hg.bounded hq) (Nat.lt_irrefl _)
  refine ⟨⟨?_, ?_, ?_, ?_, ?_⟩, ?_, ?_⟩
  · intro x uses huses id
    obtain ⟨hproductions, -⟩ := hg.mem_uses_iff x id
    rw [index_storeRule] at huses
    rw [rules_storeRule]
    by_cases hid : g.nextId = id <;> grind [Rule.symbols]
  · intro x uses huses id
    obtain ⟨-, hoccurrences⟩ := hg.mem_uses_iff x id
    rw [index_storeRule] at huses
    rw [rules_storeRule]
    by_cases hid : g.nextId = id <;> grind [Rule.symbols]
  · intro id q hq
    rw [rules_storeRule] at hq
    rw [mem_index_storeRule]
    split at hq
    next =>
      rw [Option.some.injEq] at hq
      exact Or.inl (by simp [Rule.symbols, hq])
    next => exact Or.inr (hg.lhs_known hq)
  · intro i j q hi hj
    rw [rules_storeRule] at hi hj
    split at hi <;> split at hj
    next hi' hj' => rw [← hi', hj']
    next => exact absurd (hi ▸ hj) (hnew j)
    next => exact absurd (hj ▸ hi) (hnew i)
    next => exact hg.unique hi hj
  · intro id q hq
    rw [rules_storeRule] at hq
    show id < g.nextId + 1
    split at hq
    next hid => exact hid ▸ Nat.lt_succ_self _
    next => exact Nat.lt_succ_of_lt (hg.bounded hq)
  · intro id q hq x hx
    rw [rules_storeRule] at hq
    rw [mem_index_storeRule]
    split at hq
    next =>
      rw [Option.some.injEq] at hq
      exact Or.inl (by simp [Rule.symbols, hq, hx])
    next => exact Or.inr (hg.rhs_known hq x hx)
  · intro s hs
    exact mem_index_storeRule.2 (Or.inr (hg.start_known hs))

/-! ## Erasing a rule -/

theorem rules_eraseRule (g : Grammar) (id k : RuleId) :
    (g.eraseRule id).value.rules[k]? = if id = k then none else g.rules[k]? := by
  unfold eraseRule
  split
  next h =>
    by_cases hk : id = k
    · subst hk
      simpa using h
    · simp [hk]
  next => simp [Std.ExtTreeMap.getElem?_erase]

/-- The entry of a symbol after a rule was erased. -/
theorem index_eraseRule {g : Grammar} {id : RuleId} {r : Rule} (h : g.rules[id]? = some r)
    (x : Symbol) :
    (g.eraseRule id).value.index[x]? =
      g.index[x]?.map fun uses =>
        { productions := if r.lhs = x then uses.productions.erase id else uses.productions
          occurrences := if x ∈ r.rhs then uses.occurrences.erase id else uses.occurrences } := by
  simp only [eraseRule, h, Logged.value_note, Index.getElem?_dropOccurrences,
    Index.getElem?_dropProduction]
  by_cases hl : r.lhs = x <;> by_cases hr : x ∈ r.rhs <;> cases g.index[x]? <;>
    simp [hl, hr, Uses.dropProduction, Uses.dropOccurrence]

theorem mem_index_eraseRule {g : Grammar} {id : RuleId} {x : Symbol} :
    x ∈ (g.eraseRule id).value.index ↔ x ∈ g.index := by
  cases h : g.rules[id]? with
  | none => simp [eraseRule, h]
  | some r =>
    rw [Std.ExtTreeMap.mem_iff_isSome_getElem?, index_eraseRule h,
      Std.ExtTreeMap.mem_iff_isSome_getElem?, Option.isSome_map]

@[simp] theorem nextId_eraseRule (g : Grammar) (id : RuleId) :
    (g.eraseRule id).value.nextId = g.nextId := by
  unfold eraseRule
  split <;> rfl

@[simp] theorem explicitStart_eraseRule (g : Grammar) (id : RuleId) :
    (g.eraseRule id).value.explicitStart = g.explicitStart := by
  unfold eraseRule
  split <;> rfl

/-- Erasing a rule keeps the index in step. -/
theorem Indexed.eraseRule {g : Grammar} (hg : g.Indexed) (id : RuleId) :
    (g.eraseRule id).value.Indexed := by
  cases hid : g.rules[id]? with
  | none => simpa [Grammar.eraseRule, hid] using hg
  | some q =>
    have hold : ∀ {k : RuleId} {r : Rule},
        (g.eraseRule id).value.rules[k]? = some r → g.rules[k]? = some r := by
      intro k r hr
      rw [rules_eraseRule] at hr
      split at hr
      next => cases hr
      next => exact hr
    refine ⟨?_, ?_, ?_, ?_, ?_⟩
    · intro x uses huses k
      rw [index_eraseRule hid, Option.map_eq_some_iff] at huses
      obtain ⟨before, hbefore, rfl⟩ := huses
      have := hg.productions_iff hbefore k
      rw [rules_eraseRule]
      by_cases hk : id = k <;> grind
    · intro x uses huses k
      rw [index_eraseRule hid, Option.map_eq_some_iff] at huses
      obtain ⟨before, hbefore, rfl⟩ := huses
      have := hg.occurrences_iff hbefore k
      rw [rules_eraseRule]
      by_cases hk : id = k <;> grind
    · intro k r hr
      exact mem_index_eraseRule.2 (hg.lhs_known (hold hr))
    · intro i j r hi hj
      exact hg.unique (hold hi) (hold hj)
    · intro k r hr
      rw [nextId_eraseRule]
      exact hg.bounded (hold hr)

/-! ## Replacing a right-hand side -/

section Replace

variable {g : Grammar} {id : RuleId} {r : Rule} {rhs : List Symbol}

theorem rules_replaceRhs (h : g.rules[id]? = some r) (k : RuleId) :
    (g.replaceRhs id rhs).rules[k]? = if id = k then some ⟨r.lhs, rhs⟩ else g.rules[k]? := by
  simp [replaceRhs, h, Std.ExtTreeMap.getElem?_insert]

/-- The entry of a known symbol after a right-hand side was replaced. -/
theorem index_replaceRhs (h : g.rules[id]? = some r) (hknown : ∀ x ∈ rhs, x ∈ g.index)
    (x : Symbol) :
    (g.replaceRhs id rhs).index[x]? =
      g.index[x]?.map fun uses =>
        { productions := uses.productions
          occurrences :=
            if x ∈ rhs then (uses.occurrences.erase id).insert id
            else if x ∈ r.rhs then uses.occurrences.erase id else uses.occurrences } := by
  have hbefore : x ∈ rhs → ∃ uses, g.index[x]? = some uses := fun hx =>
    Index.mem_iff.1 (hknown x hx)
  simp only [replaceRhs, h, Index.getElem?_addOccurrences, Index.getElem?_dropOccurrences]
  by_cases hx : x ∈ rhs
  · obtain ⟨uses, huses⟩ := hbefore hx
    by_cases hr : x ∈ r.rhs
    · simp [hx, hr, huses, Uses.addOccurrence, Uses.dropOccurrence]
    · have hsame : (uses.occurrences.erase id).insert id = uses.occurrences.insert id := by
        apply Std.ExtTreeSet.ext_mem
        intro k
        grind
      simp [hx, hr, huses, Uses.addOccurrence, hsame]
  · by_cases hr : x ∈ r.rhs <;> simp [hx, hr, Uses.dropOccurrence]

theorem mem_index_replaceRhs (h : g.rules[id]? = some r) (hknown : ∀ x ∈ rhs, x ∈ g.index)
    {x : Symbol} : x ∈ (g.replaceRhs id rhs).index ↔ x ∈ g.index := by
  rw [Std.ExtTreeMap.mem_iff_isSome_getElem?, index_replaceRhs h hknown,
    Std.ExtTreeMap.mem_iff_isSome_getElem?, Option.isSome_map]

@[simp] theorem nextId_replaceRhs (g : Grammar) (id : RuleId) (rhs : List Symbol) :
    (g.replaceRhs id rhs).nextId = g.nextId := by
  unfold replaceRhs
  split <;> rfl

@[simp] theorem explicitStart_replaceRhs (g : Grammar) (id : RuleId) (rhs : List Symbol) :
    (g.replaceRhs id rhs).explicitStart = g.explicitStart := by
  unfold replaceRhs
  split <;> rfl

/-- Replacing a right-hand side keeps the index in step, unless another rule holds the new one. -/
theorem Indexed.replaceRhs (hg : g.Indexed) (h : g.rules[id]? = some r)
    (hknown : ∀ x ∈ rhs, x ∈ g.index)
    (hfresh : ∀ k : RuleId, k ≠ id → g.rules[k]? ≠ some ⟨r.lhs, rhs⟩) :
    (g.replaceRhs id rhs).Indexed := by
  refine ⟨?_, ?_, ?_, ?_, ?_⟩
  · intro x uses huses k
    rw [index_replaceRhs h hknown, Option.map_eq_some_iff] at huses
    obtain ⟨before, hbefore, rfl⟩ := huses
    have := hg.productions_iff hbefore k
    rw [rules_replaceRhs h]
    by_cases hk : id = k <;> grind
  · intro x uses huses k
    rw [index_replaceRhs h hknown, Option.map_eq_some_iff] at huses
    obtain ⟨before, hbefore, rfl⟩ := huses
    have := hg.occurrences_iff hbefore k
    rw [rules_replaceRhs h]
    by_cases hk : id = k <;> grind
  · intro k q hq
    rw [rules_replaceRhs h] at hq
    rw [mem_index_replaceRhs h hknown]
    split at hq
    next =>
      rw [← Option.some.inj hq]
      exact (hg.lhs_known h : r.lhs ∈ g.index)
    next => exact hg.lhs_known hq
  · intro i j q hi hj
    rw [rules_replaceRhs h] at hi hj
    split at hi <;> split at hj
    next hi' hj' => rw [← hi', hj']
    next hne => exact absurd (hi ▸ hj) (hfresh j (Ne.symm hne))
    next hne _ => exact absurd (hj ▸ hi) (hfresh i (Ne.symm hne))
    next => exact hg.unique hi hj
  · intro k q hq
    rw [rules_replaceRhs h] at hq
    rw [nextId_replaceRhs]
    split at hq
    next hk => exact hk ▸ hg.bounded h
    next => exact hg.bounded hq

end Replace

end Grammar

end EditableGrammar
