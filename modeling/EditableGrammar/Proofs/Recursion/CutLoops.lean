import EditableGrammar.Proofs.Grammar.Edits
import EditableGrammar.Proofs.Recursion.FiniteWalk
import EditableGrammar.Proofs.Recursion.Plan

set_option autoImplicit false

/-!
# What cutting loops leaves

The cuts of a plan are made one after the other, and productions that become equal are merged on the
way.  `Trimming` holds at every moment: each stored rule is an original one or what the plan leaves
of it, and of every original rule there is still either.  A merge does no harm, since a rule with an
open cut mentions its path and so is never equal to what the plan leaves of another.

When all cuts are made, a symbol leads exactly where the plan spares the way
(`Leaves.leads_iff_spares`), and everything else about the result follows from the plan.
-/

namespace EditableGrammar

namespace Recursion.Survey

variable {g h : Grammar} {path : Paths} {root : Symbol}

/-- What the plan leaves of a rule. -/
def trimmed (path : Paths) (r : Rule) : Rule := ⟨r.lhs, trim path r⟩

@[simp] theorem rhs_trimmed (r : Rule) : (trimmed path r).rhs = trim path r := rfl

/-- Nothing more is cut from what the plan leaves. -/
theorem trimmed_trimmed (r : Rule) : trimmed path (trimmed path r) = trimmed path r := by
  have hoff : ∀ x ∈ (trimmed path r).rhs, x ∉ path (trimmed path r).lhs := fun x hx =>
    (mem_trim.1 hx).2
  show (⟨r.lhs, trim path (trimmed path r)⟩ : Rule) = ⟨r.lhs, trim path r⟩
  rw [trim_eq_self hoff, rhs_trimmed]

theorem trimmed_eq_self_iff {r : Rule} : trimmed path r = r ↔ trim path r = r.rhs := by
  constructor
  · intro heq
    exact congrArg Rule.rhs heq
  · intro heq
    rw [trimmed, heq]

/-- What holds of a grammar `h` that some cuts of a plan have made of `g`. -/
structure Trimming (g : Grammar) (path : Paths) (made : List Cut) (h : Grammar) : Prop where
  wellFormed : h.WellFormed
  known_iff : ∀ {x : Symbol}, x ∈ h.index ↔ x ∈ g.index
  origin : ∀ {id : RuleId} {q : Rule}, h.rules[id]? = some q →
    ∃ r, g.rules[id]? = some r ∧ (q = r ∨ q = trimmed path r)
  remains : ∀ {id : RuleId} {r : Rule}, g.rules[id]? = some r →
    h.rules[id]? = some r ∨ ∃ k : RuleId, h.rules[k]? = some (trimmed path r)
  cut_made : ∀ c ∈ made, ∀ {q : Rule}, h.rules[c.id]? = some q →
    ∃ r, g.rules[c.id]? = some r ∧ q = trimmed path r
  untouched : ∀ {id : RuleId} {r : Rule}, g.rules[id]? = some r →
    (∀ c ∈ made, ∀ {q : Rule}, g.rules[c.id]? = some q → q.lhs ≠ r.lhs) → h.rules[id]? = some r

theorem Trimming.start (hg : g.WellFormed) : Trimming g path [] g := by
  refine ⟨hg, Iff.rfl, ?_, ?_, ?_, ?_⟩
  · intro id q hq
    exact ⟨q, hq, Or.inl rfl⟩
  · intro id r hr
    exact Or.inl hr
  · intro c hc
    cases hc
  · intro id r hr _
    exact hr

/-- A cut in a rule that was merged away does nothing. -/
theorem Trimming.cut_merged {made : List Cut} (hh : Trimming g path made h) {c : Cut}
    (hgone : h.rules[c.id]? = none) : Trimming g path (c :: made) h := by
  refine ⟨hh.wellFormed, hh.known_iff, hh.origin, hh.remains, ?_, ?_⟩
  · intro c' hc' q hq
    rcases List.mem_cons.1 hc' with rfl | hc'
    · rw [hgone] at hq
      cases hq
    · exact hh.cut_made c' hc' hq
  · intro id q hq hnone
    exact hh.untouched hq fun c' hc' => hnone c' (List.mem_cons_of_mem _ hc')

/-- Making one more cut of the plan. -/
theorem Trimming.cut (hg : g.WellFormed) {made : List Cut} (hh : Trimming g path made h) {c : Cut}
    {r : Rule} (hr : g.rules[c.id]? = some r) (hkept : c.kept = trim path r) :
    Trimming g path (c :: made) (h.changeRhs c.id c.kept).value := by
  have hknown : ∀ x ∈ c.kept, x ∈ h.index := by
    intro x hx
    rw [hkept] at hx
    exact hh.known_iff.2 (hg.rhs_known hr x (mem_trim.1 hx).1)
  have hindexed := hh.wellFormed.toIndexed
  cases hcurrent : h.rules[c.id]? with
  | none =>
    rw [Grammar.changeRhs_of_erased hcurrent]
    exact hh.cut_merged hcurrent
  | some p =>
    -- the rule under the cut is the original one, or was cut before
    have hp : p = r ∨ p = trimmed path r := by
      obtain ⟨r', hr', hp⟩ := hh.origin hcurrent
      rw [hr, Option.some.injEq] at hr'
      exact hr' ▸ hp
    have hcontent : (⟨p.lhs, c.kept⟩ : Rule) = trimmed path r := by
      rcases hp with rfl | rfl <;> rw [hkept] <;> rfl
    have hnow : ∃ k : RuleId,
        (h.changeRhs c.id c.kept).value.rules[k]? = some (trimmed path r) := by
      obtain ⟨k, -, hk, -⟩ := hindexed.exists_changeRhs hcurrent c.kept
      exact ⟨k, hcontent ▸ hk⟩
    have hsound : ∀ {k : RuleId} {q : Rule},
        (h.changeRhs c.id c.kept).value.rules[k]? = some q →
          (k ≠ c.id ∧ h.rules[k]? = some q) ∨ (k = c.id ∧ q = trimmed path r) := by
      intro k q hq
      have := hindexed.rules_changeRhs_sound hcurrent hq
      rwa [hcontent] at this
    have hkeep : ∀ {k : RuleId} {q : Rule}, k ≠ c.id → h.rules[k]? = some q →
        q ≠ trimmed path r → (h.changeRhs c.id c.kept).value.rules[k]? = some q := by
      intro k q hk hq hne
      exact hindexed.rules_changeRhs_keep hcurrent hk hq (hcontent ▸ hne)
    refine ⟨hh.wellFormed.changeRhs c.id hknown, ?_, ?_, ?_, ?_, ?_⟩
    · intro x
      rw [hindexed.mem_index_changeRhs hknown]
      exact hh.known_iff
    · intro k q hq
      rcases hsound hq with ⟨-, hq⟩ | ⟨rfl, rfl⟩
      · exact hh.origin hq
      · exact ⟨r, hr, Or.inr rfl⟩
    · intro k q hq
      by_cases hsame : trimmed path q = trimmed path r
      · exact Or.inr (hsame ▸ hnow)
      · have hne : q ≠ trimmed path r := by
          rintro rfl
          exact hsame (trimmed_trimmed r)
        have hk : k ≠ c.id := by
          rintro rfl
          rw [hr, Option.some.injEq] at hq
          exact hsame (hq ▸ rfl)
        rcases hh.remains hq with hq | ⟨i, hi⟩
        · exact Or.inl (hkeep hk hq hne)
        · refine Or.inr ⟨i, hkeep ?_ hi hsame⟩
          rintro rfl
          rw [hcurrent, Option.some.injEq] at hi
          rcases hp with rfl | rfl
          · exact hsame (by rw [hi, trimmed_trimmed])
          · exact hsame hi.symm
    · intro c' hc' q hq
      rcases hsound hq with ⟨hk, hq⟩ | ⟨hk, rfl⟩
      · rcases List.mem_cons.1 hc' with rfl | hc'
        · exact absurd rfl hk
        · exact hh.cut_made c' hc' hq
      · exact ⟨r, hk ▸ hr, rfl⟩
    · intro k q hq hnone
      have hlhs : q.lhs ≠ p.lhs := by
        have hne : r.lhs ≠ q.lhs := hnone c List.mem_cons_self hr
        rcases hp with rfl | rfl
        · exact hne.symm
        · exact hne.symm
      have hq' := hh.untouched hq fun c' hc' => hnone c' (List.mem_cons_of_mem _ hc')
      exact (hindexed.rules_changeRhs_other hcurrent hlhs).2 hq'

/-- Making cuts of the plan, one after the other. -/
theorem Trimming.cuts (hg : g.WellFormed) {made left : List Cut} (hh : Trimming g path made h)
    (hleft : ∀ c ∈ left, ∃ r, g.rules[c.id]? = some r ∧ c.kept = trim path r) :
    Trimming g path (left.reverse ++ made)
      (left.foldl (fun h c => (h.changeRhs c.id c.kept).value) h) := by
  induction left generalizing made h with
  | nil => exact hh
  | cons c left ih =>
    obtain ⟨r, hr, hkept⟩ := hleft c List.mem_cons_self
    have := ih (hh.cut hg hr hkept) fun c' hc' => hleft c' (List.mem_cons_of_mem _ hc')
    simpa using this

/-! ## When all cuts are made -/

theorem Plan.kept_eq {cuts : List Cut} (hplan : Plan g root path cuts) :
    ∀ c ∈ cuts, ∃ r, g.rules[c.id]? = some r ∧ c.kept = trim path r := by
  intro c hc
  obtain ⟨r, hr, -, hcut, -⟩ := hplan.sound c hc
  exact ⟨r, hr, congrArg Cut.kept hcut⟩

/-- Where derivation ends there is nothing to cut. -/
theorem Plan.eq_nil_of_ends {cuts : List Cut} (hplan : Plan g root path cuts)
    (hends : g.Ends root) : cuts = [] := by
  rw [List.eq_nil_iff_forall_not_mem]
  intro c hc
  obtain ⟨r, hr, hreached, -, hcut⟩ := hplan.sound c hc
  refine hcut (trim_eq_self fun x hx hon => ?_)
  -- an occurrence on the path of its own rule would close a loop
  have hback : g.Recursive r.lhs :=
    Relation.TransGen.head' (Grammar.Leads.of_rule hr hx) (hplan.path_reaches r.lhs x hon).2
  exact (hends.of_reaches hreached).not_recursive hback

/-- Every cut of a plan loses something. -/
theorem Plan.lost_pos {cuts : List Cut} (hplan : Plan g root path cuts) :
    ∀ c ∈ cuts, 0 < c.lost := by
  intro c hc
  obtain ⟨r, -, -, heq, hcut⟩ := hplan.sound c hc
  have hshorter : (trim path r).length < r.rhs.length := by
    refine lt_of_le_of_ne (List.length_filter_le _ _) fun hlen => ?_
    exact hcut (List.filter_sublist.eq_of_length hlen)
  rw [heq]
  exact Nat.sub_pos_of_lt hshorter

/-- A plan with a cut loses something. -/
theorem Plan.totalLost_eq_zero_iff {cuts : List Cut} (hplan : Plan g root path cuts) :
    Cut.totalLost cuts = 0 ↔ cuts = [] := by
  cases cuts with
  | nil => simp [Cut.totalLost]
  | cons c cuts =>
    have hlost := hplan.lost_pos c List.mem_cons_self
    refine iff_of_false ?_ (List.cons_ne_nil _ _)
    show c.lost + Cut.totalLost cuts ≠ 0
    omega

/-- `h` holds exactly what a plan leaves of the rules of `g`. -/
structure Leaves (g : Grammar) (root : Symbol) (path : Paths) (h : Grammar) : Prop where
  wellFormed : h.WellFormed
  rule_left : ∀ {id : RuleId} {q : Rule}, h.rules[id]? = some q →
    ∃ r, g.rules[id]? = some r ∧ q = trimmed path r
  rule_found : ∀ {id : RuleId} {r : Rule}, g.rules[id]? = some r →
    ∃ k : RuleId, h.rules[k]? = some (trimmed path r)
  rule_kept : ∀ {id : RuleId} {r : Rule}, g.rules[id]? = some r →
    (∀ {k : RuleId} {q : Rule}, g.rules[k]? = some q → q.lhs = r.lhs → trim path q = q.rhs) →
    h.rules[id]? = some r
  path_reaches : ∀ a, ∀ x ∈ path a, g.Reaches root a ∧ g.Reaches x a
  spared_reaches : ∀ a, g.Reaches root a → Relation.ReflTransGen (Spares g path) root a
  spared_ends : Acc (fun b a => Spares g path a b) root

/-- A plan that was carried out leaves what it says. -/
theorem Plan.leaves {cuts made : List Cut} (hplan : Plan g root path cuts)
    (hh : Trimming g path made h) (hall : ∀ c, c ∈ made ↔ c ∈ cuts) : Leaves g root path h := by
  have hleft : ∀ {id : RuleId} {q : Rule}, h.rules[id]? = some q →
      ∃ r, g.rules[id]? = some r ∧ q = trimmed path r := by
    intro id q hq
    obtain ⟨r, hr, rfl | rfl⟩ := hh.origin hq
    · rcases hplan.complete hr with hsame | hcut
      · exact ⟨q, hr, (trimmed_eq_self_iff.2 hsame).symm⟩
      · exact hh.cut_made _ ((hall _).2 hcut) hq
    · exact ⟨r, hr, rfl⟩
  refine ⟨hh.wellFormed, hleft, ?_, ?_, hplan.path_reaches, hplan.spared_reaches,
    hplan.spared_ends⟩
  · intro id r hr
    rcases hh.remains hr with h | h
    · obtain ⟨r', hr', heq⟩ := hleft h
      rw [hr, Option.some.injEq] at hr'
      subst hr'
      exact ⟨id, heq ▸ h⟩
    · exact h
  · intro id r hr hnone
    apply hh.untouched hr
    intro c hc q hq hlhs
    obtain ⟨q', hq', -, -, htrim⟩ := hplan.sound c ((hall c).1 hc)
    rw [hq, Option.some.injEq] at hq'
    subst hq'
    exact htrim (hnone hq hlhs)

namespace Leaves

variable (hh : Leaves g root path h)

include hh

/-- A symbol leads where the plan spares the way. -/
theorem leads_iff_spares {a b : Symbol} : h.Leads a b ↔ Spares g path a b := by
  rw [Spares, Grammar.leads_iff, Grammar.leads_iff]
  constructor
  · rintro ⟨id, q, hq, rfl, hb⟩
    obtain ⟨r, hr, rfl⟩ := hh.rule_left hq
    obtain ⟨hb, hoff⟩ := mem_trim.1 hb
    exact ⟨⟨id, r, hr, rfl, hb⟩, hoff⟩
  · rintro ⟨⟨id, r, hr, rfl, hb⟩, hoff⟩
    obtain ⟨k, hk⟩ := hh.rule_found hr
    exact ⟨k, _, hk, rfl, mem_trim.2 ⟨hb, hoff⟩⟩

theorem leads_eq : h.Leads = Spares g path := by
  funext a b
  exact propext hh.leads_iff_spares

/-- Derivation from the root ends. -/
theorem ends : h.Ends root := by
  rw [Grammar.Ends, hh.leads_eq]
  exact hh.spared_ends

/-- Just what could be reached can be reached. -/
theorem reaches_iff {a : Symbol} : h.Reaches root a ↔ g.Reaches root a := by
  rw [Grammar.Reaches, hh.leads_eq]
  constructor
  · intro ha
    refine Relation.ReflTransGen.mono ?_ _ _ ha
    intro b c hbc
    exact hbc.1
  · exact hh.spared_reaches a

/-- Just the symbols that had productions have productions. -/
theorem productions_eq_nil_iff (hg : g.Indexed) {a : Symbol} :
    h.productions a = [] ↔ g.productions a = [] := by
  rw [List.eq_nil_iff_forall_not_mem, List.eq_nil_iff_forall_not_mem]
  constructor
  · intro hnone id hid
    obtain ⟨r, hr, rfl⟩ := hg.mem_productions_iff.1 hid
    obtain ⟨k, hk⟩ := hh.rule_found hr
    exact hnone k (hh.wellFormed.mem_productions_iff.2 ⟨_, hk, rfl⟩)
  · intro hnone id hid
    obtain ⟨q, hq, rfl⟩ := hh.wellFormed.mem_productions_iff.1 hid
    obtain ⟨r, hr, rfl⟩ := hh.rule_left hq
    exact hnone id (hg.mem_productions_iff.2 ⟨r, hr, rfl⟩)

/-- A rule stays if no cut can lie on a rule of its symbol. -/
theorem rule_stays {id : RuleId} {r : Rule} (hr : g.rules[id]? = some r)
    (hnone : ∀ x, g.Leads r.lhs x → x ∉ path r.lhs) : h.rules[id]? = some r := by
  apply hh.rule_kept hr
  intro k q hq hlhs
  refine trim_eq_self fun x hx => ?_
  rw [hlhs]
  exact hnone x (hlhs ▸ Grammar.Leads.of_rule hq hx)

end Leaves

end Recursion.Survey

namespace Grammar

variable {g : Grammar}

theorem value_cutLoops (g : Grammar) (root : Symbol) :
    (g.cutLoops root).value =
      (g.loopCuts root).foldl (fun h c => (h.changeRhs c.id c.kept).value) g := by
  simp [cutLoops]

/-- Cutting loops leaves what the plan of the survey leaves. -/
theorem WellFormed.cutLoops_leaves_paths (hg : g.WellFormed) (root : Symbol) :
    Recursion.Survey.Leaves g root (Recursion.Survey.paths g root) (g.cutLoops root).value := by
  have hplan := hg.plan root
  have hmade := (Recursion.Survey.Trimming.start hg).cuts hg hplan.kept_eq
  rw [← value_cutLoops] at hmade
  exact hplan.leaves hmade (by simp)

/-- Cutting loops leaves what some plan leaves. -/
theorem WellFormed.cutLoops_leaves (hg : g.WellFormed) (root : Symbol) :
    ∃ path, Recursion.Survey.Leaves g root path (g.cutLoops root).value :=
  ⟨_, hg.cutLoops_leaves_paths root⟩

theorem WellFormed.cutLoops (hg : g.WellFormed) (root : Symbol) :
    (g.cutLoops root).value.WellFormed := by
  obtain ⟨path, hleaves⟩ := hg.cutLoops_leaves root
  exact hleaves.wellFormed

/-- With its loops cut, a grammar is finite. -/
theorem WellFormed.isFiniteFrom_cutLoops (hg : g.WellFormed) (root : Symbol) :
    (g.cutLoops root).value.isFiniteFrom root = true :=
  (hg.cutLoops root).isFiniteFrom_iff_ends.2 (hg.cutLoops_leaves_paths root).ends

/-- Without cuts to make, cutting loops changes nothing. -/
theorem cutLoops_of_loopCuts_eq_nil {root : Symbol} (h : g.loopCuts root = []) :
    g.cutLoops root = .note (.cut 0 root) g := by
  unfold cutLoops
  rw [h]
  rfl

/-- Just where derivation is finite there are no cuts to make. -/
theorem WellFormed.loopCuts_eq_nil_iff (hg : g.WellFormed) {root : Symbol} :
    g.loopCuts root = [] ↔ g.isFiniteFrom root = true := by
  constructor
  · intro hnone
    have hfinite := hg.isFiniteFrom_cutLoops root
    rwa [cutLoops_of_loopCuts_eq_nil hnone] at hfinite
  · intro hfinite
    exact (hg.plan root).eq_nil_of_ends (hg.isFiniteFrom_iff_ends.1 hfinite)

theorem WellFormed.withoutLoops (hg : g.WellFormed) : g.withoutLoops.value.WellFormed := by
  unfold Grammar.withoutLoops
  cases hstart : g.startSymbol with
  | none => exact hg
  | some s => exact (hg.startAt (hg.startSymbol_known hstart)).cutLoops s

end Grammar

end EditableGrammar
