import EditableGrammar.Proofs.Recursion.CutLoops

set_option autoImplicit false

/-!
# Loops are cut by content

Two grammars may hold the same rules under different numbers, and different rules beside them.
`SameBelow` says that there is no difference in what can be reached from a symbol: the rules whose
left-hand side can be reached are the same.  Reaching a symbol and ending then mean the same in
both.

Numbers tell the productions of a symbol apart, but the survey looks at them in the order of their
right-hand sides.  So the two surveys of such grammars go the same way step by step (`Alike`), open
every symbol on the same path, and leave the same of every rule.
-/

namespace EditableGrammar

namespace Grammar

/-- The two grammars have the same rules below `s`, under whatever numbers: those whose left-hand
side can be reached from it. -/
def SameBelow (g₁ g₂ : Grammar) (s : Symbol) : Prop :=
  ∀ r : Rule, (r ∈ g₁.ruleSet ∧ g₁.Reaches s r.lhs) ↔ (r ∈ g₂.ruleSet ∧ g₂.Reaches s r.lhs)

/-- The rules that have one of the given symbols on the left, in order. -/
def rulesAmong (g : Grammar) (symbols : List Symbol) : List Rule :=
  g.ruleSet.toList.filter fun r => symbols.contains r.lhs

theorem mem_rulesAmong {g : Grammar} {symbols : List Symbol} {r : Rule} :
    r ∈ g.rulesAmong symbols ↔ r ∈ g.ruleSet ∧ r.lhs ∈ symbols := by
  rw [rulesAmong, List.mem_filter, Std.ExtTreeSet.mem_toList, List.contains_iff_mem]

namespace SameBelow

variable {g₁ g₂ : Grammar} {s a b : Symbol}

theorem symm (h : SameBelow g₁ g₂ s) : SameBelow g₂ g₁ s := fun r => (h r).symm

/-- Grammars with the same rules have the same rules below every symbol. -/
theorem of_ruleSet_eq (h : g₁.ruleSet = g₂.ruleSet) (s : Symbol) : SameBelow g₁ g₂ s := by
  have hleads : g₁.Leads = g₂.Leads := by
    unfold Leads
    rw [h]
  intro r
  rw [h, Reaches, Reaches, hleads]

/-- Below `s` a symbol leads to the same symbols. -/
theorem leads (h : SameBelow g₁ g₂ s) (ha : g₁.Reaches s a) (hab : g₁.Leads a b) :
    g₂.Leads a b := by
  obtain ⟨r, hr, rfl, hb⟩ := hab
  exact ⟨r, ((h r).1 ⟨hr, ha⟩).1, rfl, hb⟩

theorem reaches (h : SameBelow g₁ g₂ s) (ha : g₁.Reaches s a) : g₂.Reaches s a := by
  induction ha with
  | refl => exact Relation.ReflTransGen.refl
  | tail hb hbc ih => exact ih.tail (h.leads hb hbc)

theorem mem_ruleSet_iff (h : SameBelow g₁ g₂ s) {r : Rule} (hr : g₁.Reaches s r.lhs) :
    r ∈ g₁.ruleSet ↔ r ∈ g₂.ruleSet := by
  constructor
  · intro hmem
    exact ((h r).1 ⟨hmem, hr⟩).1
  · intro hmem
    exact ((h r).2 ⟨hmem, h.reaches hr⟩).1

/-- To have the same rules below `s` it is enough to have the same rules for some symbols that hold
`s` and everything their rules mention. -/
theorem of_rulesAmong_eq (symbols : List Symbol) (hs : s ∈ symbols)
    (hclosed : ∀ r ∈ g₁.rulesAmong symbols, ∀ x ∈ r.rhs, x ∈ symbols)
    (hsame : g₁.rulesAmong symbols = g₂.rulesAmong symbols) : SameBelow g₁ g₂ s := by
  have hbelow : ∀ {g g' : Grammar}, g.rulesAmong symbols = g'.rulesAmong symbols →
      (∀ r ∈ g.rulesAmong symbols, ∀ x ∈ r.rhs, x ∈ symbols) →
      ∀ {a : Symbol}, g.Reaches s a → a ∈ symbols ∧ g'.Reaches s a := by
    intro g g' hsame hclosed a ha
    induction ha with
    | refl => exact ⟨hs, Relation.ReflTransGen.refl⟩
    | tail _ hbc ih =>
      obtain ⟨r, hr, rfl, hc⟩ := hbc
      have hr' := mem_rulesAmong.2 ⟨hr, ih.1⟩
      exact ⟨hclosed r hr' _ hc, ih.2.tail ⟨r, (mem_rulesAmong.1 (hsame ▸ hr')).1, rfl, hc⟩⟩
  have hrules : ∀ {g g' : Grammar}, g.rulesAmong symbols = g'.rulesAmong symbols →
      (∀ r ∈ g.rulesAmong symbols, ∀ x ∈ r.rhs, x ∈ symbols) →
      ∀ r : Rule, r ∈ g.ruleSet ∧ g.Reaches s r.lhs → r ∈ g'.ruleSet ∧ g'.Reaches s r.lhs := by
    intro g g' hsame hclosed r hr
    obtain ⟨hlhs, hreached⟩ := hbelow hsame hclosed hr.2
    exact ⟨(mem_rulesAmong.1 (hsame ▸ mem_rulesAmong.2 ⟨hr.1, hlhs⟩)).1, hreached⟩
  intro r
  exact ⟨hrules hsame hclosed r, hrules hsame.symm (hsame ▸ hclosed) r⟩

/-- Derivation ends in both grammars or in none. -/
theorem ends (h : SameBelow g₁ g₂ s) (hends : g₁.Ends s) : g₂.Ends s := by
  have hbelow : ∀ a, g₁.Ends a → g₁.Reaches s a → g₂.Ends a := by
    intro a ha
    induction ha with
    | intro a _ ih =>
      intro hreached
      refine Acc.intro a fun b hab => ?_
      have hab' := h.symm.leads (h.reaches hreached) hab
      exact ih b hab' (hreached.tail hab')
  exact hbelow s hends Relation.ReflTransGen.refl

end SameBelow

end Grammar

namespace Recursion.Survey

open Grammar (SameBelow)

variable {g₁ g₂ : Grammar} {root : Symbol}

/-! ## The productions of a symbol -/

theorem mem_contents {g : Grammar} (hg : g.Indexed) {s : Symbol} {rhs : List Symbol} :
    rhs ∈ (productionsByContent g s).map Prod.snd ↔ (⟨s, rhs⟩ : Rule) ∈ g.ruleSet := by
  rw [List.mem_map, Grammar.mem_ruleSet]
  constructor
  · rintro ⟨⟨id, rhs'⟩, hmem, rfl⟩
    exact ⟨id, (mem_productionsByContent hg).1 hmem⟩
  · rintro ⟨id, hid⟩
    exact ⟨(id, rhs), (mem_productionsByContent hg).2 hid, rfl⟩

/-- The right-hand sides of a symbol are looked at in order, each of them once. -/
theorem ordered_contents {g : Grammar} (hg : g.Indexed) (s : Symbol) :
    ((productionsByContent g s).map Prod.snd).Pairwise fun a b => compare a b = .lt := by
  have hsorted : (productionsByContent g s).Pairwise fun a b => (compare a.2 b.2).isLE = true := by
    apply List.pairwise_mergeSort
    · intro a b c
      exact Std.TransCmp.isLE_trans
    · intro a b
      rw [Bool.or_eq_true, ← Std.OrientedCmp.isGE_iff_isLE]
      cases compare b.2 a.2 <;> simp
  have hnumbers : (productionsByContent g s).Pairwise fun a b => a.1 ≠ b.1 :=
    List.pairwise_map.1 (nodup_productionsByContent hg s)
  rw [List.pairwise_map]
  refine (hsorted.and hnumbers).imp_of_mem ?_
  intro a b ha hb h
  refine (Ordering.isLE_iff_eq_lt_or_eq_eq.1 h.1).resolve_right fun heq => h.2 ?_
  -- two productions with one right-hand side would be one rule under two numbers
  have ha' := (mem_productionsByContent hg).1 ha
  rw [Std.LawfulEqOrd.eq_of_compare heq] at ha'
  exact hg.unique ha' ((mem_productionsByContent hg).1 hb)

theorem contents_eq (hg₁ : g₁.Indexed) (hg₂ : g₂.Indexed) (hbelow : SameBelow g₁ g₂ root)
    {s : Symbol} (hs : g₁.Reaches root s) :
    (productionsByContent g₁ s).map Prod.snd = (productionsByContent g₂ s).map Prod.snd := by
  refine eq_of_strictly_ordered (ordered_contents hg₁ s) (ordered_contents hg₂ s) fun rhs => ?_
  rw [mem_contents hg₁, mem_contents hg₂]
  exact hbelow.mem_ruleSet_iff hs

/-! ## Two surveys side by side -/

/-- The same thing to do, under whatever number. -/
inductive SameVisit : Visit → Visit → Prop where
  | occurrence (x : Symbol) : SameVisit (.occurrence x) (.occurrence x)
  | settle (id₁ id₂ : RuleId) (rhs : List Symbol) : SameVisit (.settle id₁ rhs) (.settle id₂ rhs)

/-- The same symbol, with the same left to do in it. -/
inductive SameOpened : Opened → Opened → Prop where
  | mk {t : Symbol} {pending₁ pending₂ : List Visit}
      (hpending : List.Forall₂ SameVisit pending₁ pending₂) :
      SameOpened ⟨t, pending₁⟩ ⟨t, pending₂⟩

/-- Two surveys stand at the same place.  The cuts they have listed are not compared. -/
structure Alike (w₁ w₂ : Survey) : Prop where
  stack : List.Forall₂ SameOpened w₁.stack w₂.stack
  onPath : w₁.onPath = w₂.onPath
  finished : w₁.finished = w₂.finished

/-- A symbol that can be reached is opened alike. -/
theorem SameOpened.enter (hg₁ : g₁.Indexed) (hg₂ : g₂.Indexed) (hbelow : SameBelow g₁ g₂ root)
    {s : Symbol} (hs : g₁.Reaches root s) : SameOpened (enter g₁ s) (enter g₂ s) := by
  have hsame : List.Forall₂ (fun p₁ p₂ : RuleId × List Symbol => p₁.2 = p₂.2)
      (productionsByContent g₁ s) (productionsByContent g₂ s) := by
    rw [← List.forall₂_map_right_iff (R := fun (p : RuleId × List Symbol) rhs => p.2 = rhs),
      ← List.forall₂_map_left_iff (R := Eq), contents_eq hg₁ hg₂ hbelow hs]
    exact List.forall₂_refl _
  refine .mk (List.rel_flatMap hsame ?_)
  rintro ⟨id₁, rhs⟩ ⟨id₂, _⟩ rfl
  refine List.rel_append ?_ (.cons (.settle id₁ id₂ rhs) .nil)
  induction rhs with
  | nil => exact .nil
  | cons x rhs ih => exact .cons (.occurrence x) ih

/-- Surveys that stand at the same place note the same path. -/
theorem Alike.noted_eq {w₁ w₂ : Survey} (h : Alike w₁ w₂) (path : Paths) :
    noted path w₁ = noted path w₂ := by
  obtain ⟨stack₁, onPath, finished, cuts₁⟩ := w₁
  obtain ⟨stack₂, _, _, cuts₂⟩ := w₂
  obtain ⟨hstack, rfl, rfl⟩ := h
  cases hstack with
  | nil => rfl
  | cons hfirst _ =>
    cases hfirst
    rfl

theorem Alike.step_eq_none_iff {w₁ w₂ : Survey} (h : Alike w₁ w₂) :
    step g₁ w₁ = none ↔ step g₂ w₂ = none := by
  rw [Survey.step_eq_none_iff, Survey.step_eq_none_iff]
  constructor
  · intro hnone
    simpa [hnone] using h.stack
  · intro hnone
    simpa [hnone] using h.stack

/-- Where one survey has something to do next, the other has the same to do next. -/
theorem SameOpened.next {t : Symbol} {v : Visit} {pending : List Visit} {outer stack : List Opened}
    (h : List.Forall₂ SameOpened (⟨t, v :: pending⟩ :: outer) stack) :
    ∃ v' pending' outer', stack = ⟨t, v' :: pending'⟩ :: outer' ∧ SameVisit v v' ∧
      List.Forall₂ SameVisit pending pending' ∧ List.Forall₂ SameOpened outer outer' := by
  cases h with
  | cons hfirst houter =>
    cases hfirst with
    | mk hpending =>
      cases hpending with
      | cons hvisit hpending => exact ⟨_, _, _, rfl, hvisit, hpending, houter⟩

/-- Surveys that stand at the same place go on to the same place. -/
theorem Alike.step (hg₁ : g₁.WellFormed) (hg₂ : g₂.WellFormed) (hbelow : SameBelow g₁ g₂ root)
    {path : Paths} {w₁ w₂ w₁' w₂' : Survey} (hsearch : Search g₁ root path w₁)
    (h : Alike w₁ w₂) (h₁ : step g₁ w₁ = some w₁') (h₂ : step g₂ w₂ = some w₂') :
    Alike w₁' w₂' := by
  obtain ⟨stack₂, _, _, cuts₂⟩ := w₂
  obtain ⟨hstack, honPath, hfinished⟩ := h
  have hmove₂ := Move.of_step h₂
  cases Move.of_step h₁ with
  | close =>
    dsimp only at hstack honPath hfinished
    subst honPath hfinished
    cases hstack with
    | cons hfirst houter =>
      cases hfirst with
      | mk hpending =>
        cases hpending
        cases hmove₂
        exact ⟨houter, rfl, rfl⟩
  | settle =>
    dsimp only at hstack honPath hfinished
    subst honPath hfinished
    obtain ⟨_, pending', outer', rfl, hvisit, hpending, houter⟩ := SameOpened.next hstack
    cases hvisit
    cases hmove₂
    exact ⟨.cons (.mk hpending) houter, rfl, rfl⟩
  | @look t x pending outer onPath finished cuts hx =>
    dsimp only at hstack honPath hfinished
    subst honPath hfinished
    have hleads : g₁.Leads t x := hsearch.to_look _ List.mem_cons_self x List.mem_cons_self
    -- what a rule mentions is known, so the symbol was skipped because it was opened before
    have hentered : Entered onPath finished x :=
      hx.resolve_right fun hunknown => hunknown (hg₁.leads_known hleads)
    obtain ⟨_, pending', outer', rfl, hvisit, hpending, houter⟩ := SameOpened.next hstack
    cases hvisit
    cases hmove₂ with
    | look => exact ⟨.cons (.mk hpending) houter, rfl, rfl⟩
    | enter hon hfinished => exact absurd hentered (not_or.2 ⟨hon, hfinished⟩)
  | @enter t x pending outer onPath finished cuts hon hnew =>
    dsimp only at hstack honPath hfinished
    subst honPath hfinished
    have hleads : g₁.Leads t x := hsearch.to_look _ List.mem_cons_self x List.mem_cons_self
    have ht : g₁.Reaches root t := hsearch.reaches (Or.inl hsearch.stack_path.2.1)
    obtain ⟨_, pending', outer', rfl, hvisit, hpending, houter⟩ := SameOpened.next hstack
    cases hvisit
    cases hmove₂ with
    | look hx =>
      -- the other grammar knows the symbol as well, and has not opened it before
      have hknown := hg₂.leads_known (hbelow.leads ht hleads)
      exact absurd hx (not_or.2 ⟨not_or.2 ⟨hon, hnew⟩, not_not.2 hknown⟩)
    | enter =>
      have hopened := SameOpened.enter hg₁.toIndexed hg₂.toIndexed hbelow (ht.tail hleads)
      exact ⟨.cons hopened (.cons (.mk hpending) houter), rfl, rfl⟩

/-- Surveys that stand at the same place leave the same paths. -/
theorem Alike.record_eq (hg₁ : g₁.WellFormed) (hg₂ : g₂.WellFormed)
    (hbelow : SameBelow g₁ g₂ root) (w₁ : Survey) :
    ∀ (w₂ : Survey) (path : Paths), Search g₁ root path w₁ → Ledger g₁ path w₁ → Alike w₁ w₂ →
      record g₁ w₁ path = record g₂ w₂ path := by
  induction w₁ using run.induct g₁ with
  | case1 w₁ hend₁ =>
    intro w₂ path _ _ halike
    rw [record_of_step_eq_none hend₁, record_of_step_eq_none (halike.step_eq_none_iff.1 hend₁)]
  | case2 w₁ w₁' h₁ ih =>
    intro w₂ path hsearch hledger halike
    cases h₂ : Survey.step g₂ w₂ with
    | none =>
      rw [halike.step_eq_none_iff.2 h₂] at h₁
      cases h₁
    | some w₂' =>
      have halike' := halike.step hg₁ hg₂ hbelow hsearch h₁ h₂
      obtain ⟨hsearch', hledger'⟩ := step_keeps hg₁ hsearch hledger h₁
      rw [record_of_step_eq_some h₁, record_of_step_eq_some h₂, ← halike'.noted_eq]
      exact ih w₂' _ hsearch' hledger' halike'

/-- Grammars with the same rules below a symbol are surveyed from it along the same paths. -/
theorem paths_eq (hg₁ : g₁.WellFormed) (hg₂ : g₂.WellFormed) (hbelow : SameBelow g₁ g₂ root) :
    paths g₁ root = paths g₂ root := by
  refine Alike.record_eq hg₁ hg₂ hbelow _ _ _ (.start hg₁.toIndexed root)
    (.start hg₁.toIndexed root) ⟨?_, rfl, rfl⟩
  have hroot := SameOpened.enter hg₁.toIndexed hg₂.toIndexed hbelow Relation.ReflTransGen.refl
  exact .cons hroot .nil

/-! ## What is left of the rules -/

/-- The rules that are left are what the paths leave of the rules there were. -/
theorem Leaves.mem_ruleSet_iff {g h : Grammar} {path : Paths} (hh : Leaves g root path h)
    {q : Rule} : q ∈ h.ruleSet ↔ ∃ r ∈ g.ruleSet, q = trimmed path r := by
  rw [Grammar.mem_ruleSet]
  constructor
  · intro hq
    obtain ⟨id, hq⟩ := hq
    obtain ⟨r, hr, heq⟩ := hh.rule_left hq
    exact ⟨r, Grammar.mem_ruleSet.2 ⟨id, hr⟩, heq⟩
  · intro hq
    obtain ⟨r, hr, rfl⟩ := hq
    obtain ⟨id, hr⟩ := Grammar.mem_ruleSet.1 hr
    exact hh.rule_found hr

/-- Where the same paths are cut from the same rules, the same rules are left below the root. -/
theorem Leaves.sameBelow {h₁ h₂ : Grammar} {path : Paths} (hh₁ : Leaves g₁ root path h₁)
    (hh₂ : Leaves g₂ root path h₂) (hbelow : SameBelow g₁ g₂ root) : SameBelow h₁ h₂ root := by
  have hleft : ∀ {g g' h h' : Grammar}, Leaves g root path h → Leaves g' root path h' →
      SameBelow g g' root → ∀ q : Rule, q ∈ h.ruleSet ∧ h.Reaches root q.lhs →
        q ∈ h'.ruleSet ∧ h'.Reaches root q.lhs := by
    intro g g' h h' hh hh' hbelow q hq
    obtain ⟨hq, hreached⟩ := hq
    obtain ⟨r, hr, rfl⟩ := hh.mem_ruleSet_iff.1 hq
    obtain ⟨hr', hreached'⟩ := (hbelow r).1 ⟨hr, hh.reaches_iff.1 hreached⟩
    exact ⟨hh'.mem_ruleSet_iff.2 ⟨r, hr', rfl⟩, hh'.reaches_iff.2 hreached'⟩
  intro q
  exact ⟨hleft hh₁ hh₂ hbelow q, hleft hh₂ hh₁ hbelow.symm q⟩

end Recursion.Survey

namespace Grammar

variable {g₁ g₂ : Grammar}

/-- Cutting loops leaves the same rules below the root in both grammars. -/
theorem SameBelow.cutLoops {root : Symbol} (h : SameBelow g₁ g₂ root) (hg₁ : g₁.WellFormed)
    (hg₂ : g₂.WellFormed) : SameBelow (g₁.cutLoops root).value (g₂.cutLoops root).value root := by
  have hleaves₁ := hg₁.cutLoops_leaves_paths root
  rw [Recursion.Survey.paths_eq hg₁ hg₂ h] at hleaves₁
  exact hleaves₁.sameBelow (hg₂.cutLoops_leaves_paths root) h

/-- Cutting loops leaves the same rules of the same rules. -/
theorem ruleSet_cutLoops_eq (hg₁ : g₁.WellFormed) (hg₂ : g₂.WellFormed)
    (hsame : g₁.ruleSet = g₂.ruleSet) (root : Symbol) :
    (g₁.cutLoops root).value.ruleSet = (g₂.cutLoops root).value.ruleSet := by
  have hpaths := Recursion.Survey.paths_eq hg₁ hg₂ (.of_ruleSet_eq hsame root)
  apply Std.ExtTreeSet.ext_mem
  intro q
  rw [(hg₁.cutLoops_leaves_paths root).mem_ruleSet_iff,
    (hg₂.cutLoops_leaves_paths root).mem_ruleSet_iff, hpaths, hsame]

end Grammar

end EditableGrammar
