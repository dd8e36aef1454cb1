import EditableGrammar.Language.Sentences
import EditableGrammar.Proofs.Language.Derivation
import EditableGrammar.Proofs.Recursion.Reach

set_option autoImplicit false

/-!
# Expanding bottom up

The work list is looked at from its head.  Whatever stands there, some steps later it is gone and
expanded, what stood behind it is as it was, and everything expanded before still is: that is
`Expandable`, and it holds of every symbol from which derivation ends, whatever was expanded before.
The induction is on the symbols that a symbol leads to; those missing are put before it and are gone
by the same token.  That a symbol is expanded into the sentences it derives (`Correct`) is a matter
of single steps and needs no such induction.

The steps are paid for by the rules.  A rule whose left-hand side is not expanded has an open
account (`unpaid`) that covers its symbols and one step more, and expanding a symbol closes the
accounts of its productions.
-/

namespace EditableGrammar

namespace Expanding

open Grammar

variable {g : Grammar} {s : Symbol} {xs rest : List Symbol} {known known' : Expansions} {n : Nat}

/-- Every symbol expanded so far is expanded into the sentences it derives. -/
def Correct (g : Grammar) (known : Expansions) : Prop :=
  ∀ {x : Symbol} {ws : List Sentence}, known[x]? = some ws → ∀ w, w ∈ ws ↔ g.Derives x w

theorem Correct.empty (g : Grammar) : Correct g ∅ := by
  intro x ws hws
  simp at hws

/-! ## What one step does -/

theorem mem_missing {x : Symbol} :
    x ∈ missing g known s ↔ x ∈ g.successors s ∧ known.contains x = false := by
  simp [missing]

/-- With nothing missing, the alternatives at hand for a symbol of a production are what it
derives. -/
theorem mem_alternatives (hg : g.Indexed) (hcorrect : Correct g known)
    (hnone : missing g known s = []) {x : Symbol} (hx : g.Leads s x) (u : Sentence) :
    u ∈ known.getD x [] ↔ g.Derives x u := by
  have hknown : known.contains x = true := by
    by_contra hunknown
    have hmissing : x ∈ missing g known s :=
      mem_missing.2 ⟨hg.mem_successors_iff.2 hx, Bool.eq_false_iff.2 hunknown⟩
    rw [hnone] at hmissing
    cases hmissing
  obtain ⟨ws, hws⟩ := Option.isSome_iff_exists.1
    (Std.ExtTreeMap.mem_iff_isSome_getElem?.1 (Std.ExtTreeMap.mem_iff_contains.2 hknown))
  rw [Std.ExtTreeMap.getD_eq_getD_getElem?, hws]
  exact hcorrect hws u

/-- With nothing missing, a symbol is combined into the sentences it derives. -/
theorem mem_combine (hg : g.Indexed) (hcorrect : Correct g known) (hnone : missing g known s = [])
    (w : Sentence) : w ∈ combine g known s ↔ g.Derives s w := by
  have hproduct : ∀ {r : Rule}, r ∈ g.ruleSet → r.lhs = s →
      (w ∈ product (r.rhs.map fun x => known.getD x []) ↔
        ∃ ws, List.Forall₂ g.Derives r.rhs ws ∧ w = ws.flatten) := by
    intro r hr hl
    exact mem_product_map fun x hx =>
      mem_alternatives hg hcorrect hnone ⟨r, hr, hl, hx⟩
  unfold combine
  split
  next hnil =>
    have hterminal := hg.productions_eq_nil_iff.1 hnil
    rw [derives_iff, List.mem_singleton]
    constructor
    · intro hw
      exact Or.inl ⟨hterminal, hw⟩
    · rintro (⟨-, hw⟩ | ⟨r, hr, hl, -⟩)
      · exact hw
      · exact absurd hl (hterminal r hr)
  next hcons =>
    rw [mem_distinct, List.mem_flatMap, derives_iff]
    constructor
    · rintro ⟨id, hid, hw⟩
      obtain ⟨r, hr, hl⟩ := hg.mem_productions_iff.1 hid
      have hmem := mem_ruleSet.2 ⟨id, hr⟩
      rw [rhs?, hr] at hw
      exact Or.inr ⟨r, hmem, hl, (hproduct hmem hl).1 hw⟩
    · rintro (⟨hterminal, -⟩ | ⟨r, hr, hl, hws⟩)
      · exact absurd (hg.productions_eq_nil_iff.2 hterminal) hcons
      · obtain ⟨id, hid⟩ := mem_ruleSet.1 hr
        refine ⟨id, hg.mem_productions_iff.2 ⟨r, hid, hl⟩, ?_⟩
        rw [rhs?, hid]
        exact (hproduct hr hl).2 hws

/-- A symbol that is expanded already is dropped. -/
theorem step_drop (h : known.contains s = true) : step g ⟨s :: rest, known⟩ = ⟨rest, known⟩ := by
  simp [step, h]

/-- A symbol with nothing missing is expanded. -/
theorem step_expand (h : known.contains s = false) (hnone : missing g known s = []) :
    step g ⟨s :: rest, known⟩ = ⟨rest, known.insert s (combine g known s)⟩ := by
  simp [step, h, hnone]

/-- A symbol with something missing waits for it. -/
theorem step_wait (h : known.contains s = false) (hsome : missing g known s ≠ []) :
    step g ⟨s :: rest, known⟩ = ⟨(missing g known s).reverse ++ s :: rest, known⟩ := by
  unfold step
  simp only [h, Bool.false_eq_true, if_false]

/-- A symbol with nothing missing is expanded into the sentences it derives. -/
theorem Correct.insert_combine (hg : g.Indexed) (hcorrect : Correct g known)
    (hnone : missing g known s = []) : Correct g (known.insert s (combine g known s)) := by
  intro x ws hws w
  rw [Std.ExtTreeMap.getElem?_insert] at hws
  split at hws
  next hx =>
    rw [Std.compare_eq_iff_eq] at hx
    subst hx
    cases hws
    exact mem_combine hg hcorrect hnone w
  next => exact hcorrect hws w

/-- Every step keeps the expansions correct. -/
theorem Correct.step (hg : g.Indexed) {e : Expanding} (hcorrect : Correct g e.known) :
    Correct g (step g e).known := by
  obtain ⟨pending, known⟩ := e
  cases pending with
  | nil => exact hcorrect
  | cons s rest =>
    cases h : known.contains s with
    | true =>
      rw [step_drop h]
      exact hcorrect
    | false =>
      by_cases hnone : missing g known s = []
      · rw [step_expand h hnone]
        exact hcorrect.insert_combine hg hnone
      · rw [step_wait h hnone]
        exact hcorrect

theorem Correct.iterate (hg : g.Indexed) (n : Nat) {e : Expanding} (hcorrect : Correct g e.known) :
    Correct g ((Expanding.step g)^[n] e).known := by
  induction n generalizing e with
  | zero => exact hcorrect
  | succ n ih => exact ih (hcorrect.step hg)

/-! ## What the steps cost -/

/-- The steps that rules pay for: one for each symbol on the right, and one for putting these on the
list. -/
def price (rules : List (RuleId × Rule)) : Nat :=
  rules.foldr (fun entry steps => entry.2.rhs.length + 1 + steps) 0

theorem price_cons (entry : RuleId × Rule) (rules : List (RuleId × Rule)) :
    price (entry :: rules) = entry.2.rhs.length + 1 + price rules := rfl

/-- The steps that rules still pay for: those whose left-hand side is expanded pay no more. -/
def unpaid (known : Expansions) (rules : List (RuleId × Rule)) : Nat :=
  price (rules.filter fun entry => !known.contains entry.2.lhs)

/-- The rules of one symbol. -/
def rulesOf (g : Grammar) (s : Symbol) : List (RuleId × Rule) :=
  g.numberedRules.filter fun entry => entry.2.lhs == s

theorem budget_eq (g : Grammar) : budget g = unpaid ∅ g.numberedRules + 1 := by
  have hall : (g.numberedRules.filter fun entry =>
      !(∅ : Expansions).contains entry.2.lhs) = g.numberedRules :=
    List.filter_eq_self.2 fun entry _ => by simp
  rw [unpaid, hall, budget]
  induction g.numberedRules with
  | nil => rfl
  | cons entry rules ih =>
    rw [List.foldr_cons, ih, price_cons]
    omega

/-- What is expanded already saves steps. -/
theorem unpaid_le (known : Expansions) (rules : List (RuleId × Rule)) :
    unpaid known rules ≤ unpaid ∅ rules := by
  unfold unpaid
  induction rules with
  | nil => exact Nat.le_refl _
  | cons entry rules ih =>
    simp only [List.filter_cons, Std.ExtTreeMap.contains_empty, Bool.not_false, if_true,
      price_cons] at ih ⊢
    split
    next => exact Nat.add_le_add_left ih _
    next => exact Nat.le_trans ih (Nat.le_add_left _ _)

/-- Expanding a symbol for the first time uses up what its rules pay. -/
theorem unpaid_insert_add (h : known.contains s = false) (ws : List Sentence) :
    unpaid (known.insert s ws) g.numberedRules + price (rulesOf g s) =
      unpaid known g.numberedRules := by
  unfold unpaid rulesOf
  induction g.numberedRules with
  | nil => rfl
  | cons entry rules ih =>
    simp only [List.filter_cons, Std.ExtTreeMap.contains_insert] at ih ⊢
    by_cases hl : entry.2.lhs = s
    · simp only [hl, h, Std.compare_self, beq_self_eq_true, Bool.true_or, Bool.not_true,
        Bool.not_false, Bool.false_eq_true, if_true, if_false, price_cons]
      omega
    · have hne : (compare s entry.2.lhs == .eq) = false := by
        simpa using fun heq => hl heq.symm
      simp only [hne, beq_false_of_ne hl, Bool.false_or, Bool.false_eq_true, if_false]
      cases known.contains entry.2.lhs with
      | true => simpa using ih
      | false =>
        simp only [Bool.not_false, if_true, price_cons]
        omega

/-- The rules of a symbol pay for its successors and one step each. -/
theorem price_rulesOf (hg : g.Indexed) (s : Symbol) :
    price (rulesOf g s) = (g.successors s).length + (rulesOf g s).length := by
  rw [hg.successors_eq]
  unfold rulesOf
  induction g.numberedRules.filter fun entry => entry.2.lhs == s with
  | nil => rfl
  | cons entry rules ih =>
    rw [price_cons, List.flatMap_cons, List.length_append, List.length_cons, ih]
    omega

/-- A symbol that waits for something has a rule, so its rules pay for putting on the list whatever
is missing. -/
theorem length_missing_lt (hg : g.Indexed) (hsome : missing g known s ≠ []) :
    (missing g known s).length < price (rulesOf g s) := by
  have hle : (missing g known s).length ≤ (g.successors s).length := List.length_filter_le _ _
  have hrules : 0 < (rulesOf g s).length := by
    obtain ⟨x, hx⟩ := List.exists_mem_of_ne_nil _ hsome
    rw [mem_missing, hg.successors_eq, List.mem_flatMap] at hx
    obtain ⟨⟨entry, hentry, -⟩, -⟩ := hx
    exact List.length_pos_of_mem hentry
  rw [price_rulesOf hg]
  omega

/-! ## What becomes of the work list -/

/-- What expanding some symbols in `n` steps does. -/
structure Expanded (g : Grammar) (xs : List Symbol) (known known' : Expansions) (n : Nat) :
    Prop where
  kept : ∀ x, known.contains x = true → known'.contains x = true
  expanded : ∀ x ∈ xs, known'.contains x = true
  only_below : ∀ x, known'.contains x = true →
    known.contains x = true ∨ ∃ y ∈ xs, g.Reaches y x
  paid : n + unpaid known' g.numberedRules ≤ unpaid known g.numberedRules + xs.length

/-- Expanding nothing. -/
theorem Expanded.none (known : Expansions) : Expanded g [] known known 0 := by
  refine ⟨fun x hx => hx, ?_, fun x hx => Or.inl hx, Nat.le_of_eq ?_⟩
  · intro x hx
    cases hx
  · rw [Nat.zero_add, List.length_nil, Nat.add_zero]

/-- Some symbols at the head of the work list are expanded and gone after some steps, whatever is
behind them. -/
def Expandable (g : Grammar) (xs : List Symbol) : Prop :=
  ∀ (rest : List Symbol) (known : Expansions),
    ∃ n known', (step g)^[n] ⟨xs ++ rest, known⟩ = ⟨rest, known'⟩ ∧ Expanded g xs known known' n

/-- Symbols that are expandable one by one are expandable in a row. -/
theorem Expandable.row (h : ∀ x ∈ xs, Expandable g [x]) : Expandable g xs := by
  induction xs with
  | nil =>
    intro rest known
    exact ⟨0, known, rfl, .none known⟩
  | cons x xs ih =>
    intro rest known
    obtain ⟨m, known₁, hm, hfirst⟩ := h x List.mem_cons_self (xs ++ rest) known
    obtain ⟨n, known₂, hn, hothers⟩ :=
      ih (fun y hy => h y (List.mem_cons_of_mem _ hy)) rest known₁
    refine ⟨n + m, known₂, ?_, ?_, ?_, ?_, ?_⟩
    · rw [Function.iterate_add_apply]
      rw [List.singleton_append] at hm
      rw [List.cons_append, hm, hn]
    · intro y hy
      exact hothers.kept y (hfirst.kept y hy)
    · intro y hy
      rcases List.mem_cons.1 hy with rfl | hy
      · exact hothers.kept y (hfirst.expanded y List.mem_cons_self)
      · exact hothers.expanded y hy
    · intro y hy
      rcases hothers.only_below y hy with hy | ⟨z, hz, hzy⟩
      · rcases hfirst.only_below y hy with hy | ⟨z, hz, hzy⟩
        · exact Or.inl hy
        · rw [List.mem_singleton] at hz
          exact Or.inr ⟨x, List.mem_cons_self, hz ▸ hzy⟩
      · exact Or.inr ⟨z, List.mem_cons_of_mem _ hz, hzy⟩
    · have hpaidfirst := hfirst.paid
      have hpaidothers := hothers.paid
      simp only [List.length_cons, List.length_nil] at hpaidfirst ⊢
      omega

theorem contains_insert_iff {ws : List Sentence} {x : Symbol} :
    (known.insert s ws).contains x = true ↔ x = s ∨ known.contains x = true := by
  rw [Std.ExtTreeMap.contains_insert, Bool.or_eq_true, beq_iff_eq, Std.compare_eq_iff_eq,
    @eq_comm _ s]

/-- Once what a symbol leads to is expanded, expanding the symbol itself completes the work; there
are steps enough for that if its rules pay for the symbols put before it. -/
theorem Expanded.complete (hbelow : Expanded g xs known known' n)
    (hleads : ∀ x ∈ xs, g.Leads s x) (hlate : known'.contains s = false) {m : Nat}
    (hm : m + xs.length ≤ n + 1 + price (rulesOf g s)) :
    Expanded g [s] known (known'.insert s (combine g known' s)) m := by
  refine ⟨?_, ?_, ?_, ?_⟩
  · intro x hx
    exact contains_insert_iff.2 (Or.inr (hbelow.kept x hx))
  · intro x hx
    exact contains_insert_iff.2 (Or.inl (List.mem_singleton.1 hx))
  · intro x hx
    rcases contains_insert_iff.1 hx with rfl | hx
    · exact Or.inr ⟨x, List.mem_singleton_self x, .refl⟩
    · rcases hbelow.only_below x hx with hx | ⟨y, hy, hyx⟩
      · exact Or.inl hx
      · exact Or.inr ⟨s, List.mem_singleton_self s, .head (hleads y hy) hyx⟩
  · have hpaid := hbelow.paid
    have hrules := unpaid_insert_add (g := g) hlate (combine g known' s)
    simp only [List.length_singleton]
    omega

/-- Nothing that was missing is missing when it has been expanded. -/
theorem Expanded.missing_eq_nil (h : Expanded g (missing g known s).reverse known known' n) :
    missing g known' s = [] := by
  rw [List.eq_nil_iff_forall_not_mem]
  intro x hx
  obtain ⟨hx, hunknown⟩ := mem_missing.1 hx
  have hknown : known'.contains x = true := by
    cases hbefore : known.contains x with
    | true => exact h.kept x hbefore
    | false => exact h.expanded x (List.mem_reverse.2 (mem_missing.2 ⟨hx, hbefore⟩))
  rw [hunknown] at hknown
  cases hknown

/-- A symbol from which derivation ends is expandable. -/
theorem Expandable.of_ends (hg : g.Indexed) (hs : g.Ends s) : Expandable g [s] := by
  induction hs with
  | intro s hacc ih =>
    intro rest known
    have hstart : Expanded g [] known known 0 := Expanded.none known
    cases h : known.contains s with
    | true =>
      refine ⟨1, known, step_drop h, hstart.kept, ?_, fun x hx => Or.inl hx, ?_⟩
      · intro x hx
        rw [List.mem_singleton.1 hx]
        exact h
      · simp only [List.length_singleton]
        omega
    | false =>
      by_cases hnone : missing g known s = []
      · -- one step expands the symbol
        refine ⟨1, _, step_expand h hnone, hstart.complete ?_ h ?_⟩
        · intro x hx
          cases hx
        · simp only [List.length_nil]
          omega
      · -- one step puts what is missing first, and one expands the symbol after that
        have hleads : ∀ x ∈ (missing g known s).reverse, g.Leads s x := fun x hx =>
          hg.mem_successors_iff.1 (mem_missing.1 (List.mem_reverse.1 hx)).1
        obtain ⟨n, known', hn, hbelow⟩ :=
          Expandable.row (fun x hx => ih x (hleads x hx)) (s :: rest) known
        have hlate : known'.contains s = false := by
          rw [Bool.eq_false_iff]
          intro hearly
          rcases hbelow.only_below s hearly with hs | ⟨y, hy, hys⟩
          · rw [h] at hs
            cases hs
          · exact Ends.not_recursive (Acc.intro s hacc) (.head' (hleads y hy) hys)
        have hnone' := hbelow.missing_eq_nil
        refine ⟨1 + (n + 1), _, ?_, hbelow.complete hleads hlate ?_⟩
        · rw [Function.iterate_add_apply, Function.iterate_add_apply, Function.iterate_one,
            List.singleton_append, step_wait h hnone, hn, step_expand hlate hnone']
        · have hwait := length_missing_lt hg hnone
          rw [List.length_reverse]
          omega

/-! ## Running to the end -/

/-- Running is taking steps; with nothing left to do a step changes nothing. -/
theorem run_eq_iterate (n : Nat) (e : Expanding) : run g n e = (step g)^[n] e := by
  induction n generalizing e with
  | zero => rfl
  | succ n ih =>
    unfold run
    split
    next hempty =>
      have hfixed : step g e = e := by
        unfold step
        rw [List.isEmpty_iff.1 hempty]
      exact (Function.iterate_fixed hfixed _).symm
    next => exact ih (step g e)

/-- Where derivation ends, the work is done within the budget, whatever was expanded before. -/
theorem exists_expanded (hg : g.Indexed) (hs : g.Ends s) (known : Expansions) :
    ∃ n known', n ≤ budget g ∧ (step g)^[n] ⟨[s], known⟩ = ⟨[], known'⟩ ∧
      Expanded g [s] known known' n := by
  obtain ⟨n, known', hn, hexpanded⟩ := Expandable.of_ends hg hs [] known
  refine ⟨n, known', ?_, hn, hexpanded⟩
  have hpaid := hexpanded.paid
  have hless := unpaid_le known g.numberedRules
  rw [budget_eq]
  simp only [List.length_singleton] at hpaid
  omega

/-- Running to the budget is running to the end, if that is within the budget. -/
theorem run_budget_eq {e : Expanding} (henough : n ≤ budget g)
    (hn : (step g)^[n] e = ⟨[], known⟩) : run g (budget g) e = ⟨[], known⟩ := by
  have hfixed : step g ⟨[], known⟩ = ⟨[], known⟩ := rfl
  rw [run_eq_iterate, ← Nat.sub_add_cancel henough, Function.iterate_add_apply, hn,
    Function.iterate_fixed hfixed]

/-- The budget is enough where derivation ends: what comes out is what can be derived. -/
theorem mem_expand (hg : g.Indexed) (hs : g.Ends s) (w : Sentence) :
    w ∈ g.expand s ↔ g.Derives s w := by
  obtain ⟨n, known, henough, hn, hexpanded⟩ := exists_expanded hg hs ∅
  have hend := run_budget_eq henough hn
  have hcorrect : Correct g ((step g)^[n] ⟨[s], ∅⟩).known :=
    Correct.iterate hg n (Correct.empty g)
  rw [hn] at hcorrect
  have hknown := hexpanded.expanded s (List.mem_singleton_self s)
  obtain ⟨ws, hws⟩ := Option.isSome_iff_exists.1
    (Std.ExtTreeMap.mem_iff_isSome_getElem?.1 (Std.ExtTreeMap.mem_iff_contains.2 hknown))
  rw [expand, hend, Std.ExtTreeMap.getD_eq_getD_getElem?, hws]
  exact hcorrect hws w

end Expanding

end EditableGrammar
