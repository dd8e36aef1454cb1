import EditableGrammar.Proofs.Language.Expansion
import EditableGrammar.Proofs.Recursion.Guarantees
import EditableGrammar.Proofs.Recursion.Run

set_option autoImplicit false

/-!
# The work list runs empty

What is missing for a symbol is put before it with all repetitions, so the work list may grow and
may hold a symbol many times.  It runs empty all the same where derivation ends, and if nothing is
expanded at first, only there (`exists_run_iff`).  The budget of steps is never what stops it.

Everything else about the work is a matter of single steps.  A step combines a symbol only when it
is not expanded yet and all symbols of its productions are, and then it is expanded from that step
on.  So no symbol is combined twice, and none before its turn.
-/

namespace EditableGrammar

namespace Expanding

open Grammar Recursion

variable {g : Grammar} {e : Expanding} {s x y : Symbol}

/-- The next state of the work, if the list is not empty. -/
def next? (g : Grammar) (e : Expanding) : Option Expanding :=
  if e.pending.isEmpty then none else some (step g e)

/-- The symbol that is combined next, if the next step combines one. -/
def combining (g : Grammar) (e : Expanding) : Option Symbol :=
  match e.pending with
  | [] => none
  | s :: _ =>
    if e.known.contains s then none
    else
      match missing g e.known s with
      | [] => some s
      | _ :: _ => none

/-- With a symbol all symbols of its productions are expanded. -/
def Closed (g : Grammar) (known : Expansions) : Prop :=
  ∀ {x y : Symbol}, x ∈ known → g.Leads x y → y ∈ known

/-! ## What a step combines -/

/-- A symbol is combined from what is known so far, and nothing else makes a symbol known. -/
theorem known_step (g : Grammar) (e : Expanding) :
    (step g e).known =
      match combining g e with
      | none => e.known
      | some s => e.known.insert s (combine g e.known s) := by
  obtain ⟨pending, known⟩ := e
  cases pending with
  | nil => rfl
  | cons s rest =>
    simp only [step, combining]
    split
    next => rfl
    next => cases missing g known s <;> rfl

/-- A symbol is combined when it is not expanded and everything that it leads to is. -/
theorem of_combining (hg : g.Indexed) (h : combining g e = some s) :
    s ∉ e.known ∧ ∀ y, g.Leads s y → y ∈ e.known := by
  obtain ⟨pending, known⟩ := e
  cases pending with
  | nil => cases h
  | cons t rest =>
    simp only [combining] at h
    split at h
    next => cases h
    next hunknown =>
      cases hmissing : missing g known t with
      | cons a absent =>
        rw [hmissing] at h
        cases h
      | nil =>
        rw [hmissing] at h
        cases h
        refine ⟨by simpa using hunknown, fun y hy => ?_⟩
        by_contra habsent
        have hmem : y ∈ missing g known s :=
          mem_missing.2 ⟨hg.mem_successors_iff.2 hy,
            Bool.eq_false_iff.2 fun hknown => habsent (Std.ExtTreeMap.mem_iff_contains.2 hknown)⟩
        rw [hmissing] at hmem
        cases hmem

theorem mem_known_step : x ∈ (step g e).known ↔ x ∈ e.known ∨ combining g e = some x := by
  rw [known_step]
  cases combining g e with
  | none => simp
  | some s => simp [Std.ExtTreeMap.mem_insert, or_comm]

theorem Closed.step (hg : g.Indexed) (hclosed : Closed g e.known) :
    Closed g (step g e).known := by
  intro x y hx hxy
  rw [mem_known_step] at hx ⊢
  rcases hx with hx | hx
  · exact Or.inl (hclosed hx hxy)
  · exact Or.inl ((of_combining hg hx).2 y hxy)

/-! ## Runs of the work -/

theorem next?_eq_none_iff : next? g e = none ↔ e.pending = [] := by
  simp [next?]

theorem next?_eq_some_iff {e' : Expanding} :
    next? g e = some e' ↔ e.pending ≠ [] ∧ step g e = e' := by
  simp [next?]

/-- No symbol is combined twice. -/
theorem nodup_combining {states : List Expanding} (hg : g.Indexed)
    (hrun : Run (next? g) e states) : (states.filterMap (combining g)).Nodup := by
  refine (hrun.nodup_filterMap (fun _ => True) (fun e x => x ∉ e.known)
    (fun _ _ => trivial) (fun _ hx => (of_combining hg hx).1) ?_ trivial).1
  intro e e' x _ hstep hx
  obtain ⟨-, rfl⟩ := next?_eq_some_iff.1 hstep
  rwa [mem_known_step, not_or] at hx

/-- Steps that empty the list are a run. -/
theorem exists_run_of_iterate {n : ℕ} {known : Expansions} (h : (step g)^[n] e = ⟨[], known⟩) :
    ∃ states, Run (next? g) e states ∧ states.length ≤ n + 1 ∧
      states.getLast? = some ⟨[], known⟩ := by
  induction n generalizing e with
  | zero =>
    rw [Function.iterate_zero_apply] at h
    subst h
    exact ⟨[⟨[], known⟩], .ends rfl, Nat.le_refl _, rfl⟩
  | succ n ih =>
    obtain ⟨states, hrun, hlength, hlast⟩ := ih h
    cases hnext : next? g e with
    | some e' =>
      obtain ⟨-, rfl⟩ := next?_eq_some_iff.1 hnext
      refine ⟨e :: states, .goesOn hnext hrun, Nat.succ_le_succ hlength, ?_⟩
      rw [List.getLast?_cons, hlast]
      rfl
    | none =>
      have hfixed : step g e = e := by
        unfold step
        rw [next?_eq_none_iff.1 hnext]
      rw [hfixed] at hrun
      exact ⟨states, hrun, Nat.le_succ_of_le hlength, hlast⟩

/-- The symbol that the work was begun for waits in the list until it is expanded, and if only
symbols from which derivation ends are expanded at first, only such ones ever are. -/
structure Waits (g : Grammar) (s : Symbol) (e : Expanding) : Prop where
  waits : s ∈ e.pending ∨ s ∈ e.known
  ends : ∀ x ∈ e.known, g.Ends x

theorem Waits.step (hg : g.Indexed) (h : Waits g s e) : Waits g s (step g e) := by
  refine ⟨?_, ?_⟩
  · rcases h.waits with hs | hs
    · obtain ⟨pending, known⟩ := e
      cases pending with
      | nil => cases hs
      | cons t rest =>
        cases hknown : known.contains t with
        | true =>
          rw [step_drop hknown]
          rcases List.mem_cons.1 hs with rfl | hs
          · exact Or.inr (Std.ExtTreeMap.mem_iff_contains.2 hknown)
          · exact Or.inl hs
        | false =>
          by_cases hnone : missing g known t = []
          · rw [step_expand hknown hnone]
            rcases List.mem_cons.1 hs with rfl | hs
            · exact Or.inr (by simp)
            · exact Or.inl hs
          · rw [step_wait hknown hnone]
            exact Or.inl (List.mem_append_right _ hs)
    · exact Or.inr (mem_known_step.2 (Or.inl hs))
  · intro x hx
    rcases mem_known_step.1 hx with hx | hx
    · exact h.ends x hx
    · exact Acc.intro x fun y hy => h.ends y ((of_combining hg hx).2 y hy)

/-- The work for a symbol ends just where derivation from it does, if nothing is known at first. -/
theorem exists_run_iff (hg : g.Indexed) :
    (∃ states, Run (next? g) ⟨[s], ∅⟩ states) ↔ g.Ends s := by
  constructor
  · rintro ⟨states, hrun⟩
    obtain ⟨last, hlast, hend⟩ := hrun.getLast?_eq
    have hstart : Waits g s ⟨[s], ∅⟩ := ⟨Or.inl (List.mem_singleton_self s), by simp⟩
    have hwaits : Waits g s last := by
      refine hrun.forall_kept ?_ hstart last (List.mem_of_getLast? hlast)
      intro e e' he hstep
      obtain ⟨-, rfl⟩ := next?_eq_some_iff.1 hstep
      exact he.step hg
    refine hwaits.ends s (hwaits.waits.resolve_left ?_)
    rw [next?_eq_none_iff.1 hend]
    exact List.not_mem_nil
  · intro hs
    obtain ⟨n, known, -, hn, -⟩ := exists_expanded hg hs ∅
    obtain ⟨states, hrun, -⟩ := exists_run_of_iterate hn
    exact ⟨states, hrun⟩

/-- The work for a symbol ends just where the grammar is finite from it, if nothing is expanded at
first.  Where it is finite the work ends whatever closed expansions it is begun with, and the budget
of steps is enough for that.  Every symbol is combined once at most, when all symbols of its
productions are expanded, and in the end the symbol that the work was begun for is expanded. -/
theorem ofHistory_expansion_ends (edits : List Edit) (s : Symbol) :
    let g := ofHistory edits
    ((∃ states, Run (next? g) ⟨[s], ∅⟩ states) ↔ g.isFiniteFrom s = true) ∧
    (g.isFiniteFrom s = true → ∀ known, Closed g known →
      ∃ states last, Run (next? g) ⟨[s], known⟩ states ∧ states.length ≤ budget g + 1 ∧
        states.getLast? = some last ∧ last = run g (budget g) ⟨[s], known⟩ ∧
        last.pending = [] ∧ s ∈ last.known ∧
        (states.filterMap (combining g)).Nodup ∧
        ∀ e ∈ states, Closed g e.known ∧
          ∀ x, combining g e = some x → ∀ y, g.Leads x y → y ∈ e.known) := by
  intro g
  have hg : g.Indexed := (ofHistory_wellFormed edits).toIndexed
  rw [hg.isFiniteFrom_iff_ends]
  refine ⟨exists_run_iff hg, fun hends known hclosed => ?_⟩
  obtain ⟨n, known', henough, hn, hexpanded⟩ := exists_expanded hg hends known
  obtain ⟨states, hrun, hlength, hlast⟩ := exists_run_of_iterate hn
  have hkept : ∀ e ∈ states, Closed g e.known := by
    refine hrun.forall_kept ?_ hclosed
    intro e e' he hstep
    obtain ⟨-, rfl⟩ := next?_eq_some_iff.1 hstep
    exact he.step hg
  refine ⟨states, ⟨[], known'⟩, hrun, hlength.trans (Nat.succ_le_succ henough), hlast,
    (run_budget_eq henough hn).symm, rfl, ?_, nodup_combining hg hrun, ?_⟩
  · exact Std.ExtTreeMap.mem_iff_contains.2 (hexpanded.expanded s (List.mem_singleton_self s))
  · intro e he
    exact ⟨hkept e he, fun x hx => (of_combining hg hx).2⟩

/-- Symbols shared by several rules and repeated in them. -/
def sharingEdits : List Edit :=
  [.extend [⟨"S", ["A", "B", "A"]⟩, ⟨"S", ["B", "B"]⟩, ⟨"A", ["B", "c", "B"]⟩, ⟨"B", ["c"]⟩,
    ⟨"B", []⟩]]

theorem ofHistory_expansion_ends_sharing :
    (ofHistory sharingEdits).isFiniteFrom "S" = true ∧
      Closed (ofHistory sharingEdits) (Std.ExtTreeMap.ofList [("c", [["c"]])]) ∧
      ∃ states last,
        Run (next? (ofHistory sharingEdits)) ⟨["S"], Std.ExtTreeMap.ofList [("c", [["c"]])]⟩ states ∧
        states.getLast? = some last ∧ last.pending = [] ∧ "S" ∈ last.known ∧
        (states.filterMap (combining (ofHistory sharingEdits))).Nodup := by
  have hfinite : (ofHistory sharingEdits).isFiniteFrom "S" = true := by cbv
  have hclosed : Closed (ofHistory sharingEdits) (Std.ExtTreeMap.ofList [("c", [["c"]])]) := by
    have hterminal : (ofHistory sharingEdits).successors "c" = [] := by cbv
    intro x y hx hxy
    have hc : "c" = x := Std.compare_eq_iff_eq.1 (by simpa [eq_comm] using hx)
    rw [← hc, ← (ofHistory_wellFormed sharingEdits).mem_successors_iff, hterminal] at hxy
    cases hxy
  obtain ⟨states, last, hrun, -, hlast, -, hempty, hknown, hnodup, -⟩ :=
    (ofHistory_expansion_ends sharingEdits "S").2 hfinite _ hclosed
  exact ⟨hfinite, hclosed, states, last, hrun, hlast, hempty, hknown, hnodup⟩

end Expanding

end EditableGrammar
