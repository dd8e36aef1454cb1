import Mathlib.Data.List.Nodup
import Mathlib.Logic.Relation

set_option autoImplicit false

/-!
# Runs

A search takes one step after the other until no step is left.  `Run step a states` says that it
ends when it is begun in `a`, and that `states` are the states it goes through, the first and the
last among them.  As a step is a function of the state there is one run at most, so having a run is
what it means to end.

Two things are proved of a run from what single steps do.  What every step keeps holds of all states
(`Run.forall_kept`).  And what the states put out is put out once (`Run.nodup_filterMap`), if each
state puts out only what is ahead of it, if nothing gets ahead of a state that was not, and if what
was put out is not ahead of the next state any more.
-/

namespace EditableGrammar.Recursion

variable {State Output : Type} {step : State → Option State} {a b : State} {states : List State}

/-- All states that a search goes through from `a` until no step is left, in order. -/
inductive Run (step : State → Option State) : State → List State → Prop where
  | ends {a : State} (h : step a = none) : Run step a [a]
  | goesOn {a b : State} {states : List State} (h : step a = some b) (hrest : Run step b states) :
      Run step a (a :: states)

namespace Run

/-- Where every step leaves less work there is a run. -/
theorem exists_of_lt (work : State → Nat) (hwork : ∀ {a b}, step a = some b → work b < work a)
    (a : State) : ∃ states, Run step a states := by
  induction h : work a using Nat.strongRecOn generalizing a with
  | _ n ih =>
    cases hstep : step a with
    | none => exact ⟨[a], .ends hstep⟩
    | some b =>
      obtain ⟨states, hrun⟩ := ih (work b) (h ▸ hwork hstep) b rfl
      exact ⟨a :: states, .goesOn hstep hrun⟩

/-- Steps to a state in which none is left are a run. -/
theorem exists_of_steps (h : Relation.ReflTransGen (fun a b => step a = some b) a b)
    (hend : step b = none) : ∃ states, Run step a states ∧ states.getLast? = some b := by
  induction h using Relation.ReflTransGen.head_induction_on with
  | refl => exact ⟨[b], .ends hend, rfl⟩
  | head hstep _ ih =>
    obtain ⟨states, hrun, hlast⟩ := ih
    refine ⟨_ :: states, .goesOn hstep hrun, ?_⟩
    rw [List.getLast?_cons, hlast]
    rfl

/-- No step is left in the last state of a run. -/
theorem getLast?_eq (h : Run step a states) :
    ∃ b, states.getLast? = some b ∧ step b = none := by
  induction h with
  | ends h => exact ⟨_, rfl, h⟩
  | goesOn _ _ ih =>
    obtain ⟨b, hlast, hb⟩ := ih
    refine ⟨b, ?_, hb⟩
    rw [List.getLast?_cons, hlast]
    rfl

/-- What holds at first and is kept by every step holds of all states. -/
theorem forall_kept {Kept : State → Prop} (hstep : ∀ {a b}, Kept a → step a = some b → Kept b)
    (h : Run step a states) (ha : Kept a) : ∀ b ∈ states, Kept b := by
  induction h with
  | ends h => exact List.forall_mem_singleton.2 ha
  | goesOn h _ ih => exact List.forall_mem_cons.2 ⟨ha, ih (hstep ha h)⟩

/-- What is put out along a run is put out once, if it is ahead of the state that puts it out and
not ahead of any state after that. -/
theorem nodup_filterMap {put : State → Option Output} (Kept : State → Prop)
    (Ahead : State → Output → Prop)
    (hstep : ∀ {a b}, Kept a → step a = some b → Kept b)
    (hput : ∀ {a x}, Kept a → put a = some x → Ahead a x)
    (hahead : ∀ {a b x}, Kept a → step a = some b → Ahead b x → Ahead a x ∧ put a ≠ some x)
    (h : Run step a states) (ha : Kept a) :
    (states.filterMap put).Nodup ∧ ∀ x ∈ states.filterMap put, Ahead a x := by
  induction h with
  | @ends a h =>
    cases hx : put a with
    | none => simp [hx]
    | some x => simpa [hx] using hput ha hx
  | @goesOn a b states h _ ih =>
    obtain ⟨hnodup, hbelow⟩ := ih (hstep ha h)
    have hrest : ∀ x ∈ states.filterMap put, Ahead a x ∧ put a ≠ some x := fun x hx =>
      hahead ha h (hbelow x hx)
    cases hx : put a with
    | none =>
      rw [List.filterMap_cons_none hx]
      exact ⟨hnodup, fun y hy => (hrest y hy).1⟩
    | some x =>
      rw [List.filterMap_cons_some hx]
      refine ⟨List.nodup_cons.2 ⟨fun hmem => (hrest x hmem).2 hx, hnodup⟩, ?_⟩
      exact List.forall_mem_cons.2 ⟨hput ha hx, fun y hy => (hrest y hy).1⟩

end Run

end EditableGrammar.Recursion
