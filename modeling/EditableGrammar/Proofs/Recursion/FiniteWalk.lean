import EditableGrammar.Proofs.Recursion.Reach
import EditableGrammar.Recursion.Finite

set_option autoImplicit false

/-!
# The finiteness walk decides recursion

The walk keeps one promise at every step.  Each open frame leads to the frame above it, and
whatever else its symbol leads to is still to be looked at or known to end.  So a symbol met again
on the path reaches itself, and a frame with nothing left to look at belongs to a symbol below which
everything ends.  `Indexed.isFiniteFrom_iff_ends` puts the two together.
-/

namespace EditableGrammar

namespace Recursion.Walk

variable {g : Grammar} {s : Symbol}

/-- The three kinds of steps with which the walk goes on. -/
inductive Action (g : Grammar) : Walk → Walk → Prop where
  /-- close a frame with nothing left to look at -/
  | close {t : Symbol} {outer : List Frame} {onPath finished : Std.ExtTreeSet Symbol} :
      Action g ⟨⟨t, []⟩ :: outer, onPath, finished⟩ ⟨outer, onPath.erase t, finished.insert t⟩
  /-- pass over a successor that is finished or unknown -/
  | skip {t x : Symbol} {pending : List Symbol} {outer : List Frame}
      {onPath finished : Std.ExtTreeSet Symbol} (hx : x ∈ finished ∨ x ∉ g.symbols) :
      Action g ⟨⟨t, x :: pending⟩ :: outer, onPath, finished⟩
        ⟨⟨t, pending⟩ :: outer, onPath, finished⟩
  /-- open a frame for a successor -/
  | enter {t x : Symbol} {pending : List Symbol} {outer : List Frame}
      {onPath finished : Std.ExtTreeSet Symbol} (hon : x ∉ onPath) (hfinished : x ∉ finished) :
      Action g ⟨⟨t, x :: pending⟩ :: outer, onPath, finished⟩
        ⟨Walk.enter g x :: ⟨t, pending⟩ :: outer, onPath.insert x, finished⟩

theorem Action.of_step {w w' : Walk} (h : step g w = .next w') : Action g w w' := by
  obtain ⟨stack, onPath, finished⟩ := w
  unfold Walk.step at h
  split at h
  next => cases h
  next t outer heq =>
    cases h
    dsimp only at heq
    subst heq
    exact .close
  next t x pending outer heq =>
    dsimp only at heq
    subst heq
    split at h
    next => cases h
    next hpath =>
      have hskip : (finished.contains x || !g.containsSymbol x) = true ↔
          x ∈ finished ∨ x ∉ g.symbols := by
        rw [Bool.or_eq_true, Bool.not_eq_true', ← Bool.not_eq_true, Grammar.containsSymbol_iff,
          Std.ExtTreeSet.contains_iff_mem]
      split at h
      next hx =>
        cases h
        exact .skip (hskip.1 hx)
      next hx =>
        cases h
        exact .enter (fun hon => hpath (Std.ExtTreeSet.mem_iff_contains.1 hon))
          fun hfinished => hx (hskip.2 (Or.inl hfinished))

/-- What holds of the open frames, `above` being the symbol of the frame opened last: a frame leads
to the frame above it, and all else that it leads to is still to be looked at or ends. -/
def Open (g : Grammar) (above : Option Symbol) : List Frame → Prop
  | [] => True
  | f :: outer =>
    (∀ x ∈ above, g.Leads f.symbol x) ∧
      (∀ x ∈ f.pending, g.Leads f.symbol x) ∧
      (∀ x, g.Leads f.symbol x → x ∈ f.pending ∨ x ∈ above ∨ g.Ends x) ∧
      Open g (some f.symbol) outer

/-- What every step of a walk from `s` keeps. -/
structure Kept (g : Grammar) (s : Symbol) (w : Walk) : Prop where
  frames_open : Open g none w.stack
  frames_reached : ∀ f ∈ w.stack, g.Reaches s f.symbol
  path_open : ∀ x ∈ w.onPath, ∃ f ∈ w.stack, f.symbol = x
  finished_ends : ∀ x ∈ w.finished, g.Ends x
  root_opened : (∃ f ∈ w.stack, f.symbol = s) ∨ g.Ends s

/-- Every open frame leads down to the frame opened last. -/
theorem Open.reaches_above {above : Symbol} {frames : List Frame}
    (h : Open g (some above) frames) :
    ∀ f ∈ frames, Relation.TransGen g.Leads f.symbol above := by
  induction frames generalizing above with
  | nil =>
    intro f hf
    cases hf
  | cons first outer ih =>
    obtain ⟨habove, -, -, houter⟩ := h
    have hfirst : g.Leads first.symbol above := habove above rfl
    intro f hf
    rcases List.mem_cons.1 hf with rfl | hf
    · exact Relation.TransGen.single hfirst
    · exact (ih houter f hf).tail hfirst

/-- When the frame above ends, the frames under it stay open. -/
theorem Open.close {above : Symbol} {frames : List Frame} (h : Open g (some above) frames)
    (hends : g.Ends above) : Open g none frames := by
  cases frames with
  | nil => trivial
  | cons f outer =>
    obtain ⟨-, hpending, hmet, houter⟩ := h
    refine ⟨?_, hpending, ?_, houter⟩
    · intro x hx
      cases hx
    · intro x hx
      rcases hmet x hx with hx | hx | hx
      · exact Or.inl hx
      · cases hx
        exact Or.inr (Or.inr hends)
      · exact Or.inr (Or.inr hx)

theorem Kept.start (hg : g.Indexed) (s : Symbol) : Kept g s (start g s) := by
  refine ⟨⟨?_, ?_, ?_, trivial⟩, ?_, ?_, ?_, ?_⟩
  · intro x hx
    cases hx
  · intro x hx
    exact hg.mem_successors_iff.1 hx
  · intro x hx
    exact Or.inl (hg.mem_successors_iff.2 hx)
  · intro f hf
    rw [List.mem_singleton.1 hf]
    exact Relation.ReflTransGen.refl
  · intro x hx
    refine ⟨enter g s, List.mem_singleton_self _, ?_⟩
    simpa [Walk.start, enter] using hx
  · intro x hx
    simp [Walk.start] at hx
  · exact Or.inl ⟨enter g s, List.mem_singleton_self _, rfl⟩

/-- A symbol that is finished or unknown ends. -/
theorem Kept.ends_of_skipped {w : Walk} (hg : g.Indexed) (hw : Kept g s w) {x : Symbol}
    (hx : x ∈ w.finished ∨ x ∉ g.symbols) : g.Ends x := by
  rcases hx with hx | hunknown
  · exact hw.finished_ends x hx
  · apply Grammar.Ends.of_not_leads
    intro b hb
    rw [← hg.mem_successors_iff, Grammar.successors_of_not_mem hunknown] at hb
    cases hb

section Step

variable {t x : Symbol} {pending : List Symbol} {outer : List Frame}
  {onPath finished : Std.ExtTreeSet Symbol}

/-- A frame with nothing left to look at may be closed: its symbol ends. -/
theorem Kept.close (hw : Kept g s ⟨⟨t, []⟩ :: outer, onPath, finished⟩) :
    Kept g s ⟨outer, onPath.erase t, finished.insert t⟩ := by
  obtain ⟨⟨-, -, hmet, houter⟩, hreached, hpath, hfinished, hroot⟩ := hw
  have hends : g.Ends t := by
    refine Acc.intro t fun x hx => ?_
    rcases hmet x hx with hx | hx | hx
    · cases hx
    · cases hx
    · exact hx
  refine ⟨houter.close hends, fun f hf => hreached f (List.mem_cons_of_mem _ hf), ?_, ?_, ?_⟩
  · intro x hx
    obtain ⟨hne, hx⟩ := Std.ExtTreeSet.mem_erase.1 hx
    obtain ⟨f, hf, rfl⟩ := hpath x hx
    rcases List.mem_cons.1 hf with rfl | hf
    · simp at hne
    · exact ⟨f, hf, rfl⟩
  · intro x hx
    rcases Std.ExtTreeSet.mem_insert.1 hx with hx | hx
    · rw [← Std.compare_eq_iff_eq.1 hx]
      exact hends
    · exact hfinished x hx
  · rcases hroot with ⟨f, hf, rfl⟩ | hroot
    · rcases List.mem_cons.1 hf with rfl | hf
      · exact Or.inr hends
      · exact Or.inl ⟨f, hf, rfl⟩
    · exact Or.inr hroot

/-- A successor that ends need not be looked at. -/
theorem Kept.skip (hw : Kept g s ⟨⟨t, x :: pending⟩ :: outer, onPath, finished⟩)
    (hends : g.Ends x) : Kept g s ⟨⟨t, pending⟩ :: outer, onPath, finished⟩ := by
  obtain ⟨⟨hnone, hpending, hmet, houter⟩, hreached, hpath, hfinished, hroot⟩ := hw
  refine ⟨⟨hnone, ?_, ?_, houter⟩, ?_, ?_, hfinished, ?_⟩
  · intro y hy
    exact hpending y (List.mem_cons_of_mem _ hy)
  · intro y hy
    rcases hmet y hy with hy | hy | hy
    · rcases List.mem_cons.1 hy with rfl | hy
      · exact Or.inr (Or.inr hends)
      · exact Or.inl hy
    · exact Or.inr (Or.inl hy)
    · exact Or.inr (Or.inr hy)
  · simpa using hreached
  · simpa using hpath
  · simpa using hroot

/-- A successor is entered above the frame that leads to it. -/
theorem Kept.enter (hg : g.Indexed)
    (hw : Kept g s ⟨⟨t, x :: pending⟩ :: outer, onPath, finished⟩) :
    Kept g s ⟨enter g x :: ⟨t, pending⟩ :: outer, onPath.insert x, finished⟩ := by
  obtain ⟨⟨-, hpending, hmet, houter⟩, hreached, hpath, hfinished, hroot⟩ := hw
  have hleads : g.Leads t x := hpending x List.mem_cons_self
  refine ⟨⟨?_, ?_, ?_, ?_, ?_, ?_, houter⟩, ?_, ?_, hfinished, ?_⟩
  · intro y hy
    cases hy
  · intro y hy
    exact hg.mem_successors_iff.1 hy
  · intro y hy
    exact Or.inl (hg.mem_successors_iff.2 hy)
  · intro y hy
    cases hy
    exact hleads
  · intro y hy
    exact hpending y (List.mem_cons_of_mem _ hy)
  · intro y hy
    rcases hmet y hy with hy | hy | hy
    · rcases List.mem_cons.1 hy with rfl | hy
      · exact Or.inr (Or.inl rfl)
      · exact Or.inl hy
    · cases hy
    · exact Or.inr (Or.inr hy)
  · intro f hf
    rcases List.mem_cons.1 hf with rfl | hf
    · exact (hreached ⟨t, x :: pending⟩ List.mem_cons_self).tail hleads
    · rcases List.mem_cons.1 hf with rfl | hf
      · exact hreached ⟨t, x :: pending⟩ List.mem_cons_self
      · exact hreached f (List.mem_cons_of_mem _ hf)
  · intro y hy
    rcases Std.ExtTreeSet.mem_insert.1 hy with hy | hy
    · exact ⟨Walk.enter g x, List.mem_cons_self, Std.compare_eq_iff_eq.1 hy⟩
    · obtain ⟨f, hf, rfl⟩ := hpath y hy
      rcases List.mem_cons.1 hf with rfl | hf
      · exact ⟨⟨t, pending⟩, by simp, rfl⟩
      · exact ⟨f, by simp [hf], rfl⟩
  · rcases hroot with ⟨f, hf, rfl⟩ | hroot
    · rcases List.mem_cons.1 hf with rfl | hf
      · exact Or.inl ⟨⟨t, pending⟩, by simp, rfl⟩
      · exact Or.inl ⟨f, by simp [hf], rfl⟩
    · exact Or.inr hroot

/-- A successor on the path closes a loop. -/
theorem Kept.recursive_of_onPath (hw : Kept g s ⟨⟨t, x :: pending⟩ :: outer, onPath, finished⟩)
    (hx : x ∈ onPath) : g.Reaches s x ∧ g.Recursive x := by
  obtain ⟨⟨-, hpending, -, houter⟩, hreached, hpath, -, -⟩ := hw
  have hleads : g.Leads t x := hpending x List.mem_cons_self
  obtain ⟨f, hf, hfx⟩ := hpath x hx
  refine ⟨hfx ▸ hreached f hf, ?_⟩
  rcases List.mem_cons.1 hf with rfl | hf
  · dsimp only at hfx
    exact hfx ▸ Relation.TransGen.single (hfx ▸ hleads)
  · have hdown := houter.reaches_above f hf
    rw [hfx] at hdown
    exact hdown.tail hleads

end Step

/-- Every step keeps the promise. -/
theorem Kept.step (hg : g.Indexed) {w w' : Walk} (hw : Kept g s w)
    (h : step g w = .next w') : Kept g s w' := by
  cases Action.of_step h with
  | close => exact hw.close
  | skip hx => exact hw.skip (Kept.ends_of_skipped hg hw hx)
  | enter => exact hw.enter hg

/-- A verdict tells whether derivation from the root ends, and shows a loop if it does not. -/
theorem Kept.verdict {w : Walk} (hw : Kept g s w) {finite : Bool}
    (h : Walk.step g w = .verdict finite) :
    (finite = true ∧ g.Ends s) ∨ (finite = false ∧ ∃ x, g.Reaches s x ∧ g.Recursive x) := by
  obtain ⟨stack, onPath, finished⟩ := w
  unfold Walk.step at h
  split at h
  next heq =>
    cases h
    dsimp only at heq
    subst heq
    rcases hw.root_opened with ⟨f, hf, -⟩ | hends
    · cases hf
    · exact Or.inl ⟨rfl, hends⟩
  next => cases h
  next t x pending outer heq =>
    dsimp only at heq
    subst heq
    split at h
    next hpath =>
      cases h
      exact Or.inr ⟨rfl, x, hw.recursive_of_onPath (Std.ExtTreeSet.mem_iff_contains.2 hpath)⟩
    next => split at h <;> cases h

theorem run_of_step_eq_verdict {w : Walk} {finite : Bool} (h : Walk.step g w = .verdict finite) :
    Walk.run g w = finite := by
  rw [Walk.run]
  split <;> simp_all

theorem run_of_step_eq_next {w w' : Walk} (h : Walk.step g w = .next w') :
    Walk.run g w = Walk.run g w' := by
  rw [Walk.run]
  split <;> simp_all

/-- A whole walk tells whether derivation from the root ends, and finds a loop if it does not. -/
theorem Kept.run (hg : g.Indexed) (w : Walk) (hw : Kept g s w) :
    (Walk.run g w = true ∧ g.Ends s) ∨
      (Walk.run g w = false ∧ ∃ x, g.Reaches s x ∧ g.Recursive x) := by
  induction w using Walk.run.induct g with
  | case1 w finite h =>
    rw [run_of_step_eq_verdict h]
    exact hw.verdict h
  | case2 w w' h ih =>
    rw [run_of_step_eq_next h]
    exact ih (hw.step hg h)

end Recursion.Walk

namespace Grammar

variable {g : Grammar} {s : Symbol}

/-- The walk says that a grammar is finite where derivation ends. -/
theorem Indexed.isFiniteFrom_iff_ends (hg : g.Indexed) : g.isFiniteFrom s = true ↔ g.Ends s := by
  rcases (Recursion.Walk.Kept.start hg s).run hg with ⟨hrun, hends⟩ | ⟨hrun, x, hx, hcycle⟩
  · exact iff_of_true hrun hends
  · have hnot : ¬ g.Ends s := fun hends => (hends.of_reaches hx).not_recursive hcycle
    refine iff_of_false ?_ hnot
    rw [isFiniteFrom, hrun]
    exact Bool.false_ne_true

/-- The walk says that a grammar is finite where no recursion can be reached. -/
theorem Indexed.isFiniteFrom_iff_not_recursive (hg : g.Indexed) :
    g.isFiniteFrom s = true ↔ ∀ x, g.Reaches s x → ¬ g.Recursive x := by
  rcases (Recursion.Walk.Kept.start hg s).run hg with ⟨hrun, hends⟩ | ⟨hrun, x, hx, hcycle⟩
  · exact iff_of_true hrun fun x hx => (hends.of_reaches hx).not_recursive
  · refine iff_of_false ?_ fun hnone => hnone x hx hcycle
    rw [isFiniteFrom, hrun]
    exact Bool.false_ne_true

/-- A finite grammar is still finite where symbols lead to less. -/
theorem Indexed.isFiniteFrom_mono {h : Grammar} (hg : g.Indexed) (hh : h.Indexed)
    (hle : ∀ a b, h.Leads a b → g.Leads a b) (hfinite : g.isFiniteFrom s = true) :
    h.isFiniteFrom s = true :=
  hh.isFiniteFrom_iff_ends.2 ((hg.isFiniteFrom_iff_ends.1 hfinite).mono hle)

theorem Indexed.isFinite_mono {h : Grammar} (hg : g.Indexed) (hh : h.Indexed)
    (hstart : h.startSymbol = g.startSymbol) (hle : ∀ a b, h.Leads a b → g.Leads a b)
    (hfinite : g.isFinite = true) : h.isFinite = true := by
  unfold isFinite at hfinite ⊢
  rw [hstart]
  cases hs : g.startSymbol with
  | none => rfl
  | some s =>
    rw [hs] at hfinite
    exact hg.isFiniteFrom_mono hh hle hfinite

end Grammar

end EditableGrammar
