import EditableGrammar.Proofs.Recursion.Plan

set_option autoImplicit false

/-!
# Ways into a loop

The survey opens a symbol at the end of a way down from the root, and what it cuts from the
productions of the symbol are the occurrences of symbols on that way.  Another way may lead to the
same symbol past one of them.  It cannot where every loop has one entry: a symbol that leads back to
one on its path closes a loop, the way of the survey comes into this loop at the symbol it is cut
back to, and so every other way does.
-/

namespace EditableGrammar

namespace Grammar

variable {g : Grammar} {s a b x : Symbol} {way : List Symbol}

/-- A way down from `s`: the symbols on it, where it comes to first. -/
inductive Way (g : Grammar) (s : Symbol) : Symbol → List Symbol → Prop where
  /-- to stay -/
  | here : Way g s s [s]
  /-- to go on to a symbol that the last one leads to -/
  | down {a b : Symbol} {above : List Symbol} (h : Way g s a above) (hab : g.Leads a b) :
      Way g s b (b :: above)

/-- Every loop that can be reached from `s` has a symbol that every way from `s` into the loop
passes.  The loop is a way from `a` to `b` from which one step leads back. -/
def OneEntry (g : Grammar) (s : Symbol) : Prop :=
  ∀ (a b : Symbol) (loop : List Symbol), g.Reaches s a → g.Way a b loop → g.Leads b a →
    ∃ x ∈ loop, ∀ c ∈ loop, ∀ way, g.Way s c way → x ∈ way

namespace Way

theorem mem_last (h : g.Way s a way) : a ∈ way := by
  cases h with
  | here => exact List.mem_cons_self
  | down _ _ => exact List.mem_cons_self

theorem mem_first (h : g.Way s a way) : s ∈ way := by
  induction h with
  | here => exact List.mem_cons_self
  | down _ _ ih => exact List.mem_cons_of_mem _ ih

theorem reaches (h : g.Way s a way) : g.Reaches s a := by
  induction h with
  | here => exact Relation.ReflTransGen.refl
  | down _ hab ih => exact ih.tail hab

/-- A way comes to every symbol on it and goes on from there. -/
theorem split (h : g.Way s a way) (hx : x ∈ way) :
    ∃ below above, way = below ++ x :: above ∧ g.Way s x (x :: above) ∧
      g.Way x a (below ++ [x]) := by
  induction h with
  | here =>
    obtain rfl := List.mem_singleton.1 hx
    exact ⟨[], [], rfl, .here, .here⟩
  | @down a b above h hab ih =>
    rcases List.mem_cons.1 hx with rfl | hx
    · exact ⟨[], above, rfl, h.down hab, .here⟩
    · obtain ⟨below, above', rfl, hfirst, hsecond⟩ := ih hx
      exact ⟨b :: below, above', rfl, hfirst, hsecond.down hab⟩

end Way

/-- If every loop passes `s`, then `s` is where all loops are entered. -/
theorem OneEntry.of_start
    (h : ∀ {a b : Symbol} {loop : List Symbol}, g.Way a b loop → g.Leads b a → s ∈ loop) :
    g.OneEntry s := by
  intro a b loop _ hloop hback
  exact ⟨s, h hloop hback, fun c _ way hway => hway.mem_first⟩

end Grammar

namespace Recursion.Survey

variable {g : Grammar} {root : Symbol} {path : Paths} {w w' : Survey}

/-- The path of every opened symbol holds the symbols on a way from the root, none of which comes
twice. -/
def Walked (g : Grammar) (root : Symbol) (path : Paths) (w : Survey) : Prop :=
  ∀ a, Entered w.onPath w.finished a →
    ∃ way, g.Way root a way ∧ way.Nodup ∧ ∀ x, x ∈ way ↔ x ∈ path a

/-- A step opens no symbol, or one that an open symbol leads to. -/
theorem Search.opens (hw : Search g root path w) (h : step g w = some w') :
    (noted path w' = path ∧
        ∀ a, Entered w'.onPath w'.finished a → Entered w.onPath w.finished a) ∨
      ∃ t x, t ∈ w.onPath ∧ path t = w.onPath ∧ g.Leads t x ∧ x ∉ w.onPath ∧
        noted path w' = openPath path w.onPath x ∧
        ∀ a, Entered w'.onPath w'.finished a → a = x ∨ Entered w.onPath w.finished a := by
  cases Move.of_step h with
  | close =>
    obtain ⟨-, ht, houter⟩ := hw.stack_path
    exact Or.inl ⟨houter.noted_eq, fun a ha => (entered_close_iff ht).1 ha⟩
  | settle => exact Or.inl ⟨StackPath.noted_eq hw.stack_path, fun a ha => ha⟩
  | look => exact Or.inl ⟨StackPath.noted_eq hw.stack_path, fun a ha => ha⟩
  | @enter t x pending outer onPath finished cuts hon _ =>
    obtain ⟨htop, ht, -⟩ := hw.stack_path
    have hleads : g.Leads t x := hw.to_look _ List.mem_cons_self x List.mem_cons_self
    exact Or.inr ⟨t, x, ht, htop, hleads, hon, rfl, fun a ha => entered_enter_iff.1 ha⟩

theorem Walked.start (g : Grammar) (root : Symbol) :
    Walked g root (openPath (fun _ => ∅) ∅ root) (start g root) := by
  intro a ha
  have hroot : root = a := by simpa [Survey.start, Entered] using ha
  subst hroot
  refine ⟨[root], .here, List.nodup_singleton root, fun x => ?_⟩
  simp [openPath_self, eq_comm (a := x)]

theorem Walked.step (hwalked : Walked g root path w) (hw : Search g root path w)
    (h : step g w = some w') : Walked g root (noted path w') w' := by
  intro a ha
  rcases hw.opens h with ⟨hsame, hentered⟩ | ⟨t, x, ht, htop, hleads, hx, hnew, hentered⟩
  · rw [hsame]
    exact hwalked a (hentered a ha)
  · rw [hnew]
    by_cases hax : a = x
    · subst hax
      -- the way to the symbol that leads to the new one goes on to it
      obtain ⟨way, hway, hnodup, hmem⟩ := hwalked t (Or.inl ht)
      rw [htop] at hmem
      refine ⟨a :: way, hway.down hleads, List.nodup_cons.2 ⟨mt (hmem a).1 hx, hnodup⟩, fun y => ?_⟩
      rw [openPath_self, List.mem_cons, Std.ExtTreeSet.mem_insert, Std.compare_eq_iff_eq, hmem,
        eq_comm]
    · rw [openPath_of_ne hax]
      exact hwalked a ((hentered a ha).resolve_left hax)

end Recursion.Survey

namespace Grammar

variable {g : Grammar} {root a x : Symbol}

/-- The symbols on the path of a symbol are on a way to it on which no symbol comes twice. -/
theorem WellFormed.path_on_way (hg : g.WellFormed) (hx : x ∈ Recursion.Survey.paths g root a) :
    ∃ way, g.Way root a way ∧ way.Nodup ∧ x ∈ way := by
  obtain ⟨⟨hsearch, -⟩, hwalked⟩ := Recursion.Survey.record_keeps
    (P := fun path w => (Recursion.Survey.Search g root path w ∧ Recursion.Survey.Ledger g path w) ∧
      Recursion.Survey.Walked g root path w)
    (fun hkept hstep => ⟨Recursion.Survey.step_keeps hg hkept.1.1 hkept.1.2 hstep,
      hkept.2.step hkept.1.1 hstep⟩)
    (Recursion.Survey.start g root) _
    ⟨⟨.start hg.toIndexed root, .start hg.toIndexed root⟩, .start g root⟩
  obtain ⟨way, hway, hnodup, hmem⟩ := hwalked a (hsearch.path_reaches a x hx).1
  exact ⟨way, hway, hnodup, (hmem x).2 hx⟩

/-- Where every loop has one entry, an occurrence is cut only if every way to its rule passes the
symbol that occurs. -/
theorem OneEntry.mem_way (hone : g.OneEntry root) (hg : g.WellFormed)
    (hx : x ∈ Recursion.Survey.paths g root a) (hax : g.Leads a x) {way : List Symbol}
    (hway : g.Way root a way) : x ∈ way := by
  obtain ⟨first, hfirst, hnodup, hmem⟩ := hg.path_on_way hx
  obtain ⟨below, above, rfl, habove, hbelow⟩ := hfirst.split hmem
  obtain ⟨entry, hentry, hpasses⟩ := hone x a (below ++ [x]) habove.reaches hbelow hax
  -- the way of the survey enters the loop at `x`, since it comes to no symbol twice
  have hsame : entry = x := by
    have hfirst : entry ∈ x :: above := hpasses x (by simp) _ habove
    rcases List.mem_append.1 hentry with hbefore | hentry
    · exact absurd rfl ((List.nodup_append.1 hnodup).2.2 entry hbefore entry hfirst)
    · exact List.mem_singleton.1 hentry
  exact hsame ▸ hpasses a hbelow.mem_last way hway

end Grammar

end EditableGrammar
