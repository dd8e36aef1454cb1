import EditableGrammar.Proofs.Grammar.Chronicle

set_option autoImplicit false

/-!
# Edits that only take away

An edit that adds no rules leaves of the rules what they were, or less: every rule stored after it
was stored before it under the same number, or has lost occurrences since.  Rules that were changed
and merged are no exception.  So no symbol leads to another that it did not lead to before, and
where derivation ended it still ends.

Cutting the loops of one symbol may therefore be followed by cutting those of others, in any order:
no cut brings back what an earlier one has removed.
-/

namespace EditableGrammar

/-- The edit adds no rules. -/
def Edit.Shrinks : Edit → Prop
  | .add _ => False
  | .extend _ => False
  | .load _ _ _ => False
  | .removeRule _ => True
  | .removeSymbol _ => True
  | .makeTerminal _ => True
  | .prune => True
  | .setStart _ => True
  | .cutLoops _ => True
  | .withoutLoops => True

namespace Grammar

variable {g h : Grammar} {e : Edit} {s : Symbol}

/-- No symbol leads to more than before when nothing was added. -/
theorem Continues.leads (hgh : Continues g [] h) {a b : Symbol} (hab : h.Leads a b) :
    g.Leads a b := by
  obtain ⟨id, q, hq, rfl, hb⟩ := leads_iff.1 hab
  rcases hgh.origin hq with ⟨r, hr, hqr⟩ | ⟨i, r, -, hnone, -⟩
  · rw [hqr.lhs_eq]
    exact .of_rule hr (hqr.sublist.subset hb)
  · cases hnone

theorem newcomers_of_shrinks (he : e.Shrinks) : g.newcomers e = [] := by
  cases e with
  | add r => exact he.elim
  | extend rules => exact he.elim
  | load host toolPath path => exact he.elim
  | _ => rfl

/-- After an edit that adds no rules a symbol leads to what it led to before, or to less. -/
theorem WellFormed.leads_of_perform (hg : g.WellFormed) (he : e.Shrinks)
    (hperform : g.perform e = .ok h) {a b : Symbol} (hab : h.Leads a b) : g.Leads a b := by
  have hcontinues := hg.continues_perform hperform
  rw [newcomers_of_shrinks he] at hcontinues
  exact hcontinues.leads hab

/-- An edit that adds no rules keeps a grammar finite from every symbol. -/
theorem WellFormed.isFiniteFrom_perform (hg : g.WellFormed) (he : e.Shrinks)
    (hperform : g.perform e = .ok h) (hfinite : g.isFiniteFrom s = true) :
    h.isFiniteFrom s = true :=
  hg.isFiniteFrom_mono (hg.perform hperform).toIndexed
    (fun _ _ hab => hg.leads_of_perform he hperform hab) hfinite

theorem WellFormed.isFiniteFrom_after (hg : g.WellFormed) (he : e.Shrinks)
    (hfinite : g.isFiniteFrom s = true) : (g.after e).isFiniteFrom s = true := by
  unfold Grammar.after
  split
  next hperform => exact hg.isFiniteFrom_perform he hperform hfinite
  next => exact hfinite

/-- A chain of edits that add no rules keeps a grammar finite from every symbol. -/
theorem WellFormed.isFiniteFrom_foldl_after (hg : g.WellFormed) {edits : List Edit}
    (hshrinks : ∀ e ∈ edits, e.Shrinks) (hfinite : g.isFiniteFrom s = true) :
    (edits.foldl Grammar.after g).isFiniteFrom s = true := by
  induction edits generalizing g with
  | nil => exact hfinite
  | cons e edits ih =>
    obtain ⟨he, hrest⟩ := List.forall_mem_cons.1 hshrinks
    exact ih (hg.after e) hrest (hg.isFiniteFrom_after he hfinite)

/-- When the loops of several symbols were cut, one symbol after the other, the grammar is finite
from each of them. -/
theorem WellFormed.isFiniteFrom_foldl_cutLoops (hg : g.WellFormed) {roots : List Symbol}
    (hs : s ∈ roots) :
    ((roots.map Edit.cutLoops).foldl Grammar.after g).isFiniteFrom s = true := by
  induction roots generalizing g with
  | nil => cases hs
  | cons root roots ih =>
    have hcut : (g.after (.cutLoops root)).WellFormed := hg.after _
    rw [List.map_cons, List.foldl_cons]
    rcases List.mem_cons.1 hs with rfl | hs
    · -- the cuts that follow take away, and what they find is finite from this symbol
      refine hcut.isFiniteFrom_foldl_after ?_ (hg.isFiniteFrom_cutLoops s)
      intro e he
      obtain ⟨root, -, rfl⟩ := List.mem_map.1 he
      trivial
    · exact ih hcut hs

/-- Removing a rule or a symbol, making a symbol a terminal, pruning, and cutting the loops of any
symbol make no symbol lead where it did not, so they keep a grammar finite from every symbol from
which it is finite; and so does any number of edits that add no rules.  After cutting the loops of
some symbols, in any order, a grammar is finite from each of them. -/
theorem ofHistory_stays_finite (edits : List Edit) :
    (∀ r x, ∀ e ∈ [Edit.removeRule r, .removeSymbol x, .makeTerminal x, .prune, .cutLoops x],
      ∀ g, (ofHistory edits).perform e = .ok g →
        (∀ a b, g.Leads a b → (ofHistory edits).Leads a b) ∧
          ∀ s, (ofHistory edits).isFiniteFrom s = true → g.isFiniteFrom s = true) ∧
      (∀ later : List Edit, (∀ e ∈ later, e.Shrinks) → ∀ s,
        (ofHistory edits).isFiniteFrom s = true →
          (ofHistory (edits ++ later)).isFiniteFrom s = true) ∧
      ∀ roots : List Symbol, ∀ root ∈ roots,
        (ofHistory (edits ++ roots.map .cutLoops)).isFiniteFrom root = true := by
  have hg := ofHistory_wellFormed edits
  refine ⟨?_, ?_, ?_⟩
  · intro r x e he g hperform
    have hshrinks : e.Shrinks := by
      simp only [List.mem_cons, List.not_mem_nil, or_false] at he
      rcases he with rfl | rfl | rfl | rfl | rfl <;> trivial
    refine ⟨fun a b hab => hg.leads_of_perform hshrinks hperform hab, ?_⟩
    intro s hfinite
    exact hg.isFiniteFrom_perform hshrinks hperform hfinite
  · intro later hshrinks s hfinite
    rw [ofHistory_append]
    exact hg.isFiniteFrom_foldl_after hshrinks hfinite
  · intro roots root hroot
    rw [ofHistory_append]
    exact hg.isFiniteFrom_foldl_cutLoops hroot

/-- Derivation from `a` is finite and two of its rules become equal when `c` is removed; `p` and `q`
lead to each other, and `q` to `a`. -/
def tangledEdits : List Edit :=
  [.extend [⟨"a", ["b", "c"]⟩, ⟨"a", ["b"]⟩, ⟨"p", ["q"]⟩, ⟨"q", ["p", "a"]⟩]]

theorem ofHistory_stays_finite_tangled :
    (ofHistory tangledEdits).isFiniteFrom "a" = true ∧
      (ofHistory tangledEdits).isFiniteFrom "p" = false ∧
      (∃ g, (ofHistory tangledEdits).perform (.removeSymbol "c") = .ok g ∧
        g.isFiniteFrom "a" = true) ∧
      (ofHistory (tangledEdits ++ [.removeSymbol "c", .cutLoops "q", .prune])).isFiniteFrom "a" =
        true ∧
      ∀ root ∈ ["q", "p"],
        (ofHistory (tangledEdits ++ ["q", "p"].map .cutLoops)).isFiniteFrom root = true := by
  have hfinite : (ofHistory tangledEdits).isFiniteFrom "a" = true := by cbv
  have hrecursive : (ofHistory tangledEdits).isFiniteFrom "p" = false := by cbv
  have hknown : "c" ∈ (ofHistory tangledEdits).symbols := by
    have hsymbols : (ofHistory tangledEdits).symbols = ["a", "b", "c", "p", "q"] := by cbv
    rw [hsymbols]
    decide
  obtain ⟨l, -, hremoved⟩ := perform_removeSymbol hknown
  obtain ⟨hone, hmany, hroots⟩ := ofHistory_stays_finite tangledEdits
  refine ⟨hfinite, hrecursive, ⟨_, hremoved, ?_⟩, ?_, hroots _⟩
  · exact (hone ⟨"a", []⟩ "c" _ (by simp) _ hremoved).2 "a" hfinite
  · exact hmany _ (by simp [Edit.Shrinks]) "a" hfinite

end Grammar

end EditableGrammar
