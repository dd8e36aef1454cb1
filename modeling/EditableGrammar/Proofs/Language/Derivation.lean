import Mathlib.Data.List.Forall2
import EditableGrammar.Language.Product
import EditableGrammar.Proofs.Grammar.Indexed

set_option autoImplicit false

/-!
# What a symbol derives

A symbol without productions derives the sentence that is the symbol itself.  Any other symbol
derives what one of its rules does: the symbols on the right derive one sentence each, and these are
joined in order.  `Derives` is the least relation with these two clauses.  It is about the rules
alone and does not ask how sentences are found.
-/

namespace EditableGrammar

namespace Grammar

/-- The sentence can be derived from the symbol. -/
inductive Derives (g : Grammar) : Symbol → Sentence → Prop where
  /-- a symbol without productions stands for itself -/
  | itself {s : Symbol} (hterminal : ∀ r ∈ g.ruleSet, r.lhs ≠ s) : Derives g s [s]
  /-- the symbols of a right-hand side derive one sentence each -/
  | rule {r : Rule} {ws : List Sentence} (hr : r ∈ g.ruleSet)
      (hws : List.Forall₂ (Derives g) r.rhs ws) : Derives g r.lhs ws.flatten

variable {g : Grammar} {s : Symbol} {w : Sentence}

/-- What the last step of a derivation was. -/
theorem derives_iff :
    g.Derives s w ↔
      (∀ r ∈ g.ruleSet, r.lhs ≠ s) ∧ w = [s] ∨
        ∃ r ∈ g.ruleSet, r.lhs = s ∧ ∃ ws, List.Forall₂ g.Derives r.rhs ws ∧ w = ws.flatten := by
  constructor
  · intro h
    cases h with
    | itself hterminal => exact Or.inl ⟨hterminal, rfl⟩
    | rule hr hws => exact Or.inr ⟨_, hr, rfl, _, hws, rfl⟩
  · rintro (⟨hterminal, rfl⟩ | ⟨r, hr, rfl, ws, hws, rfl⟩)
    · exact .itself hterminal
    · exact .rule hr hws

/-- The symbols of a derived sentence have no productions. -/
theorem Derives.terminal (h : g.Derives s w) : ∀ x ∈ w, ∀ r ∈ g.ruleSet, r.lhs ≠ x := by
  induction h using Derives.rec
    (motive_2 := fun _ ws _ => ∀ w ∈ ws, ∀ x ∈ w, ∀ r ∈ g.ruleSet, r.lhs ≠ x) with
  | itself hterminal =>
    intro x hx
    rw [List.mem_singleton.1 hx]
    exact hterminal
  | rule hr _ ih =>
    intro x hx
    obtain ⟨u, hu, hx⟩ := List.mem_flatten.1 hx
    exact ih u hu x hx
  | nil u hu => cases hu
  | cons _ _ ihhead ihtail u hu x hx r hr =>
    rcases List.mem_cons.1 hu with rfl | hu
    · exact ihhead x hx r hr
    · exact ihtail u hu x hx r hr

/-- The index says which symbols have no productions. -/
theorem Indexed.productions_eq_nil_iff (hg : g.Indexed) :
    g.productions s = [] ↔ ∀ r ∈ g.ruleSet, r.lhs ≠ s := by
  rw [List.eq_nil_iff_forall_not_mem]
  constructor
  · intro hnone r hr hl
    obtain ⟨id, hid⟩ := mem_ruleSet.1 hr
    exact hnone id (hg.mem_productions_iff.2 ⟨r, hid, hl⟩)
  · intro hnone id hid
    obtain ⟨r, hr, hl⟩ := hg.mem_productions_iff.1 hid
    exact hnone r (mem_ruleSet.2 ⟨id, hr⟩) hl

end Grammar

/-- The product over the symbols of a right-hand side joins one alternative of each. -/
theorem mem_product_map {R : Symbol → Sentence → Prop} {alternatives : Symbol → List Sentence}
    {xs : List Symbol} (h : ∀ x ∈ xs, ∀ u, u ∈ alternatives x ↔ R x u) {w : Sentence} :
    w ∈ product (xs.map alternatives) ↔ ∃ ws, List.Forall₂ R xs ws ∧ w = ws.flatten := by
  induction xs generalizing w with
  | nil => simp
  | cons x xs ih =>
    have hx := h x List.mem_cons_self
    have hxs := @ih fun y hy => h y (List.mem_cons_of_mem _ hy)
    rw [List.map_cons, mem_product_cons]
    constructor
    · rintro ⟨u, hu, rest, hrest, rfl⟩
      obtain ⟨ws, hws, rfl⟩ := hxs.1 hrest
      exact ⟨u :: ws, .cons ((hx u).1 hu) hws, rfl⟩
    · rintro ⟨ws, hws, rfl⟩
      cases hws with
      | cons hu hws => exact ⟨_, (hx _).2 hu, _, hxs.2 ⟨_, hws, rfl⟩, rfl⟩

end EditableGrammar
