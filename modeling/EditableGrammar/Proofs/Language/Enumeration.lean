import EditableGrammar.Proofs.Language.Expansion
import EditableGrammar.Proofs.Recursion.Guarantees

set_option autoImplicit false

/-!
# The sentences are the language

The sentences of a grammar are exactly what its start symbol derives, in the grammar itself if that
is finite and in its copy without loops otherwise.  Derivation from the start symbol ends in either,
so the enumeration ends with every sentence found.
-/

namespace EditableGrammar

namespace Grammar

variable {g : Grammar} {s : Symbol}

/-- The grammar that sentences are taken from. -/
theorem value_finiteView (g : Grammar) :
    g.finiteView.value = if g.isFinite = true then g else g.withoutLoops.value := by
  unfold finiteView
  split <;> rfl

theorem value_withoutLoops (hs : g.startSymbol = some s) :
    g.withoutLoops.value = (({ g with explicitStart := some s } : Grammar).cutLoops s).value := by
  simp [withoutLoops, hs]

theorem WellFormed.finiteView (hg : g.WellFormed) : g.finiteView.value.WellFormed := by
  rw [value_finiteView]
  split
  next => exact hg
  next => exact hg.withoutLoops

/-- Derivation from the start symbol ends in the grammar that sentences are taken from. -/
theorem WellFormed.ends_finiteView (hg : g.WellFormed) (hs : g.startSymbol = some s) :
    g.finiteView.value.Ends s := by
  rw [value_finiteView]
  split
  next hfinite =>
    rw [isFinite, hs] at hfinite
    exact hg.isFiniteFrom_iff_ends.1 hfinite
  next =>
    rw [value_withoutLoops hs]
    obtain ⟨path, hleaves⟩ := (hg.startAt (hg.startSymbol_known hs)).cutLoops_leaves s
    exact hleaves.ends

/-- The grammar that sentences are taken from has the same symbols without productions. -/
theorem WellFormed.productions_finiteView (hg : g.WellFormed) (hs : g.startSymbol = some s)
    {x : Symbol} : g.finiteView.value.productions x = [] ↔ g.productions x = [] := by
  rw [value_finiteView]
  split
  next => rfl
  next =>
    have hstart := hg.startAt (hg.startSymbol_known hs)
    rw [value_withoutLoops hs]
    obtain ⟨path, hleaves⟩ := hstart.cutLoops_leaves s
    exact hleaves.productions_eq_nil_iff hstart.toIndexed

/-- The sentences are what the start symbol derives. -/
theorem WellFormed.mem_sentences_iff (hg : g.WellFormed) {w : Sentence} :
    w ∈ g.sentences.value ↔ ∃ s, g.startSymbol = some s ∧ g.finiteView.value.Derives s w := by
  unfold sentences
  cases hs : g.startSymbol with
  | none => simp
  | some s =>
    simp only [Logged.value_map, Std.ExtTreeSet.mem_ofList, List.contains_iff_mem,
      Expanding.mem_expand hg.finiteView.toIndexed (hg.ends_finiteView hs)]
    simp

/-- What the start symbol is expanded into after any number of steps are the sentences. -/
theorem WellFormed.mem_sentences_iff_of_known (hg : g.WellFormed) (hs : g.startSymbol = some s)
    {n : Nat} {ws : List Sentence}
    (h : (Expanding.run g.finiteView.value n ⟨[s], ∅⟩).known[s]? = some ws) {w : Sentence} :
    w ∈ g.sentences.value ↔ w ∈ ws := by
  rw [Expanding.run_eq_iterate] at h
  have hws : w ∈ ws ↔ g.finiteView.value.Derives s w :=
    Expanding.Correct.iterate hg.finiteView.toIndexed n (Expanding.Correct.empty _) h w
  rw [hg.mem_sentences_iff, hws]
  constructor
  · rintro ⟨t, ht, hderives⟩
    rw [hs, Option.some.injEq] at ht
    exact ht ▸ hderives
  · intro hderives
    exact ⟨s, hs, hderives⟩

/-- The sentences of a finite grammar are what its start symbol derives in it. -/
theorem WellFormed.mem_sentences_of_isFinite (hg : g.WellFormed) (hfinite : g.isFinite = true)
    {w : Sentence} : w ∈ g.sentences.value ↔ ∃ s, g.startSymbol = some s ∧ g.Derives s w := by
  rw [hg.mem_sentences_iff, value_finiteView, if_pos hfinite]

/-- The sentences of a grammar are its language, that of its copy without loops if it is not finite,
and they are made of symbols without productions. -/
theorem mem_sentences_iff_derives (edits : List Edit) (w : Sentence) :
    (w ∈ (ofHistory edits).sentences.value ↔
      ∃ s, (ofHistory edits).startSymbol = some s ∧
        (if (ofHistory edits).isFinite = true then ofHistory edits
          else (ofHistory edits).withoutLoops.value).Derives s w) ∧
    (w ∈ (ofHistory edits).sentences.value →
      ∀ x ∈ w, (ofHistory edits).productions x = []) := by
  have hg := ofHistory_wellFormed edits
  rw [← value_finiteView, hg.mem_sentences_iff]
  refine ⟨Iff.rfl, ?_⟩
  rintro ⟨s, hs, hderives⟩ x hx
  rw [← hg.productions_finiteView hs, hg.finiteView.productions_eq_nil_iff]
  exact hderives.terminal x hx

end Grammar

end EditableGrammar
