import EditableGrammar.Proofs.Language.Enumeration
import EditableGrammar.Proofs.Recursion.Content

set_option autoImplicit false

/-!
# Results depend on what the start symbol reaches

Whether a grammar is finite, what its sentences are and what is left when its loops are cut depends
on the rules below its start symbol only.  The history of a grammar, the numbers of its rules, their
order, symbols that nothing mentions and rules that cannot be reached make no difference.
-/

namespace EditableGrammar

namespace Grammar

namespace SameBelow

variable {g₁ g₂ : Grammar} {s : Symbol} {w : Sentence}

theorem isFiniteFrom_eq (h : SameBelow g₁ g₂ s) (hg₁ : g₁.WellFormed) (hg₂ : g₂.WellFormed) :
    g₁.isFiniteFrom s = g₂.isFiniteFrom s := by
  rw [Bool.eq_iff_iff, hg₁.isFiniteFrom_iff_ends, hg₂.isFiniteFrom_iff_ends]
  exact ⟨h.ends, h.symm.ends⟩

/-- What a symbol below `s` derives in one grammar it derives in the other. -/
theorem derives (h : SameBelow g₁ g₂ s) {a : Symbol} (hw : g₁.Derives a w) :
    g₁.Reaches s a → g₂.Derives a w := by
  induction hw using Derives.rec
    (motive_2 := fun xs ws _ => (∀ x ∈ xs, g₁.Reaches s x) → List.Forall₂ g₂.Derives xs ws) with
  | itself hterminal =>
    intro ha
    refine .itself fun r hr hl => hterminal r ?_ hl
    exact (h.mem_ruleSet_iff (hl ▸ ha)).2 hr
  | @rule r ws hr _ ih =>
    intro ha
    refine .rule ((h.mem_ruleSet_iff ha).1 hr) (ih fun x hx => ?_)
    exact ha.tail ⟨r, hr, rfl, hx⟩
  | nil => exact .nil
  | cons _ _ ihhead ihtail hreached =>
    refine .cons (ihhead (hreached _ List.mem_cons_self)) (ihtail fun x hx => ?_)
    exact hreached x (List.mem_cons_of_mem _ hx)

theorem derives_iff (h : SameBelow g₁ g₂ s) : g₁.Derives s w ↔ g₂.Derives s w := by
  constructor
  · intro hw
    exact h.derives hw Relation.ReflTransGen.refl
  · intro hw
    exact h.symm.derives hw Relation.ReflTransGen.refl

/-- Without loops there are still the same rules below the start symbol. -/
theorem withoutLoops (h : SameBelow g₁ g₂ s) (hg₁ : g₁.WellFormed) (hg₂ : g₂.WellFormed)
    (hs₁ : g₁.startSymbol = some s) (hs₂ : g₂.startSymbol = some s) :
    SameBelow g₁.withoutLoops.value g₂.withoutLoops.value s := by
  rw [value_withoutLoops hs₁, value_withoutLoops hs₂]
  refine SameBelow.cutLoops ?_ (hg₁.startAt (hg₁.startSymbol_known hs₁))
    (hg₂.startAt (hg₂.startSymbol_known hs₂))
  exact h

theorem isFinite_eq (h : SameBelow g₁ g₂ s) (hg₁ : g₁.WellFormed) (hg₂ : g₂.WellFormed)
    (hs₁ : g₁.startSymbol = some s) (hs₂ : g₂.startSymbol = some s) :
    g₁.isFinite = g₂.isFinite := by
  simp only [isFinite, hs₁, hs₂]
  exact h.isFiniteFrom_eq hg₁ hg₂

/-- The grammars that sentences are taken from have the same rules below the start symbol. -/
theorem finiteView (h : SameBelow g₁ g₂ s) (hg₁ : g₁.WellFormed) (hg₂ : g₂.WellFormed)
    (hs₁ : g₁.startSymbol = some s) (hs₂ : g₂.startSymbol = some s) :
    SameBelow g₁.finiteView.value g₂.finiteView.value s := by
  rw [value_finiteView, value_finiteView, h.isFinite_eq hg₁ hg₂ hs₁ hs₂]
  split
  next => exact h
  next => exact h.withoutLoops hg₁ hg₂ hs₁ hs₂

theorem sentences_eq (h : SameBelow g₁ g₂ s) (hg₁ : g₁.WellFormed) (hg₂ : g₂.WellFormed)
    (hs₁ : g₁.startSymbol = some s) (hs₂ : g₂.startSymbol = some s) :
    g₁.sentences.value = g₂.sentences.value := by
  apply Std.ExtTreeSet.ext_mem
  intro w
  rw [hg₁.mem_sentences_iff, hg₂.mem_sentences_iff, hs₁, hs₂]
  refine exists_congr fun x => and_congr_right fun hx => ?_
  cases hx
  exact (h.finiteView hg₁ hg₂ hs₁ hs₂).derives_iff

end SameBelow

/-- Two grammars with one start symbol and the same rules below it are both finite or both not, have
the same sentences, and without loops they have the same rules below the start symbol again.  If all
their rules are the same, then so are those below the start symbol, and all their rules without
loops are the same too. -/
theorem results_eq_of_sameBelow (edits₁ edits₂ : List Edit)
    (hstart : (ofHistory edits₁).startSymbol = (ofHistory edits₂).startSymbol)
    (hbelow : ∀ s, (ofHistory edits₁).startSymbol = some s →
      SameBelow (ofHistory edits₁) (ofHistory edits₂) s) :
    (ofHistory edits₁).isFinite = (ofHistory edits₂).isFinite ∧
      (ofHistory edits₁).sentences.value = (ofHistory edits₂).sentences.value ∧
      (∀ s, (ofHistory edits₁).startSymbol = some s →
        SameBelow (ofHistory edits₁).withoutLoops.value (ofHistory edits₂).withoutLoops.value s) ∧
      ((ofHistory edits₁).ruleSet = (ofHistory edits₂).ruleSet →
        (ofHistory edits₁).withoutLoops.value.ruleSet =
          (ofHistory edits₂).withoutLoops.value.ruleSet) := by
  have hg₁ := ofHistory_wellFormed edits₁
  have hg₂ := ofHistory_wellFormed edits₂
  cases hs₁ : (ofHistory edits₁).startSymbol with
  | none =>
    have hs₂ := hstart.symm.trans hs₁
    simp [isFinite, sentences, Grammar.withoutLoops, hs₁, hs₂]
  | some s =>
    have hs₂ := hstart.symm.trans hs₁
    have h := hbelow s hs₁
    refine ⟨h.isFinite_eq hg₁ hg₂ hs₁ hs₂, h.sentences_eq hg₁ hg₂ hs₁ hs₂, ?_, ?_⟩
    · intro s' hs'
      cases hs'
      exact h.withoutLoops hg₁ hg₂ hs₁ hs₂
    · intro hrules
      rw [value_withoutLoops hs₁, value_withoutLoops hs₂]
      exact ruleSet_cutLoops_eq (hg₁.startAt (hg₁.startSymbol_known hs₁))
        (hg₂.startAt (hg₂.startSymbol_known hs₂)) hrules s

/-- A loop between two symbols. -/
def loopEdits : List Edit :=
  [.extend [⟨"S", ["A", "x"]⟩, ⟨"A", ["S"]⟩, ⟨"A", ["y"]⟩]]

/-- The same loop under other numbers, with symbols and a loop beside it that are not reached. -/
def otherLoopEdits : List Edit :=
  [.extend [⟨"J", ["J", "A"]⟩, ⟨"A", ["y"]⟩, ⟨"S", ["z"]⟩, ⟨"A", ["S"]⟩],
    .removeSymbol "z", .removeRule ⟨"S", []⟩, .add ⟨"S", ["A", "x"]⟩, .setStart "S"]

theorem results_eq_otherLoopEdits :
    (ofHistory loopEdits).startSymbol = (ofHistory otherLoopEdits).startSymbol ∧
      SameBelow (ofHistory loopEdits) (ofHistory otherLoopEdits) "S" ∧
      (ofHistory loopEdits).isFinite = false ∧ (ofHistory otherLoopEdits).isFinite = false ∧
      (ofHistory loopEdits).sentences.value = (ofHistory otherLoopEdits).sentences.value ∧
      SameBelow (ofHistory loopEdits).withoutLoops.value
        (ofHistory otherLoopEdits).withoutLoops.value "S" := by
  have hs₁ : (ofHistory loopEdits).startSymbol = some "S" := by cbv
  have hs₂ : (ofHistory otherLoopEdits).startSymbol = some "S" := by cbv
  have hfinite : (ofHistory loopEdits).isFinite = false := by cbv
  have hrules : (ofHistory loopEdits).rulesAmong ["S", "A", "x", "y"] =
      [⟨"A", ["S"]⟩, ⟨"A", ["y"]⟩, ⟨"S", ["A", "x"]⟩] := by decide +kernel
  have hrules' : (ofHistory otherLoopEdits).rulesAmong ["S", "A", "x", "y"] =
      [⟨"A", ["S"]⟩, ⟨"A", ["y"]⟩, ⟨"S", ["A", "x"]⟩] := by decide +kernel
  have hbelow : SameBelow (ofHistory loopEdits) (ofHistory otherLoopEdits) "S" := by
    refine .of_rulesAmong_eq ["S", "A", "x", "y"] List.mem_cons_self ?_ (hrules.trans hrules'.symm)
    rw [hrules]
    decide
  obtain ⟨hsame, hsentences, hcut, -⟩ := results_eq_of_sameBelow loopEdits otherLoopEdits
    (hs₁.trans hs₂.symm) (fun s hs => by
      rw [hs₁, Option.some.injEq] at hs
      exact hs ▸ hbelow)
  exact ⟨hs₁.trans hs₂.symm, hbelow, hfinite, hsame ▸ hfinite, hsentences, hcut "S" hs₁⟩

end Grammar

end EditableGrammar
