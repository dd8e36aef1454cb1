import EditableGrammar.Proofs.Grammar.StartSymbol
import EditableGrammar.Proofs.Language.Independence

set_option autoImplicit false

/-!
# Collecting symbols that nothing mentions

A symbol is collected when its entry in the index is empty and it was not chosen as the start.  As
the index agrees with the rules, these are just the symbols that no rule mentions.

What is left differs from the grammar before in the symbols it knows and in nothing else
(`SameStore`).  Known symbols decide what may be named in an edit.  They do not decide what can be
derived, which number comes next, or whether a rule is there already, so nothing that is computed
from the rules can tell the two apart, and adding a rule does the same to both.
-/

namespace EditableGrammar

namespace Grammar

/-- The two grammars store the same rules under the same numbers, go on with the same number and
have the same start symbol chosen.  They may know different symbols. -/
structure SameStore (g h : Grammar) : Prop where
  rules_eq : g.rules = h.rules
  nextId_eq : g.nextId = h.nextId
  explicitStart_eq : g.explicitStart = h.explicitStart

/-! ## What is collected -/

section Collected

variable {g : Grammar} {s : Symbol}

/-- The symbols collected are those that no rule mentions and that were not chosen as the start. -/
theorem Indexed.mem_unreferenced_iff (hg : g.Indexed) :
    s ∈ g.unreferenced ↔
      s ∈ g.symbols ∧ (∀ r ∈ g.ruleSet, s ∉ r.symbols) ∧ g.explicitStart ≠ some s := by
  rw [mem_unreferenced, mem_symbols, Index.mem_iff, ← exists_and_right]
  have hmentioned : (∃ (id : RuleId) (r : Rule), g.rules[id]? = some r ∧ s ∈ r.symbols) ↔
      ∃ r ∈ g.ruleSet, s ∈ r.symbols := by
    simp only [mem_ruleSet, ← exists_and_right]
    exact exists_comm
  refine exists_congr fun uses => and_congr_right fun hs => ?_
  rw [isUnreferenced, Bool.and_eq_true, hg.isEmpty_uses_iff hs, bne_iff_ne, hmentioned]
  push Not
  rfl

/-- Pruning forgets the symbols collected. -/
theorem mem_symbols_prune : s ∈ g.prune.value.symbols ↔ s ∈ g.symbols ∧ s ∉ g.unreferenced := by
  rw [mem_symbols, mem_symbols, mem_unreferenced, Index.mem_iff, Index.mem_iff]
  simp only [index_prune]
  constructor
  · rintro ⟨uses, hs, hkept⟩
    refine ⟨⟨uses, hs⟩, ?_⟩
    rintro ⟨uses', hs', hdropped⟩
    rw [hs, Option.some.injEq] at hs'
    rw [hs', hdropped] at hkept
    cases hkept
  · rintro ⟨⟨uses, hs⟩, hkept⟩
    exact ⟨uses, hs, Bool.eq_false_iff.2 fun hdropped => hkept ⟨uses, hs, hdropped⟩⟩

/-- The symbols that are left are those that a rule mentions, and a chosen start symbol. -/
theorem WellFormed.mem_symbols_prune_iff (hg : g.WellFormed) :
    s ∈ g.prune.value.symbols ↔
      (∃ r ∈ g.ruleSet, s ∈ r.symbols) ∨ g.explicitStart = some s := by
  have hknown : (∃ r ∈ g.ruleSet, s ∈ r.symbols) ∨ g.explicitStart = some s → s ∈ g.symbols := by
    rintro (⟨r, hr, hs⟩ | hs)
    · obtain ⟨id, hid⟩ := mem_ruleSet.1 hr
      rcases List.mem_cons.1 hs with rfl | hs
      · exact mem_symbols.2 (hg.lhs_known hid)
      · exact mem_symbols.2 (hg.rhs_known hid s hs)
    · exact mem_symbols.2 (hg.start_known hs)
  rw [mem_symbols_prune, hg.mem_unreferenced_iff]
  constructor
  · rintro ⟨hs, hkept⟩
    by_contra hunused
    push Not at hunused
    exact hkept ⟨hs, hunused⟩
  · intro hused
    refine ⟨hknown hused, ?_⟩
    rintro ⟨-, hunmentioned, hunchosen⟩
    rcases hused with ⟨r, hr, hs⟩ | hs
    · exact hunmentioned r hr hs
    · exact hunchosen hs

end Collected

/-! ## Grammars that differ in the symbols they know -/

namespace SameStore

variable {g h : Grammar}

/-- Pruning touches nothing but the known symbols. -/
theorem prune (g : Grammar) : SameStore g.prune.value g := by
  rw [value_prune]
  exact ⟨rfl, rfl, rfl⟩

theorem ruleSet_eq (hgh : SameStore g h) : g.ruleSet = h.ruleSet := by
  rw [ruleSet, ruleSet, numberedRules, numberedRules, hgh.rules_eq]

theorem startSymbol_eq (hgh : SameStore g h) (hg : g.WellFormed) (hh : h.WellFormed) :
    g.startSymbol = h.startSymbol := by
  rw [hg.startSymbol_eq, hh.startSymbol_eq, hgh.explicitStart_eq, oldestLhs, oldestLhs,
    hgh.rules_eq]

theorem isFiniteFrom_eq (hgh : SameStore g h) (hg : g.WellFormed) (hh : h.WellFormed)
    (x : Symbol) : g.isFiniteFrom x = h.isFiniteFrom x :=
  (SameBelow.of_ruleSet_eq hgh.ruleSet_eq x).isFiniteFrom_eq hg hh

theorem sentences_eq (hgh : SameStore g h) (hg : g.WellFormed) (hh : h.WellFormed) :
    g.sentences.value = h.sentences.value := by
  have hstart := hgh.startSymbol_eq hg hh
  cases hs : g.startSymbol with
  | none =>
    rw [hs] at hstart
    simp [sentences, hs, ← hstart]
  | some s =>
    rw [hs] at hstart
    exact (SameBelow.of_ruleSet_eq hgh.ruleSet_eq s).sentences_eq hg hh hs hstart.symm

theorem containsRule_eq (hgh : SameStore g h) (hg : g.Indexed) (hh : h.Indexed) (r : Rule) :
    g.containsRule r = h.containsRule r := by
  rw [Bool.eq_iff_iff, hg.containsRule_iff, hh.containsRule_iff, hgh.rules_eq]

/-- A rule is added to both or to none, and under the same number. -/
theorem addRule (hgh : SameStore g h) (hg : g.Indexed) (hh : h.Indexed) (r : Rule) :
    SameStore (g.addRule r).value (h.addRule r).value := by
  unfold Grammar.addRule
  rw [hgh.containsRule_eq hg hh r]
  split
  next => exact hgh
  next =>
    obtain ⟨hrules, hnext, hstart⟩ := hgh
    refine ⟨?_, ?_, hstart⟩
    · show g.rules.insert g.nextId r = h.rules.insert h.nextId r
      rw [hrules, hnext]
    · show g.nextId + 1 = h.nextId + 1
      rw [hnext]

end SameStore

/-! ## Pruning a grammar with a history -/

/-- Pruning collects the known symbols that no rule mentions, but for a chosen start symbol, and
leaves the others.  Rules and numbers, the start symbol, finiteness from every symbol and the
sentences stay as they are, nothing is left to be collected, and adding any rule afterwards comes to
the same as adding it without having pruned. -/
theorem ofHistory_prune_collects (edits : List Edit) :
    let g := ofHistory edits
    let pruned := g.prune.value
    (∀ s, s ∈ g.unreferenced ↔
      s ∈ g.symbols ∧ (∀ r ∈ g.ruleSet, s ∉ r.symbols) ∧ g.explicitStart ≠ some s) ∧
    (∀ s, s ∈ pruned.symbols ↔ (∃ r ∈ g.ruleSet, s ∈ r.symbols) ∨ g.explicitStart = some s) ∧
    pruned.rules = g.rules ∧ pruned.nextId = g.nextId ∧
    pruned.explicitStart = g.explicitStart ∧ pruned.startSymbol = g.startSymbol ∧
    (∀ x, pruned.isFiniteFrom x = g.isFiniteFrom x) ∧
    pruned.sentences.value = g.sentences.value ∧
    pruned.unreferenced = [] ∧
    ∀ r, pruned.containsRule r = g.containsRule r ∧
      (pruned.addRule r).value.rules = (g.addRule r).value.rules ∧
      (pruned.addRule r).value.nextId = (g.addRule r).value.nextId ∧
      (pruned.addRule r).value.startSymbol = (g.addRule r).value.startSymbol ∧
      (pruned.addRule r).value.sentences.value = (g.addRule r).value.sentences.value := by
  intro g pruned
  have hg : g.WellFormed := ofHistory_wellFormed edits
  have hpruned : pruned.WellFormed := hg.prune
  have hsame : SameStore pruned g := SameStore.prune g
  refine ⟨fun s => hg.mem_unreferenced_iff, fun s => hg.mem_symbols_prune_iff, hsame.rules_eq,
    hsame.nextId_eq, hsame.explicitStart_eq, hsame.startSymbol_eq hpruned hg,
    hsame.isFiniteFrom_eq hpruned hg, hsame.sentences_eq hpruned hg, ?_, ?_⟩
  · rw [List.eq_nil_iff_forall_not_mem]
    intro s hs
    obtain ⟨hleft, hunmentioned, hunchosen⟩ := hpruned.mem_unreferenced_iff.1 hs
    rcases hg.mem_symbols_prune_iff.1 hleft with ⟨r, hr, hsr⟩ | hchosen
    · exact hunmentioned r (hsame.ruleSet_eq ▸ hr) hsr
    · exact hunchosen (hsame.explicitStart_eq.trans hchosen)
  · intro r
    have hadded := hsame.addRule hpruned.toIndexed hg.toIndexed r
    have hwf := hpruned.addRule r
    have hwf' := hg.addRule r
    exact ⟨hsame.containsRule_eq hpruned.toIndexed hg.toIndexed r, hadded.rules_eq,
      hadded.nextId_eq, hadded.startSymbol_eq hwf hwf', hadded.sentences_eq hwf hwf'⟩

/-- A symbol that was only on the right is collected with the rule that mentioned it gone; the one
that was on the left was chosen as the start, and stays. -/
example :
    (ofHistory [.extend [⟨"S", ["A", "b"]⟩, ⟨"A", []⟩], .setStart "S",
      .removeRule ⟨"S", ["A", "b"]⟩]).unreferenced = ["b"] := by cbv

end Grammar

end EditableGrammar
