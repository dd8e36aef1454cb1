import EditableGrammar.Proofs.Grammar.History
import EditableGrammar.Proofs.Grammar.Removal

set_option autoImplicit false

/-!
# Symbols may be removed in any order

Removing two symbols one after the other merges rules at two different moments, and which rules are
merged first depends on the order.  What is left in the end does not: under a number stands what the
rule of that number comes to without both symbols, provided that no older rule comes to the same
(`WellFormed.rules_removeSymbol_twice`).  The two symbols have the same part in this, and everything
else in a grammar follows from its rules and known symbols.
-/

namespace EditableGrammar

theorem Rule.without_comm (a b : Symbol) (r : Rule) :
    (r.without a).without b = (r.without b).without a := by
  simp only [without, List.filter_filter, Bool.and_comm]

namespace Grammar

variable {g : Grammar} {a b : Symbol} {l l' : Logged Grammar}

/-- What is left of the rules when two symbols are removed: of the rules that come to the same
without both, the oldest. -/
theorem WellFormed.rules_removeSymbol_twice (hg : g.WellFormed) (hl : g.removeSymbol a = .ok l)
    (hl' : l.value.removeSymbol b = .ok l') {id : RuleId} {q : Rule} :
    l'.value.rules[id]? = some q ↔
      (∃ r, g.rules[id]? = some r ∧ (r.lhs ≠ a ∧ r.lhs ≠ b) ∧ (r.without a).without b = q) ∧
        ∀ {j : RuleId} {r : Rule}, g.rules[j]? = some r → r.lhs ≠ a ∧ r.lhs ≠ b →
          (r.without a).without b = q → id ≤ j := by
  rw [(hg.removeSymbol hl).rules_removeSymbol hl']
  constructor
  · rintro ⟨⟨p, hp, hb, hsame⟩, hfirst⟩
    obtain ⟨⟨r, hr, ha, rfl⟩, -⟩ := (hg.rules_removeSymbol hl).1 hp
    refine ⟨⟨r, hr, ⟨ha, hb⟩, hsame⟩, ?_⟩
    -- in between, what a rule comes to may stand under an older number, but not under a younger one
    intro j r' hr' hne hsame'
    obtain ⟨k, hkj, hk⟩ := hg.exists_removeSymbol hl hr' hne.1
    exact (hfirst hk hne.2 hsame').trans hkj
  · rintro ⟨⟨r, hr, hne, rfl⟩, hfirst⟩
    have hbetween : l.value.rules[id]? = some (r.without a) := by
      rw [hg.rules_removeSymbol hl]
      refine ⟨⟨r, hr, hne.1, rfl⟩, ?_⟩
      intro j r' hr' ha hsame
      have hlhs : r'.lhs = r.lhs := by simpa using congrArg Rule.lhs hsame
      exact hfirst hr' ⟨ha, hlhs ▸ hne.2⟩ (by rw [hsame])
    refine ⟨⟨_, hbetween, hne.2, rfl⟩, ?_⟩
    intro j p hp hb hsame
    obtain ⟨⟨r', hr', ha, rfl⟩, -⟩ := (hg.rules_removeSymbol hl).1 hp
    exact hfirst hr' ⟨ha, hb⟩ hsame

/-- Of two removals it does not matter which comes first. -/
theorem WellFormed.removeSymbol_comm (hg : g.WellFormed) {m m' : Logged Grammar}
    (hl : g.removeSymbol a = .ok l) (hl' : l.value.removeSymbol b = .ok l')
    (hm : g.removeSymbol b = .ok m) (hm' : m.value.removeSymbol a = .ok m') :
    l'.value = m'.value := by
  have hwf := hg.removeSymbol hl
  have hwf' := hg.removeSymbol hm
  refine (hwf.removeSymbol hl').toIndexed.eq_of_rules_iff (hwf'.removeSymbol hm').toIndexed ?_ ?_ ?_
    ?_
  · intro id q
    rw [hg.rules_removeSymbol_twice hl hl', hg.rules_removeSymbol_twice hm hm']
    simp only [Rule.without_comm b a, and_comm (a := _ ≠ b)]
  · intro x
    rw [hwf.mem_index_removeSymbol hl', hg.mem_index_removeSymbol hl,
      hwf'.mem_index_removeSymbol hm', hg.mem_index_removeSymbol hm, and_right_comm]
  · rw [nextId_removeSymbol hl', nextId_removeSymbol hl, nextId_removeSymbol hm',
      nextId_removeSymbol hm]
  · rw [explicitStart_removeSymbol hl', explicitStart_removeSymbol hl,
      explicitStart_removeSymbol hm', explicitStart_removeSymbol hm]
    grind

/-- Two different known symbols can be removed in either order, and the grammar is the same in the
end: its rules with their numbers, its index, its chosen start and its next number. -/
theorem ofHistory_removals_commute (edits : List Edit) (a b : Symbol) (hab : a ≠ b)
    (ha : a ∈ (ofHistory edits).symbols) (hb : b ∈ (ofHistory edits).symbols) :
    ∃ ga gb both, (ofHistory edits).perform (.removeSymbol a) = .ok ga ∧
      (ofHistory edits).perform (.removeSymbol b) = .ok gb ∧
      ga.perform (.removeSymbol b) = .ok both ∧ gb.perform (.removeSymbol a) = .ok both := by
  have hg := ofHistory_wellFormed edits
  obtain ⟨l, hl, hfirst⟩ := perform_removeSymbol ha
  obtain ⟨m, hm, hfirst'⟩ := perform_removeSymbol hb
  have hb' : b ∈ l.value.symbols := by
    rw [mem_symbols, hg.mem_index_removeSymbol hl]
    exact ⟨mem_symbols.1 hb, hab.symm⟩
  have ha' : a ∈ m.value.symbols := by
    rw [mem_symbols, hg.mem_index_removeSymbol hm]
    exact ⟨mem_symbols.1 ha, hab⟩
  obtain ⟨l', hl', hsecond⟩ := perform_removeSymbol hb'
  obtain ⟨m', hm', hsecond'⟩ := perform_removeSymbol ha'
  have hsame := hg.removeSymbol_comm hl hl' hm hm'
  exact ⟨l.value, m.value, l'.value, hfirst, hfirst', hsecond, hsame ▸ hsecond'⟩

/-- Without `a` the last rule becomes equal to the first one, and without `b` to the second one; both
symbols have a rule that mentions the other, and one of them is the chosen start. -/
def entangledEdits : List Edit :=
  [.extend [⟨"S", ["b", "c"]⟩, ⟨"S", ["a", "c"]⟩, ⟨"a", ["b"]⟩, ⟨"b", ["a", "a"]⟩,
    ⟨"S", ["a", "b", "c"]⟩], .setStart "a"]

theorem ofHistory_removals_commute_entangled :
    "a" ≠ "b" ∧ "a" ∈ (ofHistory entangledEdits).symbols ∧
      "b" ∈ (ofHistory entangledEdits).symbols ∧
      ∃ ga gb both, (ofHistory entangledEdits).perform (.removeSymbol "a") = .ok ga ∧
        (ofHistory entangledEdits).perform (.removeSymbol "b") = .ok gb ∧
        ga.perform (.removeSymbol "b") = .ok both ∧ gb.perform (.removeSymbol "a") = .ok both := by
  have hsymbols : (ofHistory entangledEdits).symbols = ["S", "a", "b", "c"] := by cbv
  have ha : "a" ∈ (ofHistory entangledEdits).symbols := by
    rw [hsymbols]
    decide
  have hb : "b" ∈ (ofHistory entangledEdits).symbols := by
    rw [hsymbols]
    decide
  have hab : "a" ≠ "b" := by decide
  exact ⟨hab, ha, hb, ofHistory_removals_commute entangledEdits "a" "b" hab ha hb⟩

end Grammar

end EditableGrammar
