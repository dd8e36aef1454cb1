import EditableGrammar.Proofs.Grammar.History
import EditableGrammar.Proofs.Recursion.FiniteWalk

set_option autoImplicit false

/-!
# What recursion tests and cuts guarantee

For a grammar with any history, finiteness is decided exactly, and cutting its loops changes no more
than it has to.  What a cut leaves is compared with what there was rule by rule (`Unrolled`): the
walk has ended by then, so nothing here speaks of paths.
-/

namespace EditableGrammar

namespace Grammar

/-- `h` is what cutting the loops reachable from `root` may make of `g`. -/
structure Unrolled (g : Grammar) (root : Symbol) (h : Grammar) : Prop where
  /-- derivation from the root ends -/
  finite : h.isFiniteFrom root = true
  /-- just what could be reached can be reached -/
  reaches_iff : ∀ x, h.Reaches root x ↔ g.Reaches root x
  /-- just the symbols that had productions have productions -/
  productions_eq_nil_iff : ∀ x, h.productions x = [] ↔ g.productions x = []
  /-- a rule whose left-hand side cannot be reached stays what it was -/
  unreached : ∀ (id : RuleId) (r : Rule), g.rules[id]? = some r → ¬ g.Reaches root r.lhs →
    h.rules[id]? = some r
  /-- no rule is new, and all that can happen to a right-hand side is to lose occurrences -/
  origin : ∀ (id : RuleId) (q : Rule), h.rules[id]? = some q →
    ∃ r, g.rules[id]? = some r ∧ q.lhs = r.lhs ∧ q.rhs.Sublist r.rhs
  /-- every rule is there but for occurrences of symbols that reach its left-hand side -/
  found : ∀ (id : RuleId) (r : Rule), g.rules[id]? = some r →
    ∃ (k : RuleId) (kept : Symbol → Bool), h.rules[k]? = some ⟨r.lhs, r.rhs.filter kept⟩ ∧
      ∀ x ∈ r.rhs, kept x = false → g.Reaches x r.lhs
  /-- a rule of a symbol on no loop stays what it was -/
  harmless : ∀ (id : RuleId) (r : Rule), g.rules[id]? = some r → ¬ g.Recursive r.lhs →
    h.rules[id]? = some r

/-- What a plan leaves is a grammar unrolled. -/
theorem Unrolled.of_leaves {g h : Grammar} {root : Symbol} {path : Recursion.Survey.Paths}
    (hg : g.WellFormed) (hh : Recursion.Survey.Leaves g root path h) : Unrolled g root h := by
  refine ⟨?_, fun x => hh.reaches_iff, fun x => hh.productions_eq_nil_iff hg.toIndexed, ?_, ?_, ?_,
    ?_⟩
  · exact hh.wellFormed.isFiniteFrom_iff_ends.2 hh.ends
  · intro id r hr hunreached
    apply hh.rule_stays hr
    intro x _ hx
    exact hunreached (hh.path_reaches _ x hx).1
  · intro id q hq
    obtain ⟨r, hr, rfl⟩ := hh.rule_left hq
    exact ⟨r, hr, rfl, List.filter_sublist⟩
  · intro id r hr
    obtain ⟨k, hk⟩ := hh.rule_found hr
    refine ⟨k, fun x => !(path r.lhs).contains x, hk, ?_⟩
    intro x _ hx
    exact (hh.path_reaches _ x (by simpa using hx)).2
  · intro id r hr hharmless
    apply hh.rule_stays hr
    intro x hlead hx
    -- a symbol on the path of its own rule would close a loop
    exact hharmless (Relation.TransGen.head' hlead (hh.path_reaches _ x hx).2)

/-- Finiteness is decided: derivation from a symbol is finite just when nothing it can come to can
come back to itself. -/
theorem isFiniteFrom_iff_no_recursion (edits : List Edit) (s : Symbol) :
    (ofHistory edits).isFiniteFrom s = true ↔
      ∀ x, (ofHistory edits).Reaches s x → ¬ (ofHistory edits).Recursive x :=
  (ofHistory_wellFormed edits).isFiniteFrom_iff_not_recursive

/-- Cutting loops makes derivation finite and does no more than that, and a walk that makes the cuts
on its way ends with the same grammar. -/
theorem cutLoops_unrolled (edits : List Edit) (root : Symbol) :
    Unrolled (ofHistory edits) root ((ofHistory edits).cutLoops root).value ∧
      ∃ p, Recursion.InPlace.Steps (Recursion.InPlace.start (ofHistory edits) root) p ∧
        p.step = none ∧ p.grammar = ((ofHistory edits).cutLoops root).value := by
  have hg := ofHistory_wellFormed edits
  obtain ⟨path, hleaves⟩ := hg.cutLoops_leaves root
  exact ⟨.of_leaves hg hleaves, hg.cutLoops_eq_inPlace root⟩

/-- The test and the cuts agree: derivation is finite just when cutting loops changes nothing and
loses no occurrence, and a grammar that is not finite does change and does lose some.  Cutting a
second time finds nothing left to cut. -/
theorem isFiniteFrom_iff_nothing_cut (edits : List Edit) (s : Symbol) :
    ((ofHistory edits).isFiniteFrom s = true ↔
        ((ofHistory edits).cutLoops s).value = ofHistory edits ∧
          Recursion.Cut.totalLost ((ofHistory edits).loopCuts s) = 0) ∧
      ((ofHistory edits).isFiniteFrom s = false →
        ((ofHistory edits).cutLoops s).value ≠ ofHistory edits ∧
          0 < Recursion.Cut.totalLost ((ofHistory edits).loopCuts s)) ∧
      ((ofHistory edits).cutLoops s).value.cutLoops s =
        .note (.cut 0 s) ((ofHistory edits).cutLoops s).value := by
  have hg := ofHistory_wellFormed edits
  have hlost : Recursion.Cut.totalLost ((ofHistory edits).loopCuts s) = 0 ↔
      (ofHistory edits).isFiniteFrom s = true :=
    (hg.plan s).totalLost_eq_zero_iff.trans hg.loopCuts_eq_nil_iff
  have hunchanged : ((ofHistory edits).cutLoops s).value = ofHistory edits ↔
      (ofHistory edits).isFiniteFrom s = true := by
    constructor
    · intro hsame
      exact hsame ▸ hg.isFiniteFrom_cutLoops s
    · intro hfinite
      rw [cutLoops_of_loopCuts_eq_nil (hg.loopCuts_eq_nil_iff.2 hfinite)]
      rfl
  refine ⟨?_, ?_, ?_⟩
  · rw [hunchanged, hlost, and_self_iff]
  · intro hrecursive
    have hnot : ¬ (ofHistory edits).isFiniteFrom s = true := by simp [hrecursive]
    exact ⟨mt hunchanged.1 hnot, Nat.pos_of_ne_zero (mt hlost.1 hnot)⟩
  · apply cutLoops_of_loopCuts_eq_nil
    exact (hg.cutLoops s).loopCuts_eq_nil_iff.2 (hg.isFiniteFrom_cutLoops s)

end Grammar

end EditableGrammar
