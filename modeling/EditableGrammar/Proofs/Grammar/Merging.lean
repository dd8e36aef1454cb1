import EditableGrammar.Proofs.Grammar.Edits

set_option autoImplicit false

/-!
# Rewriting rules one after the other

Several edits bring every rule `r` of a grammar to some `f r`, by changing one right-hand side after
the other.  Rules that become equal are merged on the way, when some of them are rewritten and some
are not, and a rule that is to be rewritten later may be merged away before.

`Merged` holds at every moment all the same: a stored rule comes under `f` to what the original rule
of its number comes to, and for every original rule there is one at most as old that comes to the
same.  When all rules have come to what they come to, the oldest of those that come to the same is
there, and no other (`Merged.rules_iff`).  The order of the rewriting does not matter.
-/

namespace EditableGrammar

namespace Grammar

/-- `h` is `g` on the way to the rules `f r`. -/
structure Merged (f : Rule → Rule) (g h : Grammar) : Prop where
  /-- a stored rule comes to the same as the original rule of its number -/
  origin : ∀ {id : RuleId} {q : Rule}, h.rules[id]? = some q →
    ∃ r, g.rules[id]? = some r ∧ f q = f r
  /-- for every original rule there is one at most as old that comes to the same -/
  remains : ∀ {id : RuleId} {r : Rule}, g.rules[id]? = some r →
    ∃ k ≤ id, ∃ q, h.rules[k]? = some q ∧ f q = f r

namespace Merged

variable {f : Rule → Rule} {g h : Grammar} {id : RuleId}

theorem refl (g : Grammar) : Merged f g g :=
  ⟨fun hq => ⟨_, hq, rfl⟩, fun hr => ⟨_, Nat.le_refl _, _, hr, rfl⟩⟩

/-- Bringing one more rule to what it comes to. -/
theorem changeRhs (hmerged : Merged f g h) (hh : h.Indexed) (hf : ∀ r, f (f r) = f r)
    {rhs : List Symbol} (hrhs : ∀ {p : Rule}, h.rules[id]? = some p → f p = ⟨p.lhs, rhs⟩) :
    Merged f g (h.changeRhs id rhs).value := by
  cases hcurrent : h.rules[id]? with
  | none =>
    rw [changeRhs_of_erased hcurrent]
    exact hmerged
  | some p =>
    have hcontent : (⟨p.lhs, rhs⟩ : Rule) = f p := (hrhs hcurrent).symm
    obtain ⟨k, hk, hstored, holdest⟩ := hh.exists_changeRhs hcurrent rhs
    rw [hcontent] at hstored holdest
    constructor
    · intro i q hq
      rcases hh.rules_changeRhs_sound hcurrent hq with ⟨-, hq⟩ | ⟨rfl, rfl⟩
      · exact hmerged.origin hq
      · obtain ⟨r, hr, hsame⟩ := hmerged.origin hcurrent
        exact ⟨r, hr, by rw [hcontent, hf, hsame]⟩
    · intro i r hr
      obtain ⟨j, hj, q, hq, hsame⟩ := hmerged.remains hr
      -- where the stored rule was, or was merged with, the one rewritten, the new content is there
      have hrewritten : k ≤ j → f p = f r →
          ∃ k ≤ i, ∃ q, (h.changeRhs id rhs).value.rules[k]? = some q ∧ f q = f r := by
        intro hkj hsame
        exact ⟨k, hkj.trans hj, f p, hstored, (hf p).trans hsame⟩
      by_cases hji : j = id
      · subst hji
        rw [hcurrent, Option.some.injEq] at hq
        subst hq
        exact hrewritten hk hsame
      · by_cases hequal : q = f p
        · subst hequal
          rw [hf] at hsame
          exact hrewritten (holdest hq) hsame
        · have hkept := hh.rules_changeRhs_keep hcurrent hji hq (hcontent ▸ hequal)
          exact ⟨j, hj, q, hkept, hsame⟩

/-- When every rule has come to what it comes to, the oldest of the rules that come to the same is
there, and no other. -/
theorem rules_iff (hmerged : Merged f g h) (hh : h.Indexed)
    (hdone : ∀ {k : RuleId} {q : Rule}, h.rules[k]? = some q → f q = q) {q : Rule} :
    h.rules[id]? = some q ↔
      (∃ r, g.rules[id]? = some r ∧ f r = q) ∧
        ∀ {j : RuleId} {r : Rule}, g.rules[j]? = some r → f r = q → id ≤ j := by
  constructor
  · intro hq
    obtain ⟨r, hr, hsame⟩ := hmerged.origin hq
    rw [hdone hq] at hsame
    refine ⟨⟨r, hr, hsame.symm⟩, ?_⟩
    intro j r' hr' hq'
    obtain ⟨k, hk, p, hp, hsame'⟩ := hmerged.remains hr'
    rw [hdone hp, hq'] at hsame'
    subst hsame'
    rwa [hh.unique hq hp]
  · rintro ⟨⟨r, hr, rfl⟩, holdest⟩
    obtain ⟨k, hk, p, hp, hsame⟩ := hmerged.remains hr
    obtain ⟨r', hr', hsame'⟩ := hmerged.origin hp
    rw [← Nat.le_antisymm hk (holdest hr' (hsame'.symm.trans hsame)), hp, ← hsame, hdone hp]

end Merged

end Grammar

end EditableGrammar
