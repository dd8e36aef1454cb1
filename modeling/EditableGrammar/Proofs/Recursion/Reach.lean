import Mathlib.Logic.Relation
import EditableGrammar.Proofs.Grammar.Indexed

set_option autoImplicit false

/-!
# Where derivation leads

A symbol leads to the symbols on the right of its rules.  It reaches what it leads to in any number
of steps, and it is recursive when it comes back to itself in one step or more.  These notions are
about the rules alone; an indexed grammar finds the symbols that a symbol leads to in its index.

Derivation from a symbol ends when every way down from it does.  That is a statement by induction,
and it excludes recursion everywhere below the symbol.
-/

namespace EditableGrammar

namespace Grammar

/-- Some rule of `a` mentions `b` on its right-hand side. -/
def Leads (g : Grammar) (a b : Symbol) : Prop := ∃ r ∈ g.ruleSet, r.lhs = a ∧ b ∈ r.rhs

/-- Derivation from `a` can come to `b`, in no step or more. -/
def Reaches (g : Grammar) : Symbol → Symbol → Prop := Relation.ReflTransGen g.Leads

/-- Derivation from `a` can come back to `a`, in one step or more. -/
def Recursive (g : Grammar) (a : Symbol) : Prop := Relation.TransGen g.Leads a a

/-- Every way down from `a` ends. -/
def Ends (g : Grammar) (a : Symbol) : Prop := Acc (fun b a => g.Leads a b) a

variable {g : Grammar} {a b c : Symbol}

theorem leads_iff : g.Leads a b ↔
    ∃ (id : RuleId) (r : Rule), g.rules[id]? = some r ∧ r.lhs = a ∧ b ∈ r.rhs := by
  constructor
  · rintro ⟨r, hr, hab⟩
    obtain ⟨id, hid⟩ := mem_ruleSet.1 hr
    exact ⟨id, r, hid, hab⟩
  · rintro ⟨id, r, hid, hab⟩
    exact ⟨r, mem_ruleSet.2 ⟨id, hid⟩, hab⟩

theorem Leads.of_rule {id : RuleId} {r : Rule} (hr : g.rules[id]? = some r) (hb : b ∈ r.rhs) :
    g.Leads r.lhs b :=
  leads_iff.2 ⟨id, r, hr, rfl, hb⟩

/-- The index lists the symbols that a symbol leads to. -/
theorem Indexed.mem_successors_iff (hg : g.Indexed) : b ∈ g.successors a ↔ g.Leads a b := by
  rw [successors, List.mem_flatMap, leads_iff]
  constructor
  · rintro ⟨id, hid, hb⟩
    obtain ⟨r, hr, hl⟩ := hg.mem_productions_iff.1 hid
    refine ⟨id, r, hr, hl, ?_⟩
    simpa [rhs?, hr] using hb
  · rintro ⟨id, r, hr, hl, hb⟩
    refine ⟨id, hg.mem_productions_iff.2 ⟨r, hr, hl⟩, ?_⟩
    simpa [rhs?, hr] using hb

theorem WellFormed.leads_known (hg : g.WellFormed) (h : g.Leads a b) : b ∈ g.index := by
  obtain ⟨id, r, hr, -, hb⟩ := leads_iff.1 h
  exact hg.rhs_known hr b hb

theorem Ends.of_leads (h : g.Ends a) (hab : g.Leads a b) : g.Ends b := h.inv hab

theorem Ends.of_reaches (h : g.Ends a) (hab : g.Reaches a b) : g.Ends b := by
  induction hab with
  | refl => exact h
  | tail _ hbc ih => exact ih.of_leads hbc

/-- Where derivation ends, it does not come back to where it began. -/
theorem Ends.not_recursive (h : g.Ends a) : ¬ g.Recursive a := by
  induction h with
  | intro a _ ih =>
    intro hcycle
    obtain ⟨b, hab, hba⟩ := Relation.TransGen.head'_iff.1 hcycle
    exact ih b hab (Relation.TransGen.tail' hba hab)

/-- Derivation that ends still does where symbols lead to less. -/
theorem Ends.mono {h : Grammar} (hle : ∀ a b, h.Leads a b → g.Leads a b) (hends : g.Ends a) :
    h.Ends a :=
  Subrelation.accessible (fun hba => hle _ _ hba) hends

/-- A symbol that leads nowhere is an end. -/
theorem Ends.of_not_leads (h : ∀ b, ¬ g.Leads a b) : g.Ends a :=
  Acc.intro a fun b hab => absurd hab (h b)

end Grammar

end EditableGrammar
