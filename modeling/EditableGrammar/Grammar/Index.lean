import Std.Data.ExtTreeMap
import EditableGrammar.Rule

set_option autoImplicit false

/-!
# The index from symbols to rules

For every known symbol the index holds the numbers of the rules that produce it and of the rules
that mention it.  Entering a rule makes its symbols known; withdrawing one leaves them known.

Each operation is pinned down by one look-up equation, which is all that is ever used about it.
-/

namespace EditableGrammar

/-- Where a symbol stands in the rules of a grammar. -/
structure Uses where
  /-- the rules that have the symbol as their left-hand side -/
  productions : Std.ExtTreeSet RuleId := ∅
  /-- the rules that have the symbol at least once in their right-hand side -/
  occurrences : Std.ExtTreeSet RuleId := ∅
  deriving DecidableEq

namespace Uses

/-- The uses of a symbol that no rule mentions. -/
def none : Uses := {}

/-- Enter a production. -/
def addProduction (u : Uses) (id : RuleId) : Uses :=
  { u with productions := u.productions.insert id }

/-- Withdraw a production. -/
def dropProduction (u : Uses) (id : RuleId) : Uses :=
  { u with productions := u.productions.erase id }

/-- Enter an occurrence; a second one in the same rule changes nothing. -/
def addOccurrence (u : Uses) (id : RuleId) : Uses :=
  { u with occurrences := u.occurrences.insert id }

/-- Withdraw all occurrences in a rule. -/
def dropOccurrence (u : Uses) (id : RuleId) : Uses :=
  { u with occurrences := u.occurrences.erase id }

/-- Whether no rule mentions the symbol. -/
def isEmpty (u : Uses) : Bool := u.productions.isEmpty && u.occurrences.isEmpty

theorem addOccurrence_addOccurrence (u : Uses) (id : RuleId) :
    (u.addOccurrence id).addOccurrence id = u.addOccurrence id := by
  simp only [addOccurrence, mk.injEq, true_and]
  apply Std.ExtTreeSet.ext_mem
  intro k
  simp [Std.ExtTreeSet.mem_insert]

theorem dropOccurrence_dropOccurrence (u : Uses) (id : RuleId) :
    (u.dropOccurrence id).dropOccurrence id = u.dropOccurrence id := by
  simp only [dropOccurrence, mk.injEq, true_and]
  apply Std.ExtTreeSet.ext_mem
  intro k
  simp [Std.ExtTreeSet.mem_erase]

end Uses

/-- The known symbols with their uses. -/
abbrev Index := Std.ExtTreeMap Symbol Uses

namespace Index

/-- Enter rule `id` as a production of `s`, which becomes known. -/
def addProduction (t : Index) (s : Symbol) (id : RuleId) : Index :=
  t.alter s fun uses => some ((uses.getD Uses.none).addProduction id)

/-- Enter rule `id` as one that mentions `s`, which becomes known. -/
def addOccurrence (t : Index) (s : Symbol) (id : RuleId) : Index :=
  t.alter s fun uses => some ((uses.getD Uses.none).addOccurrence id)

/-- Enter rule `id` under every symbol of its right-hand side. -/
def addOccurrences (t : Index) (rhs : List Symbol) (id : RuleId) : Index :=
  rhs.foldl (fun t s => t.addOccurrence s id) t

/-- Withdraw rule `id` as a production of `s`. -/
def dropProduction (t : Index) (s : Symbol) (id : RuleId) : Index :=
  t.modify s (·.dropProduction id)

/-- Withdraw rule `id` as one that mentions `s`. -/
def dropOccurrence (t : Index) (s : Symbol) (id : RuleId) : Index :=
  t.modify s (·.dropOccurrence id)

/-- Withdraw rule `id` from every symbol of its right-hand side. -/
def dropOccurrences (t : Index) (rhs : List Symbol) (id : RuleId) : Index :=
  rhs.foldl (fun t s => t.dropOccurrence s id) t

/-! ## Look-up equations -/

theorem getElem?_addProduction (t : Index) (s x : Symbol) (id : RuleId) :
    (t.addProduction s id)[x]? =
      if s = x then some ((t[x]?.getD Uses.none).addProduction id) else t[x]? := by
  by_cases h : s = x <;> simp [addProduction, Std.ExtTreeMap.getElem?_alter, h]

theorem getElem?_addOccurrence (t : Index) (s x : Symbol) (id : RuleId) :
    (t.addOccurrence s id)[x]? =
      if s = x then some ((t[x]?.getD Uses.none).addOccurrence id) else t[x]? := by
  by_cases h : s = x <;> simp [addOccurrence, Std.ExtTreeMap.getElem?_alter, h]

theorem getElem?_addOccurrences (t : Index) (rhs : List Symbol) (x : Symbol) (id : RuleId) :
    (t.addOccurrences rhs id)[x]? =
      if x ∈ rhs then some ((t[x]?.getD Uses.none).addOccurrence id) else t[x]? := by
  induction rhs generalizing t with
  | nil => simp [addOccurrences]
  | cons s rhs ih =>
    have hstep : t.addOccurrences (s :: rhs) id =
        (t.addOccurrence s id).addOccurrences rhs id := rfl
    rw [hstep, ih, getElem?_addOccurrence]
    by_cases h : s = x
    · subst h
      by_cases hm : s ∈ rhs <;> simp [hm, Uses.addOccurrence_addOccurrence]
    · have hx : x ≠ s := fun he => h he.symm
      simp [h, hx]

theorem getElem?_dropProduction (t : Index) (s x : Symbol) (id : RuleId) :
    (t.dropProduction s id)[x]? =
      if s = x then t[x]?.map (·.dropProduction id) else t[x]? := by
  by_cases h : s = x <;> simp [dropProduction, Std.ExtTreeMap.getElem?_modify, h]

theorem getElem?_dropOccurrence (t : Index) (s x : Symbol) (id : RuleId) :
    (t.dropOccurrence s id)[x]? =
      if s = x then t[x]?.map (·.dropOccurrence id) else t[x]? := by
  by_cases h : s = x <;> simp [dropOccurrence, Std.ExtTreeMap.getElem?_modify, h]

theorem getElem?_dropOccurrences (t : Index) (rhs : List Symbol) (x : Symbol) (id : RuleId) :
    (t.dropOccurrences rhs id)[x]? =
      if x ∈ rhs then t[x]?.map (·.dropOccurrence id) else t[x]? := by
  induction rhs generalizing t with
  | nil => simp [dropOccurrences]
  | cons s rhs ih =>
    have hstep : t.dropOccurrences (s :: rhs) id =
        (t.dropOccurrence s id).dropOccurrences rhs id := rfl
    rw [hstep, ih, getElem?_dropOccurrence]
    by_cases h : s = x
    · subst h
      by_cases hm : s ∈ rhs <;>
        cases t[s]? <;> simp [hm, Uses.dropOccurrence_dropOccurrence]
    · have hx : x ≠ s := fun he => h he.symm
      simp [h, hx]

end Index

end EditableGrammar
