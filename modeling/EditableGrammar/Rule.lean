import Std.Data.ExtTreeSet

set_option autoImplicit false

/-!
# Symbols and rules

A context-free grammar is a set of rules `lhs => rhs`, where the right-hand side is a list of
symbols.  Symbols carry no mark of their own: whether one is a terminal is decided by the grammar
it stands in.  This module fixes the two orders everything else relies on, and the text of a rule.

* Symbols are ordered by the code points of their names.
* Rules are ordered by left-hand side, then by right-hand side as a list, so that a proper initial
  part comes first.  The order is linear: `compare` is transitive, and equal only on equal rules.

A list of rules may be freed of repetitions, where each rule stays at its first place only.
-/

namespace EditableGrammar

/-- A symbol is its name.  Any text is a name, the empty text too. -/
abbrev Symbol := String

/-- A sentence is a list of symbols; on the way to one, the same type holds any sentential form. -/
abbrev Sentence := List Symbol

/-- Rules are numbered in the order in which a grammar met them. -/
abbrev RuleId := Nat

/-- A production: `lhs` may be replaced by the symbols of `rhs`, in order. -/
structure Rule where
  lhs : Symbol
  rhs : List Symbol
  deriving DecidableEq, Repr, Inhabited

namespace Rule

/-- The rule that lets `lhs` vanish. -/
def epsilon (lhs : Symbol) : Rule := ⟨lhs, []⟩

/-- Whether the rule lets its left-hand side vanish. -/
def isEpsilon (r : Rule) : Bool := r.rhs.isEmpty

/-- Every symbol that the rule mentions, left-hand side first. -/
def symbols (r : Rule) : List Symbol := r.lhs :: r.rhs

/-! ## The order of rules -/

instance : Ord Rule := ⟨compareLex (compareOn Rule.lhs) (compareOn Rule.rhs)⟩

instance : Std.TransOrd Rule :=
  inferInstanceAs (Std.TransCmp (compareLex (compareOn Rule.lhs) (compareOn Rule.rhs)))

theorem compare_eq (a b : Rule) :
    compare a b = (compare a.lhs b.lhs).then (compare a.rhs b.rhs) := rfl

instance : Std.LawfulEqOrd Rule where
  eq_of_compare {a b} h := by
    obtain ⟨hl, hr⟩ := Ordering.then_eq_eq.1 (compare_eq a b ▸ h)
    cases a; cases b
    simp_all

/-! ## Lists without repetitions -/

/-- The rules of a list, in order, that have not been met, each at its first place only. -/
def unmet (met : Std.ExtTreeSet Rule) : List Rule → List Rule
  | [] => []
  | r :: rules => if met.contains r then unmet met rules else r :: unmet (met.insert r) rules

/-- The rules of a list in order, each at its first place only. -/
def firstPlaces (rules : List Rule) : List Rule := unmet ∅ rules

theorem unmet_eq_eraseDups (met : Std.ExtTreeSet Rule) (rules : List Rule) :
    unmet met rules = (rules.filter fun r => !met.contains r).eraseDups := by
  induction rules generalizing met with
  | nil => rfl
  | cons r rules ih =>
    unfold unmet
    by_cases h : met.contains r = true
    · rw [if_pos h, ih, List.filter_cons_of_neg (by simp [h])]
    · rw [if_neg h, ih, List.filter_cons_of_pos (by simp [h]), List.eraseDups_cons,
        List.filter_filter]
      congr 2
      apply List.filter_congr
      intro b _
      have hsame : (compare r b == Ordering.eq) = (b == r) := by
        rw [Bool.eq_iff_iff, beq_iff_eq, beq_iff_eq, Std.compare_eq_iff_eq, eq_comm]
      rw [Std.ExtTreeSet.contains_insert, hsame, Bool.not_or, Bool.and_comm]

/-- Each rule stays at its first place, as if the list were searched for every rule of it. -/
theorem firstPlaces_eq_eraseDups (rules : List Rule) : firstPlaces rules = rules.eraseDups := by
  rw [firstPlaces, unmet_eq_eraseDups]
  congr 1
  exact List.filter_eq_self.2 fun r _ => by simp

/-! ## The text of a rule -/

/-- A name between single quotes.  Nothing in it is escaped. -/
def quoted (name : Symbol) : String := "'" ++ name ++ "'"

/-- The rule as shown to a reader: `'a' => 'b' 'c'`, and `'a' =>` when `a` may vanish. -/
def text (r : Rule) : String :=
  quoted r.lhs ++ " =>" ++ String.join (r.rhs.map fun s => " " ++ quoted s)

/-- The characters of a shown rule, one quoted name after the other. -/
theorem toList_text (r : Rule) :
    r.text.toList =
      '\'' :: r.lhs.toList ++ "' =>".toList ++
        r.rhs.flatMap fun s => ' ' :: '\'' :: s.toList ++ ['\''] := by
  simp [text, quoted, String.toList_join, List.flatMap_map]

end Rule

end EditableGrammar
