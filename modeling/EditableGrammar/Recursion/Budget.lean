import EditableGrammar.Rule

set_option autoImplicit false

/-!
# The work a search has left

A depth-first search over the symbols of a grammar opens each symbol at most once.  Give every
symbol a weight, the work that opening it costs; then the weights of the symbols not seen yet bound
the work still to come.  Seeing one more symbol pays for its weight (`unseen_add_le`), and seeing
never undoes itself (`unseen_le`).

A search has seen the symbols on its path and the symbols it has finished; opening a symbol and
closing one both leave every seen symbol seen.  What is left to do in the open symbols and in those
not seen yet is the work of the search, `searchWork`, and it falls whenever a symbol is closed, one
thing is done in an open symbol, or another symbol is opened for it.
-/

namespace EditableGrammar.Recursion

/-- The total weight of the listed symbols that have not been seen. -/
def unseen (weight : Symbol → Nat) (symbols : List Symbol) (seen : Symbol → Bool) : Nat :=
  symbols.foldr (fun s total => (if seen s then 0 else weight s) + total) 0

theorem unseen_cons (weight : Symbol → Nat) (s : Symbol) (symbols : List Symbol)
    (seen : Symbol → Bool) :
    unseen weight (s :: symbols) seen =
      (if seen s then 0 else weight s) + unseen weight symbols seen := rfl

/-- Having seen more leaves no more to do. -/
theorem unseen_le (weight : Symbol → Nat) (symbols : List Symbol) {seen seen' : Symbol → Bool}
    (hmono : ∀ s, seen s = true → seen' s = true) :
    unseen weight symbols seen' ≤ unseen weight symbols seen := by
  induction symbols with
  | nil => exact Nat.le_refl _
  | cons s symbols ih =>
    rw [unseen_cons, unseen_cons]
    cases h : seen s with
    | true => simp only [hmono s h, if_true]; omega
    | false => cases seen' s <;> simp <;> omega

/-- Seeing a listed symbol for the first time leaves less to do, by its weight at least. -/
theorem unseen_add_le (weight : Symbol → Nat) {symbols : List Symbol} {seen seen' : Symbol → Bool}
    {x : Symbol} (hmono : ∀ s, seen s = true → seen' s = true) (hlisted : x ∈ symbols)
    (hbefore : seen x = false) (hafter : seen' x = true) :
    unseen weight symbols seen' + weight x ≤ unseen weight symbols seen := by
  induction symbols with
  | nil => cases hlisted
  | cons s symbols ih =>
    rw [unseen_cons, unseen_cons]
    by_cases hx : x = s
    · subst hx
      have := unseen_le weight symbols hmono
      simp only [hbefore, hafter, if_true]
      simp
      omega
    · have hm : x ∈ symbols := by
        cases hlisted with
        | head => exact absurd rfl hx
        | tail _ h => exact h
      have := ih hm
      cases h : seen s with
      | true => simp only [hmono s h, if_true]; omega
      | false => cases seen' s <;> simp <;> omega

/-! ## Symbols on the path and finished symbols -/

/-- Whether a search has opened a symbol, be it still open or closed again. -/
def entered (onPath finished : Std.ExtTreeSet Symbol) (s : Symbol) : Bool :=
  onPath.contains s || finished.contains s

/-- Opening a symbol leaves every opened symbol opened. -/
theorem entered_open {onPath finished : Std.ExtTreeSet Symbol} (s x : Symbol)
    (h : entered onPath finished x = true) : entered (onPath.insert s) finished x = true := by
  simp only [entered, Bool.or_eq_true, Std.ExtTreeSet.contains_insert] at h ⊢
  rcases h with h | h
  · exact Or.inl (Or.inr h)
  · exact Or.inr h

/-- Closing a symbol leaves every opened symbol opened. -/
theorem entered_close {onPath finished : Std.ExtTreeSet Symbol} (s x : Symbol)
    (h : entered onPath finished x = true) :
    entered (onPath.erase s) (finished.insert s) x = true := by
  simp only [entered, Bool.or_eq_true, Std.ExtTreeSet.contains_erase,
    Std.ExtTreeSet.contains_insert, Bool.and_eq_true] at h ⊢
  by_cases hs : compare s x = .eq <;> simp_all

theorem entered_eq_false_iff {onPath finished : Std.ExtTreeSet Symbol} {s : Symbol} :
    entered onPath finished s = false ↔ onPath.contains s = false ∧ finished.contains s = false := by
  simp [entered]

theorem entered_insert_self (onPath finished : Std.ExtTreeSet Symbol) (s : Symbol) :
    entered (onPath.insert s) finished s = true := by
  simp [entered]

/-! ## The work of a search -/

/-- What a stack of open symbols still costs, by what is left to do in each: that and the
closings. -/
def openWork : List Nat → Nat
  | [] => 0
  | left :: outer => left + 1 + openWork outer

/-- What a search still costs: the open symbols, and opening every symbol not seen, whose agenda is
then left to do. -/
def searchWork (agenda : Symbol → Nat) (symbols : List Symbol) (left : List Nat)
    (onPath finished : Std.ExtTreeSet Symbol) : Nat :=
  openWork left + unseen (fun s => agenda s + 2) symbols (entered onPath finished)

section

variable {agenda : Symbol → Nat} {symbols : List Symbol} {outer : List Nat} {left : Nat}
variable {onPath finished : Std.ExtTreeSet Symbol}

/-- Closing a symbol in which nothing is left to do. -/
theorem searchWork_close (s : Symbol) :
    searchWork agenda symbols outer (onPath.erase s) (finished.insert s) <
      searchWork agenda symbols (0 :: outer) onPath finished := by
  have := unseen_le (fun s => agenda s + 2) symbols
    (entered_close s : ∀ x, entered onPath finished x = true → _)
  simp only [searchWork, openWork]
  omega

/-- Doing one thing in an open symbol. -/
theorem searchWork_next :
    searchWork agenda symbols (left :: outer) onPath finished <
      searchWork agenda symbols ((left + 1) :: outer) onPath finished := by
  simp only [searchWork, openWork]
  omega

/-- Opening a symbol for one thing in an open symbol. -/
theorem searchWork_enter {x : Symbol} (hlisted : x ∈ symbols)
    (hnew : entered onPath finished x = false) :
    searchWork agenda symbols (agenda x :: left :: outer) (onPath.insert x) finished <
      searchWork agenda symbols ((left + 1) :: outer) onPath finished := by
  have := unseen_add_le (fun s => agenda s + 2)
    (entered_open x : ∀ y, entered onPath finished y = true → _) hlisted hnew
    (entered_insert_self onPath finished x)
  simp only [searchWork, openWork]
  omega

end

end EditableGrammar.Recursion
