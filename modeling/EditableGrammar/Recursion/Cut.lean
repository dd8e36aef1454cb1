import EditableGrammar.Grammar.Edit
import EditableGrammar.Recursion.Finite

set_option autoImplicit false

/-!
# Cutting loops

A recursive grammar is made finite by dropping occurrences from right-hand sides, and only those
that a depth-first survey meets on its own path.  The survey opens symbols as the finiteness walk
does, but takes the productions of a symbol in the order of their right-hand sides, so that what it
finds depends on the rules alone and not on their numbers.

While a symbol is open, the path that led to it does not change.  When all occurrences of one of its
productions have been visited, those on the path are cut and the others kept; the symbol itself is
on its path.  The survey reads the grammar as it is and lists its cuts.  The cuts are then made in
the order in which they were found, and where two productions become equal the older one stays.
-/

namespace EditableGrammar

namespace Recursion

/-- One thing to do in an open symbol. -/
inductive Visit where
  /-- look at one occurrence in a right-hand side -/
  | occurrence (s : Symbol)
  /-- settle the production with this number, all its occurrences having been looked at -/
  | settle (id : RuleId) (rhs : List Symbol)
  deriving DecidableEq, Repr

/-- An open symbol with what is left to do in it. -/
structure Opened where
  symbol : Symbol
  pending : List Visit
  deriving DecidableEq, Repr

/-- A cut in the production with number `id`: what its right-hand side keeps, and how many
occurrences it loses. -/
structure Cut where
  id : RuleId
  kept : List Symbol
  lost : Nat
  deriving DecidableEq, Repr

/-- How many occurrences some cuts lose together. -/
def Cut.totalLost (cuts : List Cut) : Nat := cuts.foldr (fun cut total => cut.lost + total) 0

/-- The state of the survey. -/
structure Survey where
  /-- the open symbols, innermost first -/
  stack : List Opened
  /-- the open symbols as a set -/
  onPath : Std.ExtTreeSet Symbol
  /-- the symbols that were opened and closed again -/
  finished : Std.ExtTreeSet Symbol
  /-- the cuts found, latest first -/
  cuts : List Cut
  deriving DecidableEq

namespace Survey

/-- The productions of a symbol with their right-hand sides, in the order of these. -/
def productionsByContent (g : Grammar) (s : Symbol) : List (RuleId × List Symbol) :=
  ((g.productions s).filterMap fun id => (g.rhs? id).map fun rhs => (id, rhs)).mergeSort
    fun a b => (compare a.2 b.2).isLE

/-- Everything there is to do in a symbol. -/
def visits (g : Grammar) (s : Symbol) : List Visit :=
  (productionsByContent g s).flatMap fun (id, rhs) => rhs.map .occurrence ++ [.settle id rhs]

/-- Open a symbol. -/
def enter (g : Grammar) (s : Symbol) : Opened := ⟨s, visits g s⟩

/-- The survey that starts at a symbol. -/
def start (g : Grammar) (s : Symbol) : Survey := ⟨[enter g s], {s}, ∅, []⟩

/-- The right-hand side without the symbols on the path. -/
def keep (onPath : Std.ExtTreeSet Symbol) (rhs : List Symbol) : List Symbol :=
  rhs.filter fun s => !onPath.contains s

/-- One step: close a symbol, settle a production or look at an occurrence.  No step is left when
no symbol is open. -/
def step (g : Grammar) (w : Survey) : Option Survey :=
  match w.stack with
  | [] => none
  | ⟨s, []⟩ :: outer =>
    some { w with stack := outer, onPath := w.onPath.erase s, finished := w.finished.insert s }
  | ⟨s, .settle id rhs :: pending⟩ :: outer =>
    let kept := keep w.onPath rhs
    if kept.length = rhs.length then some { w with stack := ⟨s, pending⟩ :: outer }
    else
      some { w with
        stack := ⟨s, pending⟩ :: outer
        cuts := ⟨id, kept, rhs.length - kept.length⟩ :: w.cuts }
  | ⟨s, .occurrence x :: pending⟩ :: outer =>
    if entered w.onPath w.finished x || !g.containsSymbol x then
      some { w with stack := ⟨s, pending⟩ :: outer }
    else
      some { w with
        stack := enter g x :: ⟨s, pending⟩ :: outer
        onPath := w.onPath.insert x }

/-! ## Termination -/

/-- What the survey still costs: what is left to do in the open symbols, and opening every symbol
not seen. -/
def work (g : Grammar) (w : Survey) : Nat :=
  searchWork (fun s => (visits g s).length) g.symbols (w.stack.map fun f => f.pending.length)
    w.onPath w.finished

theorem work_step_lt {g : Grammar} {w w' : Survey} (h : step g w = some w') :
    work g w' < work g w := by
  obtain ⟨stack, onPath, finished, cuts⟩ := w
  unfold step at h
  split at h
  · cases h
  · next s outer heq =>
    cases h
    obtain rfl : stack = _ := heq
    exact searchWork_close s
  · next s id rhs pending outer heq =>
    obtain rfl : stack = _ := heq
    simp only at h
    split at h <;> cases h <;> exact searchWork_next
  · next s x pending outer heq =>
    obtain rfl : stack = _ := heq
    split at h
    · cases h
      exact searchWork_next
    · next hskip =>
      cases h
      simp only [Bool.or_eq_true, Bool.not_eq_true', not_or, Bool.not_eq_true,
        Bool.not_eq_false] at hskip
      exact searchWork_enter (Grammar.containsSymbol_iff.1 hskip.2) hskip.1

/-- The survey from a given state to its end. -/
def run (g : Grammar) (w : Survey) : Survey :=
  match _h : step g w with
  | none => w
  | some w' => run g w'
termination_by work g w
decreasing_by exact work_step_lt _h

end Survey

end Recursion

namespace Grammar

/-- The cuts that make derivation from a symbol finite, in the order in which they are made. -/
def loopCuts (g : Grammar) (s : Symbol) : List Recursion.Cut :=
  (Recursion.Survey.run g (Recursion.Survey.start g s)).cuts.reverse

/-- Make derivation from a symbol finite by dropping occurrences that close a loop. -/
def cutLoops (g : Grammar) (s : Symbol) : Logged Grammar :=
  let cuts := g.loopCuts s
  (Logged.foldl (fun g cut => g.changeRhs cut.id cut.kept) g cuts).also
    (.cut (Recursion.Cut.totalLost cuts) s)

/-- The grammar with the loops reachable from its start symbol cut and that start symbol chosen. -/
def withoutLoops (g : Grammar) : Logged Grammar :=
  match g.startSymbol with
  | none => .pure g
  | some s => ({ g with explicitStart := some s }).cutLoops s

/-- The grammar that sentences are taken from: itself if it is finite, else its copy without
loops. -/
def finiteView (g : Grammar) : Logged Grammar :=
  if g.isFinite then .pure g else (Logged.note .unrolled g).bind withoutLoops

end Grammar

end EditableGrammar
