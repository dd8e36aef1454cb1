import EditableGrammar.Grammar.Basic
import EditableGrammar.Recursion.Budget

set_option autoImplicit false

/-!
# Finiteness

Derivation from a symbol recurses when some symbol reachable from it can reach itself.  The test is
a depth-first walk with its own stack of open frames: a frame holds a symbol and the successors
still to be looked at.  A successor that is on the path of open frames closes a loop; one that was
finished before is not entered again, so a symbol shared by several branches is no loop.

An unknown symbol has no productions, so there is nothing to enter.

The walk ends because a symbol is entered at most once: `Walk.work` falls at every step.
-/

namespace EditableGrammar

namespace Recursion

/-- A symbol whose successors are being looked at. -/
structure Frame where
  symbol : Symbol
  /-- the successors still to be looked at -/
  pending : List Symbol
  deriving DecidableEq, Repr

/-- The state of the walk. -/
structure Walk where
  /-- the open frames, innermost first -/
  stack : List Frame
  /-- the symbols of the open frames -/
  onPath : Std.ExtTreeSet Symbol
  /-- the symbols whose frames were closed -/
  finished : Std.ExtTreeSet Symbol
  deriving DecidableEq

namespace Walk

/-- Open a frame for a symbol. -/
def enter (g : Grammar) (s : Symbol) : Frame := ⟨s, g.successors s⟩

/-- The walk that starts at a symbol. -/
def start (g : Grammar) (s : Symbol) : Walk := ⟨[enter g s], {s}, ∅⟩

/-- What one step of the walk leads to. -/
inductive Outcome where
  /-- the walk is over, and no loop was met (`true`) or one was (`false`) -/
  | verdict (finite : Bool)
  /-- the walk goes on -/
  | next (w : Walk)

/-- One step: close a frame, or look at one successor of the innermost symbol. -/
def step (g : Grammar) (w : Walk) : Outcome :=
  match w.stack with
  | [] => .verdict true
  | ⟨s, []⟩ :: outer => .next ⟨outer, w.onPath.erase s, w.finished.insert s⟩
  | ⟨s, x :: pending⟩ :: outer =>
    if w.onPath.contains x then .verdict false
    else if w.finished.contains x || !g.containsSymbol x then
      .next { w with stack := ⟨s, pending⟩ :: outer }
    else .next ⟨enter g x :: ⟨s, pending⟩ :: outer, w.onPath.insert x, w.finished⟩

/-! ## Termination -/

/-- What the walk still costs: the successors left in the open frames, and entering every symbol not
seen. -/
def work (g : Grammar) (w : Walk) : Nat :=
  searchWork (fun s => (g.successors s).length) g.symbols (w.stack.map fun f => f.pending.length)
    w.onPath w.finished

theorem work_step_lt {g : Grammar} {w w' : Walk} (h : step g w = .next w') :
    work g w' < work g w := by
  obtain ⟨stack, onPath, finished⟩ := w
  unfold step at h
  split at h
  · cases h
  · next s outer heq =>
    cases h
    obtain rfl : stack = _ := heq
    exact searchWork_close s
  · next s x pending outer heq =>
    obtain rfl : stack = _ := heq
    split at h
    · cases h
    split at h
    · cases h
      exact searchWork_next
    · next hpath hskip =>
      cases h
      simp only [Bool.or_eq_true, Bool.not_eq_true', not_or, Bool.not_eq_true,
        Bool.not_eq_false] at hskip hpath
      exact searchWork_enter (Grammar.containsSymbol_iff.1 hskip.2)
        (entered_eq_false_iff.2 ⟨hpath, hskip.1⟩)

/-- Walk to the end and say whether no loop was met. -/
def run (g : Grammar) (w : Walk) : Bool :=
  match _h : step g w with
  | .verdict finite => finite
  | .next w' => run g w'
termination_by work g w
decreasing_by exact work_step_lt _h

end Walk

end Recursion

namespace Grammar

/-- Whether derivation from a symbol is free of recursion. -/
def isFiniteFrom (g : Grammar) (s : Symbol) : Bool :=
  Recursion.Walk.run g (Recursion.Walk.start g s)

/-- Whether derivation from the start symbol is free of recursion.  Without a start symbol there is
nothing to derive. -/
def isFinite (g : Grammar) : Bool :=
  match g.startSymbol with
  | some s => g.isFiniteFrom s
  | none => true

end Grammar

end EditableGrammar
