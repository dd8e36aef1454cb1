import Std.Data.ExtTreeMap
import EditableGrammar.Language.Product
import EditableGrammar.Recursion.Cut

set_option autoImplicit false

/-!
# Sentences

A symbol without productions stands for itself.  Any other symbol yields what its productions yield,
and a production yields every joining of what its symbols yield, in order.  For a finite grammar
this is a finite set, computed bottom up: a symbol is expanded once all symbols of its productions
are, and every expansion is kept.

The work list may hold a symbol many times; the later times it is found expanded already.  On a
finite grammar `budget` steps are enough: each symbol puts the symbols of its productions on the
list once, and is itself taken off once for every time it was put there.
-/

namespace EditableGrammar

/-- A list of sentences in order and without repetitions. -/
def distinct (ws : List Sentence) : List Sentence := (Std.ExtTreeSet.ofList ws).toList

theorem mem_distinct {ws : List Sentence} {w : Sentence} : w ∈ distinct ws ↔ w ∈ ws := by
  simp [distinct, Std.ExtTreeSet.mem_ofList]

/-- The expansions known so far. -/
abbrev Expansions := Std.ExtTreeMap Symbol (List Sentence)

/-- The state of the bottom-up computation. -/
structure Expanding where
  /-- the work list; its head is looked at next -/
  pending : List Symbol
  known : Expansions

namespace Expanding

/-- What a symbol yields, from what the symbols of its productions yield. -/
def combine (g : Grammar) (known : Expansions) (s : Symbol) : List Sentence :=
  match g.productions s with
  | [] => [[s]]
  | ids =>
    distinct (ids.flatMap fun id =>
      product (((g.rhs? id).getD []).map fun x => known.getD x []))

/-- The symbols of the productions of `s` that are not expanded yet, with repetitions. -/
def missing (g : Grammar) (known : Expansions) (s : Symbol) : List Symbol :=
  (g.successors s).filter fun x => !known.contains x

/-- Look at the head of the work list: drop it if it is expanded, expand it if nothing is missing,
else put what is missing before it, the last missing symbol first. -/
def step (g : Grammar) (e : Expanding) : Expanding :=
  match e.pending with
  | [] => e
  | s :: rest =>
    if e.known.contains s then { e with pending := rest }
    else
      match missing g e.known s with
      | [] => ⟨rest, e.known.insert s (combine g e.known s)⟩
      | absent => ⟨absent.reverse ++ s :: rest, e.known⟩

/-- Work until the list is empty, for at most so many steps. -/
def run (g : Grammar) : Nat → Expanding → Expanding
  | 0, e => e
  | n + 1, e => if e.pending.isEmpty then e else run g n (step g e)

/-- Steps that are enough on a finite grammar: one for the first symbol, and for every production
one for each of its symbols and one for putting them on the list. -/
def budget (g : Grammar) : Nat :=
  g.numberedRules.foldr (fun entry steps => entry.2.rhs.length + 1 + steps) 1

end Expanding

namespace Grammar

/-- What a symbol yields in a finite grammar, in order. -/
def expand (g : Grammar) (s : Symbol) : List Sentence :=
  (Expanding.run g (Expanding.budget g) ⟨[s], ∅⟩).known.getD s []

/-- Every sentence of the grammar.  A recursive grammar is replaced by its copy without loops; a
grammar without a start symbol has no sentences. -/
def sentences (g : Grammar) : Logged (Std.ExtTreeSet Sentence) :=
  match g.startSymbol with
  | none => .pure ∅
  | some s => g.finiteView.map fun view => .ofList (view.expand s)

end Grammar

end EditableGrammar
