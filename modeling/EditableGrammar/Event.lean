import EditableGrammar.Rule

set_option autoImplicit false

/-!
# What an operation reports while it works

Edits and searches leave a trace of events.  `Logged α` is a result of type `α` together with the
events that led to it, oldest first.  The trace never feeds back: `value_bind` and `value_foldl`
say that the value of a chain of logged steps is the chain of their values.
-/

namespace EditableGrammar

/-- One thing that happened to a grammar. -/
inductive Event where
  /-- a new rule was stored under a number -/
  | added (rule : Rule) (id : RuleId)
  /-- the rule of a number was erased -/
  | erased (id : RuleId)
  /-- a symbol was taken out, its own productions being gone already -/
  | symbolRemoved (symbol : Symbol)
  /-- two productions became equal and one of them goes -/
  | merged (dropped kept : RuleId)
  /-- symbols that no rule mentions were collected -/
  | pruned (count : Nat)
  /-- recursive occurrences reachable from a symbol were cut -/
  | cut (count : Nat) (root : Symbol)
  /-- a recursive grammar is replaced by a copy without loops -/
  | unrolled
  /-- rules were read from a report -/
  | decoded (count : Nat)
  /-- a grammar file was loaded and the grammar now has this many rules -/
  | loaded (count : Nat) (path : String)
  deriving DecidableEq, Repr, Inhabited

namespace Event

/-- The text of a rule number. -/
def number (id : RuleId) : String := "#" ++ toString id

/-- How important an event is. -/
inductive Level where
  | info
  | debug
  deriving DecidableEq, Repr, Inhabited

/-- Only a finished load is news to the user; the rest is detail. -/
def level : Event → Level
  | .loaded _ _ => .info
  | _ => .debug

/-- The wording of an event. -/
def text : Event → String
  | .added rule id => "Adding rule " ++ rule.text ++ " as " ++ number id
  | .erased id => "Removing rule " ++ number id
  | .symbolRemoved symbol => "Removing symbol " ++ symbol
  | .merged dropped kept =>
    "Dropping " ++ number dropped ++ " as a duplicate of " ++ number kept ++ " after rewrite"
  | .pruned count => "Pruned " ++ toString count ++ " unreferenced symbols"
  | .cut count root =>
    "Removed " ++ toString count ++ " recursive occurrences reachable from " ++ root
  | .unrolled => "Grammar is not finite, generating from a loop-free copy"
  | .decoded count => "Decoded " ++ toString count ++ " rules from bison report"
  | .loaded count path => "Loaded " ++ toString count ++ " rules from " ++ path

end Event

/-- A value with the events that led to it, oldest first. -/
structure Logged (α : Type) where
  value : α
  events : Array Event
  deriving Repr

namespace Logged

variable {α β : Type}

/-- A value that nothing led to. -/
def pure (a : α) : Logged α := ⟨a, #[]⟩

/-- A value that one event led to. -/
def note (e : Event) (a : α) : Logged α := ⟨a, #[e]⟩

/-- Go on from a value; what happens next is logged after what happened before. -/
def bind (x : Logged α) (f : α → Logged β) : Logged β :=
  let y := f x.value
  ⟨y.value, x.events ++ y.events⟩

/-- Change a value without an event. -/
def map (f : α → β) (x : Logged α) : Logged β := ⟨f x.value, x.events⟩

/-- Add an event after all others. -/
def also (x : Logged α) (e : Event) : Logged α := ⟨x.value, x.events.push e⟩

/-- Walk a list from its head, threading a value through the steps. -/
def foldl (f : β → α → Logged β) (init : β) (l : List α) : Logged β :=
  l.foldl (fun acc a => acc.bind (f · a)) (pure init)

instance : Monad Logged where
  pure := pure
  bind := bind

/-! ## The value of a chain of steps -/

@[simp] theorem value_pure (a : α) : (pure a).value = a := rfl

@[simp] theorem value_note (e : Event) (a : α) : (note e a).value = a := rfl

@[simp] theorem value_bind (x : Logged α) (f : α → Logged β) :
    (x.bind f).value = (f x.value).value := rfl

@[simp] theorem value_map (f : α → β) (x : Logged α) : (x.map f).value = f x.value := rfl

@[simp] theorem value_also (x : Logged α) (e : Event) : (x.also e).value = x.value := rfl

theorem value_foldl_bind (f : β → α → Logged β) (x : Logged β) (l : List α) :
    (l.foldl (fun acc a => acc.bind (f · a)) x).value =
      l.foldl (fun b a => (f b a).value) x.value := by
  induction l generalizing x with
  | nil => rfl
  | cons a l ih => simp only [List.foldl_cons, ih, value_bind]

@[simp] theorem value_foldl (f : β → α → Logged β) (init : β) (l : List α) :
    (foldl f init l).value = l.foldl (fun b a => (f b a).value) init :=
  value_foldl_bind f (pure init) l

end Logged

end EditableGrammar
