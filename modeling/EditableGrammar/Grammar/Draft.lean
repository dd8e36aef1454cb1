import EditableGrammar.Grammar.Edit

set_option autoImplicit false

/-!
# Drafts

A draft collects rules and a wish for the start symbol.  The wish is checked only when the grammar
is built, so it may name a symbol that a later rule brings in.
-/

namespace EditableGrammar

/-- A grammar in the making. -/
structure Draft where
  grammar : Grammar := .empty
  start : Option Symbol := none

namespace Draft

/-- Add a rule. -/
def addRule (d : Draft) (r : Rule) : Draft := { d with grammar := (d.grammar.addRule r).value }

/-- Wish for a start symbol.  The last wish counts. -/
def startAt (d : Draft) (s : Symbol) : Draft := { d with start := some s }

/-- The finished grammar, unless the symbol wished for is not in it. -/
def build (d : Draft) : Except Error Grammar :=
  match d.start with
  | none => .ok d.grammar
  | some s => d.grammar.setStart s

end Draft

end EditableGrammar
