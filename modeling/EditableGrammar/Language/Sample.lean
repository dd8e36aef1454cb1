import EditableGrammar.Language.Draw
import EditableGrammar.Recursion.Cut

set_option autoImplicit false

/-!
# Samples

A sample derives one sentence from the left: the first symbol that has productions is replaced by
the right-hand side of one of them, chosen by chance, until only terminals are left.  In a grammar
without loops the derivation ends as soon as every choice does.
-/

namespace EditableGrammar

namespace Grammar

section

variable {σ : Type}

/-- Derive a sentence from the sentential form `done.reverse ++ pending`, whose first part holds
terminals only.  A derivation that does not end is `none`. -/
def derive (g : Grammar) (next : Generator σ) (done : Sentence) (pending : List Symbol)
    (supply : σ) : Option (Sentence × σ) :=
  match pending with
  | [] => some (done.reverse, supply)
  | s :: later =>
    match g.productions s with
    | [] => g |>.derive next (s :: done) later supply
    | ids =>
      match choose next ids supply with
      | none => none
      | some (id, supply) => g |>.derive next done ((g.rhs? id).getD [] ++ later) supply
partial_fixpoint

/-- One sentence, drawn from a supply of words, and the supply after it.  A recursive grammar is
replaced by its copy without loops; a grammar without a start symbol has no sentence, and no word is
taken then.  A derivation that does not end is `none`. -/
def sample (g : Grammar) (next : Generator σ) (supply : σ) :
    Logged (Option (Option Sentence × σ)) :=
  match g.startSymbol with
  | none => .pure (some (none, supply))
  | some s =>
    g.finiteView.map fun view =>
      (view.derive next [] [s] supply).map fun (w, supply) => (some w, supply)

end

/-- So many sentences derived from `s`, one after the other, earliest first, each in the same view
of a grammar and with the events that led to this view. -/
def deriveMany (s : Symbol) (view : Logged Grammar) :
    Nat → WordSource → Logged (List Sentence × WordSource)
  | 0, source => .pure ([], source)
  | n + 1, source =>
    (view.map fun g => g.derive WordSource.next [] [s] source).bind fun
      | none => .pure ([], source)
      | some (w, source) =>
        (deriveMany s view n source).map fun (ws, source) => (w :: ws, source)

/-- So many samples, one after the other, earliest first. -/
def samples (g : Grammar) (n : Nat) (source : WordSource) : Logged (List Sentence × WordSource) :=
  match g.startSymbol with
  | none => .pure ([], source)
  | some s => deriveMany s g.finiteView n source

/-- Taking samples is taking one and then the others. -/
theorem samples_succ (g : Grammar) (n : Nat) (source : WordSource) :
    g.samples (n + 1) source =
      (g.sample WordSource.next source).bind fun
        | some (some w, source) =>
          (g.samples n source).map fun (ws, source) => (w :: ws, source)
        | _ => .pure ([], source) := by
  unfold samples sample
  cases g.startSymbol with
  | none => rfl
  | some s =>
    simp only [deriveMany, Logged.bind, Logged.map]
    cases g.finiteView.value.derive WordSource.next [] [s] source with
    | none => rfl
    | some drawn => rfl

end Grammar

end EditableGrammar
