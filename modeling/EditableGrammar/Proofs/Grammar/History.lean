import EditableGrammar.GrammarFile
import EditableGrammar.Proofs.Recursion.InPlace

set_option autoImplicit false

/-!
# Grammars with a history

A grammar is made by edits, starting from nothing, and an edit that is refused changes nothing.
Whatever the edits were and in whatever order, the grammar that results is well formed.

An edit may pass through grammars that no history ends with: while a symbol is taken out, rules
mention it that is not known any more.  `Passes` holds of the grammars on the way, at every moment
at which the index is used to find rules.  Each of them is indexed, so no number that the index
gives out is ever looked up in vain.
-/

namespace EditableGrammar

/-- One edit of a grammar. -/
inductive Edit where
  /-- add a rule -/
  | add (rule : Rule)
  /-- add rules in order -/
  | extend (rules : List Rule)
  /-- remove a rule, matched by content -/
  | removeRule (rule : Rule)
  /-- remove a symbol -/
  | removeSymbol (symbol : Symbol)
  /-- remove all productions of a symbol -/
  | makeTerminal (symbol : Symbol)
  /-- forget the unreferenced symbols -/
  | prune
  /-- choose the start symbol -/
  | setStart (symbol : Symbol)
  /-- cut the loops reachable from a symbol, be it known or not -/
  | cutLoops (symbol : Symbol)
  /-- go over to the copy without loops -/
  | withoutLoops
  /-- add the rules of a parser generator's grammar file -/
  | load (host : Host) (toolPath : Option String) (path : String)

namespace Grammar

/-- The grammar after an edit, unless the edit is refused. -/
def perform (g : Grammar) : Edit → Except Error Grammar
  | .add r => .ok (g.addRule r).value
  | .extend rules => .ok (g.extend rules).value
  | .removeRule r => (g.removeRule r).map Logged.value
  | .removeSymbol s => (g.removeSymbol s).map Logged.value
  | .makeTerminal s => (g.makeTerminal s).map Logged.value
  | .prune => .ok g.prune.value
  | .setStart s => g.setStart s
  | .cutLoops s => .ok (g.cutLoops s).value
  | .withoutLoops => .ok g.withoutLoops.value
  | .load host toolPath path => (g.loadReport host toolPath path).value

/-- The grammar after an edit; an edit that is refused changes nothing. -/
def after (g : Grammar) (e : Edit) : Grammar :=
  match g.perform e with
  | .ok g' => g'
  | .error _ => g

/-- The grammar that edits make from nothing, the first edit first. -/
def ofHistory (edits : List Edit) : Grammar := edits.foldl after empty

/-! ## Every history leads to a well formed grammar -/

theorem logged_eq_ok_iff {x : Except Error (Logged Grammar)} {g' : Grammar} :
    x.map Logged.value = .ok g' ↔ ∃ l, x = .ok l ∧ l.value = g' := by
  cases x with
  | error e => simp [Except.map]
  | ok l => simp [Except.map]

theorem logged_eq_error_iff {x : Except Error (Logged Grammar)} {e : Error} :
    x.map Logged.value = .error e ↔ x = .error e := by
  cases x with
  | error e => simp [Except.map]
  | ok l => simp [Except.map]

/-- A known symbol can be removed. -/
theorem perform_removeSymbol {g : Grammar} {s : Symbol} (hs : s ∈ g.symbols) :
    ∃ l, g.removeSymbol s = .ok l ∧ g.perform (.removeSymbol s) = .ok l.value := by
  have hl := removeSymbol_eq_ok_iff.2 ⟨mem_symbols.1 hs, rfl⟩
  exact ⟨_, hl, logged_eq_ok_iff.2 ⟨_, hl, rfl⟩⟩

/-- A known symbol can be made a terminal. -/
theorem perform_makeTerminal {g : Grammar} {s : Symbol} (hs : s ∈ g.symbols) :
    g.perform (.makeTerminal s) = .ok (g.eraseRules (g.productions s)).value :=
  logged_eq_ok_iff.2 ⟨_, makeTerminal_eq_ok_iff.2 ⟨mem_symbols.1 hs, rfl⟩, rfl⟩

/-- A known symbol can be chosen as the start. -/
theorem perform_setStart {g : Grammar} {s : Symbol} (hs : s ∈ g.symbols) :
    g.perform (.setStart s) = .ok { g with explicitStart := some s } :=
  setStart_eq_ok_iff.2 ⟨hs, rfl⟩

theorem adoptReport_eq_ok_iff {g g' : Grammar} {rules : List Rule} :
    (g.adoptReport rules).value = .ok g' ↔
      ∃ l, (g.extend rules).value.removeSymbol endMarker = .ok l ∧
        l.value.setStart acceptSymbol = .ok g' := by
  unfold adoptReport
  rw [Logged.value_bind]
  cases (g.extend rules).value.removeSymbol endMarker with
  | error e => simp
  | ok l => simp

theorem loadReport_eq_ok {g g' : Grammar} {host : Host} {toolPath : Option String} {path : String}
    (h : (g.loadReport host toolPath path).value = .ok g') :
    ∃ rules, (host.readRules .report toolPath path).value = .ok rules ∧
      (g.adoptReport rules).value = .ok g' := by
  unfold loadReport at h
  rw [Logged.value_bind] at h
  cases hread : (host.readRules .report toolPath path).value with
  | error e =>
    rw [hread] at h
    cases h
  | ok rules =>
    refine ⟨rules, rfl, ?_⟩
    rw [hread] at h
    dsimp only at h
    rw [Logged.value_bind] at h
    cases hadopt : (g.adoptReport rules).value with
    | error e =>
      rw [hadopt] at h
      cases h
    | ok loaded =>
      rw [hadopt] at h
      exact h

theorem WellFormed.adoptReport {g g' : Grammar} (hg : g.WellFormed) {rules : List Rule}
    (h : (g.adoptReport rules).value = .ok g') : g'.WellFormed := by
  obtain ⟨l, hremove, hstart⟩ := adoptReport_eq_ok_iff.1 h
  exact ((hg.extend rules).removeSymbol hremove).setStart hstart

/-- One edit keeps a grammar well formed. -/
theorem WellFormed.perform {g g' : Grammar} (hg : g.WellFormed) {e : Edit}
    (h : g.perform e = .ok g') : g'.WellFormed := by
  cases e with
  | add r =>
    cases h
    exact hg.addRule r
  | extend rules =>
    cases h
    exact hg.extend rules
  | removeRule r =>
    obtain ⟨l, hl, rfl⟩ := logged_eq_ok_iff.1 h
    exact hg.removeRule hl
  | removeSymbol s =>
    obtain ⟨l, hl, rfl⟩ := logged_eq_ok_iff.1 h
    exact hg.removeSymbol hl
  | makeTerminal s =>
    obtain ⟨l, hl, rfl⟩ := logged_eq_ok_iff.1 h
    exact hg.makeTerminal hl
  | prune =>
    cases h
    exact hg.prune
  | setStart s => exact hg.setStart h
  | cutLoops s =>
    cases h
    exact hg.cutLoops s
  | withoutLoops =>
    cases h
    exact hg.withoutLoops
  | load host toolPath path =>
    obtain ⟨rules, -, hadopt⟩ := loadReport_eq_ok h
    exact hg.adoptReport hadopt

theorem WellFormed.after {g : Grammar} (hg : g.WellFormed) (e : Edit) : (g.after e).WellFormed := by
  unfold Grammar.after
  split
  next h => exact hg.perform h
  next => exact hg

/-- A chain of edits keeps a grammar well formed. -/
theorem WellFormed.foldl_after {g : Grammar} (hg : g.WellFormed) (edits : List Edit) :
    (edits.foldl Grammar.after g).WellFormed := by
  induction edits generalizing g with
  | nil => exact hg
  | cons e edits ih => exact ih (hg.after e)

theorem ofHistory_wellFormed (edits : List Edit) : (ofHistory edits).WellFormed :=
  empty_wellFormed.foldl_after edits

/-- A grammar to which rules were added, and nothing else was done, has just these. -/
theorem mem_ruleSet_ofHistory_extend {rules : List Rule} {r : Rule} :
    r ∈ (ofHistory [.extend rules]).ruleSet ↔ r ∈ rules := by
  have hadded : r ∈ (ofHistory [.extend rules]).ruleSet ↔ r ∈ rules ∨ r ∈ empty.ruleSet :=
    empty_wellFormed.mem_ruleSet_extend
  rw [hadded]
  simp [empty, ruleSet, numberedRules]

/-! ## The grammars on the way -/

/-- The grammars passed through while rules are added in order. -/
def addPasses (g : Grammar) (rules : List Rule) : List Grammar :=
  rules.scanl (fun h r => (h.addRule r).value) g

/-- The grammars passed through while the rules of some numbers are erased. -/
def erasePasses (g : Grammar) (ids : List RuleId) : List Grammar :=
  ids.scanl (fun h id => (h.eraseRule id).value) g

/-- The grammars passed through while a symbol is struck out.  The symbol is forgotten first. -/
def strikePasses (g : Grammar) (s : Symbol) : List Grammar :=
  (g.occurrences s).scanl (fun h id => (strikeFromRule s h id).value)
    { g with index := g.index.erase s }

/-- The grammars passed through while a symbol is removed. -/
def removalPasses (g : Grammar) (s : Symbol) : List Grammar :=
  g.erasePasses (g.productions s) ++ (g.eraseRules (g.productions s)).value.strikePasses s

/-- The walk that cuts loops on its way comes to a grammar. -/
def CutPasses (g : Grammar) (s : Symbol) (h : Grammar) : Prop :=
  ∃ p, Recursion.InPlace.Steps (Recursion.InPlace.start g s) p ∧ p.grammar = h

/-- An edit of a grammar `g` reads the grammar `h` on its way. -/
def Passes (g : Grammar) (e : Edit) (h : Grammar) : Prop :=
  match e with
  | .add _ => h = g
  | .extend rules => h ∈ g.addPasses rules
  | .removeRule r =>
    h ∈ g.erasePasses ((g.productions r.lhs).filter fun id => g.rhs? id == some r.rhs)
  | .removeSymbol s => h ∈ g.removalPasses s
  | .makeTerminal s => h ∈ g.erasePasses (g.productions s)
  | .prune => h = g
  | .setStart _ => h = g
  | .cutLoops s => g.CutPasses s h
  | .withoutLoops =>
    h = g ∨ ∃ s, g.startSymbol = some s ∧ { g with explicitStart := some s }.CutPasses s h
  | .load host toolPath path =>
    h = g ∨ ∃ rules, (host.readRules .report toolPath path).value = .ok rules ∧
      (h ∈ g.addPasses rules ∨ h ∈ (g.extend rules).value.removalPasses endMarker)

/-- What holds at first, of all that is left to do, and is kept by every step for what is left then,
holds on the way. -/
theorem forall_mem_scanl {α : Type} {f : Grammar → α → Grammar} {P : List α → Grammar → Prop}
    (hstep : ∀ {a left h}, P (a :: left) h → P left (f h a)) {left : List α} {g h : Grammar}
    (hg : P left g) (hh : h ∈ left.scanl f g) : ∃ left, P left h := by
  induction left generalizing g with
  | nil =>
    rw [List.scanl_nil, List.mem_singleton] at hh
    exact ⟨[], hh ▸ hg⟩
  | cons a left ih =>
    rw [List.scanl_cons, List.mem_cons] at hh
    rcases hh with rfl | hh
    · exact ⟨_, hg⟩
    · exact ih (hstep hg) hh

section Passes

variable {g h : Grammar}

theorem WellFormed.addPasses (hg : g.WellFormed) {rules : List Rule} (hh : h ∈ g.addPasses rules) :
    h.WellFormed := by
  obtain ⟨_, hmid⟩ :=
    forall_mem_scanl (P := fun _ h => h.WellFormed) (fun hmid => hmid.addRule _) hg hh
  exact hmid

theorem WellFormed.erasePasses (hg : g.WellFormed) {ids : List RuleId}
    (hh : h ∈ g.erasePasses ids) : h.WellFormed := by
  obtain ⟨_, hmid⟩ :=
    forall_mem_scanl (P := fun _ h => h.WellFormed) (fun hmid => hmid.eraseRule _) hg hh
  exact hmid

theorem WellFormed.cutPasses (hg : g.WellFormed) {s : Symbol} (hh : g.CutPasses s h) :
    h.WellFormed := by
  obtain ⟨p, hsteps, rfl⟩ := hh
  exact ((Recursion.InPlace.Sound.start hg s).steps hsteps).wellFormed

/-- While a symbol is removed the index stays in step, though rules mention what is not known any
more. -/
theorem WellFormed.removalPasses (hg : g.WellFormed) {s : Symbol} (hh : h ∈ g.removalPasses s) :
    h.Indexed := by
  rcases List.mem_append.1 hh with hh | hh
  · exact (hg.erasePasses hh).toIndexed
  · have hbare := (hg.eraseRules (g.productions s)).forget hg.lhs_ne_of_eraseRules
    obtain ⟨_, hmid⟩ := forall_mem_scanl (fun hmid => hmid.strikeFromRule) hbare hh
    exact hmid.toIndexed

/-- Wherever an edit finds itself, the index agrees with the rules. -/
theorem WellFormed.passes (hg : g.WellFormed) {e : Edit} (hh : g.Passes e h) : h.Indexed := by
  cases e with
  | add r => exact hh ▸ hg.toIndexed
  | extend rules => exact (hg.addPasses hh).toIndexed
  | removeRule r => exact (hg.erasePasses hh).toIndexed
  | removeSymbol s => exact hg.removalPasses hh
  | makeTerminal s => exact (hg.erasePasses hh).toIndexed
  | prune => exact hh ▸ hg.toIndexed
  | setStart s => exact hh ▸ hg.toIndexed
  | cutLoops s => exact (hg.cutPasses hh).toIndexed
  | withoutLoops =>
    rcases hh with rfl | ⟨s, hs, hh⟩
    · exact hg.toIndexed
    · exact ((hg.startAt (hg.startSymbol_known hs)).cutPasses hh).toIndexed
  | load host toolPath path =>
    rcases hh with rfl | ⟨rules, -, hh | hh⟩
    · exact hg.toIndexed
    · exact (hg.addPasses hh).toIndexed
    · exact (hg.extend rules).removalPasses hh

end Passes

/-- Every grammar with a history is well formed, and whatever is done to it next, every number that
the index lists on the way is that of a stored rule. -/
theorem ofHistory_index_agrees (edits : List Edit) :
    (ofHistory edits).WellFormed ∧
      ∀ e g, (ofHistory edits).Passes e g → ∀ s id,
        id ∈ g.productions s ∨ id ∈ g.occurrences s → ∃ r, g.rules[id]? = some r := by
  have hwf := ofHistory_wellFormed edits
  refine ⟨hwf, ?_⟩
  intro e g hpass s id hid
  have hg := hwf.passes hpass
  rcases hid with hid | hid
  · obtain ⟨r, hr, -⟩ := hg.mem_productions_iff.1 hid
    exact ⟨r, hr⟩
  · obtain ⟨r, hr, -⟩ := hg.of_mem_occurrences hid
    exact ⟨r, hr⟩

end Grammar

end EditableGrammar
