import EditableGrammar.Proofs.Grammar.History
import EditableGrammar.Proofs.Grammar.Removal

set_option autoImplicit false

/-!
# A refused call changes nothing

The edits of a grammar give a new grammar or none.  Here they are carried out on one grammar that is
changed in place, step by step: when a step is refused, what the steps before it did has been done.
Some calls change the grammar before they have asked all their questions.  Removing a symbol erases
its productions before it looks the symbol up once more, and adopting a report takes the end marker
out before it asks for the symbol to start at.

All the same a call does what the edit does, and where the edit is refused the grammar is as it was
(`carriesOut_call`): the second look-up always succeeds, and a report is adopted on a copy.  What is
refused, and why, can be told from the rules and the symbols before the call (`RefusedFor`).
-/

namespace EditableGrammar

/-- A call on a grammar.  When it is refused, the grammar is what the steps before the refusal have
made of it. -/
abbrev Call (α : Type) := EStateM Error Grammar α

namespace Call

open Grammar

variable {α β : Type}

/-! ## The calls, step by step -/

/-- Change the grammar once for each element of a list. -/
def each (f : Grammar → α → Grammar) (l : List α) : Call Unit := forM l fun a => modify (f · a)

/-- The entry of a symbol in the index; an unknown symbol is refused. -/
def entry (s : Symbol) : Call Uses := do
  match (← get).index[s]? with
  | some uses => return uses
  | none => throw (.unknownSymbol s)

/-- Add rules in order. -/
def extend (rules : List Rule) : Call Unit := each (fun g r => (g.addRule r).value) rules

/-- Erase the rules of some numbers, in order. -/
def eraseRules (ids : List RuleId) : Call Unit := each (fun g id => (g.eraseRule id).value) ids

/-- Remove a rule, matched by content. -/
def removeRule (r : Rule) : Call Unit := do
  let g ← get
  match (g.productions r.lhs).filter fun id => g.rhs? id == some r.rhs with
  | [] => throw (.ruleNotFound r)
  | ids => eraseRules ids

/-- Remove all productions of a symbol. -/
def makeTerminal (s : Symbol) : Call Unit := do
  let uses ← entry s
  eraseRules uses.productions.toList

/-- Remove the productions of a symbol, forget it, take it out of the rules that mention it and
forget a choice of it as the start symbol. -/
def removeSymbol (s : Symbol) : Call Unit := do
  makeTerminal s
  let uses ← entry s
  modify fun g => { g with index := g.index.erase s }
  each (fun g id => (strikeFromRule s g id).value) uses.occurrences.toList
  modify fun g =>
    { g with explicitStart := if g.explicitStart = some s then none else g.explicitStart }

/-- Choose the start symbol. -/
def setStart (s : Symbol) : Call Unit := do
  let _ ← entry s
  modify fun g => { g with explicitStart := some s }

/-- Ask whether a symbol is a terminal. -/
def isTerminal (s : Symbol) : Call Bool := do
  let uses ← entry s
  return uses.productions.isEmpty

/-- Carry a call out on a copy, and take the copy over when all of it was done. -/
def onCopy (call : Call Unit) : Call Unit := do
  match call.run (← get) with
  | .ok _ copy => set copy
  | .error e _ => throw e

/-- The rules that were read, unless reading them failed. -/
def imported (rules : Except Error (List Rule)) : Call (List Rule) :=
  match rules with
  | .ok rules => return rules
  | .error e => throw e

/-- Add what was read. -/
def load (rules : Except Error (List Rule)) : Call Unit := do
  extend (← imported rules)

/-- Add the rules of a report, take the end marker out and start at the generator's own first
symbol. -/
def adopt (rules : List Rule) : Call Unit := do
  extend rules
  removeSymbol endMarker
  setStart acceptSymbol

/-- Adopt what was read from a report, on a copy. -/
def loadReport (rules : Except Error (List Rule)) : Call Unit := do
  onCopy (adopt (← imported rules))

/-! ## What comes of a call -/

section Run

variable {g g' : Grammar} {s : Symbol} {rules : List Rule}

theorem run_bind_ok {call : Call α} {a : α} (h : call.run g = .ok a g') (next : α → Call β) :
    (call >>= next).run g = (next a).run g' := by
  show EStateM.bind call next g = _
  unfold EStateM.bind
  rw [show call g = .ok a g' from h]
  rfl

theorem run_bind_error {call : Call α} {e : Error} (h : call.run g = .error e g')
    (next : α → Call β) : (call >>= next).run g = .error e g' := by
  show EStateM.bind call next g = _
  unfold EStateM.bind
  rw [show call g = .error e g' from h]

theorem run_modify (f : Grammar → Grammar) (g : Grammar) :
    (modify f : Call Unit).run g = .ok () (f g) := rfl

theorem run_get (g : Grammar) : (get : Call Grammar).run g = .ok g g := rfl

theorem run_each (f : Grammar → α → Grammar) (l : List α) (g : Grammar) :
    (each f l).run g = .ok () (l.foldl f g) := by
  unfold each
  induction l generalizing g with
  | nil => rfl
  | cons a l ih =>
    rw [List.forM_cons]
    exact (run_bind_ok rfl _).trans (ih (f g a))

theorem run_entry_known {uses : Uses} (h : g.index[s]? = some uses) :
    (entry s).run g = .ok uses g := by
  rw [entry, run_bind_ok (run_get g), h]
  rfl

theorem run_entry_unknown (h : s ∉ g.index) :
    (entry s).run g = .error (.unknownSymbol s) g := by
  rw [entry, run_bind_ok (run_get g), Std.ExtTreeMap.getElem?_eq_none h]
  rfl

theorem run_extend (g : Grammar) (rules : List Rule) :
    (extend rules).run g = .ok () (g.extend rules).value := by
  rw [extend, run_each, Grammar.extend, Logged.value_foldl]

theorem run_eraseRules (g : Grammar) (ids : List RuleId) :
    (eraseRules ids).run g = .ok () (g.eraseRules ids).value := by
  rw [eraseRules, run_each, Grammar.eraseRules, Logged.value_foldl]

theorem productions_of_entry {uses : Uses} (h : g.index[s]? = some uses) :
    g.productions s = uses.productions.toList := by
  rw [productions, h]

theorem occurrences_of_entry {uses : Uses} (h : g.index[s]? = some uses) :
    g.occurrences s = uses.occurrences.toList := by
  rw [occurrences, h]

end Run

/-! ## A call does what its edit does -/

/-- The call does what an edit does; when the edit is refused, so is the call, and the grammar is as
it was. -/
def CarriesOut (call : Call Unit) (g : Grammar) : Except Error Grammar → Prop
  | .ok g' => call.run g = .ok () g'
  | .error e => call.run g = .error e g

section CarriesOut

variable {call : Call Unit} {g g' : Grammar} {s : Symbol} {edit : Except Error Grammar}

theorem CarriesOut.ok_iff (h : call.CarriesOut g edit) :
    call.run g = .ok () g' ↔ edit = .ok g' := by
  cases edit with
  | ok g'' =>
    have hrun : call.run g = .ok () g'' := h
    simp [hrun]
  | error e =>
    have hrun : call.run g = .error e g := h
    simp [hrun]

theorem CarriesOut.error_iff (h : call.CarriesOut g edit) {e : Error} :
    call.run g = .error e g' ↔ edit = .error e ∧ g' = g := by
  cases edit with
  | ok g'' =>
    have hrun : call.run g = .ok () g'' := h
    simp [hrun]
  | error e' =>
    have hrun : call.run g = .error e' g := h
    simp [hrun, eq_comm]

theorem carriesOut_removeRule (g : Grammar) (r : Rule) :
    (removeRule r).CarriesOut g ((g.removeRule r).map Logged.value) := by
  unfold Call.removeRule Grammar.removeRule
  cases hids : (g.productions r.lhs).filter fun id => g.rhs? id == some r.rhs with
  | nil =>
    show EStateM.run _ _ = _
    rw [run_bind_ok (run_get g), hids]
    rfl
  | cons id ids =>
    show EStateM.run _ _ = _
    rw [run_bind_ok (run_get g), hids]
    exact run_eraseRules g (id :: ids)

theorem carriesOut_makeTerminal (g : Grammar) (s : Symbol) :
    (makeTerminal s).CarriesOut g ((g.makeTerminal s).map Logged.value) := by
  by_cases hs : s ∈ g.index
  · obtain ⟨uses, huses⟩ := Index.mem_iff.1 hs
    rw [makeTerminal_eq_ok_iff.2 ⟨hs, rfl⟩]
    show (makeTerminal s).run g = _
    rw [makeTerminal, run_bind_ok (run_entry_known huses), run_eraseRules,
      productions_of_entry huses]
  · rw [makeTerminal_eq_error_iff.2 ⟨mt mem_symbols.1 hs, rfl⟩]
    show (makeTerminal s).run g = _
    rw [makeTerminal, run_bind_error (run_entry_unknown hs)]

/-- Where the productions of a symbol were erased the symbol is known, and it is known still when it
is looked up once more. -/
theorem carriesOut_removeSymbol (g : Grammar) (s : Symbol) :
    (removeSymbol s).CarriesOut g ((g.removeSymbol s).map Logged.value) := by
  have hterminal := carriesOut_makeTerminal g s
  by_cases hs : s ∈ g.index
  · rw [makeTerminal_eq_ok_iff.2 ⟨hs, rfl⟩] at hterminal
    obtain ⟨uses, huses⟩ := Index.mem_iff.1 (mem_index_eraseRules.2 hs)
    rw [removeSymbol_eq_ok_iff.2 ⟨hs, rfl⟩]
    show (removeSymbol s).run g = .ok () ((g.eraseRules (g.productions s)).value.strike s).value
    rw [removeSymbol, run_bind_ok hterminal, run_bind_ok (run_entry_known huses),
      run_bind_ok (run_modify _ _), run_bind_ok (run_each _ _ _), run_modify, value_strike,
      occurrences_of_entry huses]
  · rw [makeTerminal_eq_error_iff.2 ⟨mt mem_symbols.1 hs, rfl⟩] at hterminal
    rw [removeSymbol_eq_error_iff.2 ⟨mt mem_symbols.1 hs, rfl⟩]
    show (removeSymbol s).run g = _
    rw [removeSymbol, run_bind_error hterminal]

theorem carriesOut_setStart (g : Grammar) (s : Symbol) :
    (setStart s).CarriesOut g (g.setStart s) := by
  by_cases hs : s ∈ g.index
  · obtain ⟨uses, huses⟩ := Index.mem_iff.1 hs
    rw [setStart_eq_ok_iff.2 ⟨mem_symbols.2 hs, rfl⟩]
    show (setStart s).run g = _
    rw [setStart, run_bind_ok (run_entry_known huses), run_modify]
  · rw [setStart_eq_error_iff.2 ⟨mt mem_symbols.1 hs, rfl⟩]
    show (setStart s).run g = _
    rw [setStart, run_bind_error (run_entry_unknown hs)]

/-- A question changes nothing, be it answered or refused. -/
theorem run_isTerminal (g : Grammar) (s : Symbol) :
    (isTerminal s).run g =
      match g.isTerminal s with
      | .ok answer => .ok answer g
      | .error e => .error e g := by
  unfold Grammar.isTerminal
  cases hs : g.index[s]? with
  | some uses =>
    rw [isTerminal, run_bind_ok (run_entry_known hs)]
    rfl
  | none => rw [isTerminal, run_bind_error (run_entry_unknown (Index.not_mem_iff.2 hs))]

/-! ## Loading -/

theorem run_onCopy_ok (h : call.run g = .ok () g') : (onCopy call).run g = .ok () g' := by
  rw [onCopy, run_bind_ok (run_get g), h]
  rfl

/-- What a refused call has made of the copy is forgotten. -/
theorem run_onCopy_error {e : Error} (h : call.run g = .error e g') :
    (onCopy call).run g = .error e g := by
  rw [onCopy, run_bind_ok (run_get g), h]
  rfl

theorem run_load_ok (g : Grammar) (rules : List Rule) :
    (load (.ok rules)).run g = .ok () (g.extend rules).value :=
  run_extend g rules

theorem run_load_error (g : Grammar) (e : Error) : (load (.error e)).run g = .error e g := rfl

/-- The copy is adopted just where the end marker can be taken out and the generator's first symbol
can be chosen. -/
theorem carriesOut_loadReport_ok (g : Grammar) (rules : List Rule) :
    (loadReport (.ok rules)).CarriesOut g (g.adoptReport rules).value := by
  have hcopy : loadReport (.ok rules) = onCopy (adopt rules) := rfl
  have hextend := run_extend g rules
  have hremove := carriesOut_removeSymbol (g.extend rules).value endMarker
  rw [hcopy, adoptReport, Logged.value_bind]
  cases hremoved : (g.extend rules).value.removeSymbol endMarker with
  | error e =>
    rw [hremoved] at hremove
    apply run_onCopy_error
    rw [adopt, run_bind_ok hextend, run_bind_error hremove]
  | ok trimmed =>
    rw [hremoved] at hremove
    have hstart := carriesOut_setStart trimmed.value acceptSymbol
    have hadopt : (adopt rules).run g = (setStart acceptSymbol).run trimmed.value := by
      rw [adopt, run_bind_ok hextend, run_bind_ok hremove]
    dsimp only
    rw [Logged.value_map]
    cases hchosen : trimmed.value.setStart acceptSymbol with
    | error e =>
      rw [hchosen] at hstart
      exact run_onCopy_error (hadopt.trans hstart)
    | ok loaded =>
      rw [hchosen] at hstart
      exact run_onCopy_ok (hadopt.trans hstart)

/-- Without the copy a refused report would leave its rules behind. -/
example :
    (match (adopt [⟨"a", ["$end"]⟩]).run .empty with
      | .ok _ _ => none
      | .error e g => some (e, g.size)) = some (.unknownSymbol "$accept", 1) := by
  decide

theorem run_loadReport_error (g : Grammar) (e : Error) :
    (loadReport (.error e)).run g = .error e g := rfl

end CarriesOut

/-- The call is refused for some reasons, and then it has changed nothing. -/
def RefusedFor (call : Call α) (g : Grammar) (why : Error → Prop) : Prop :=
  ∀ e g', call.run g = .error e g' ↔ why e ∧ g' = g

theorem CarriesOut.refusedFor {call : Call Unit} {g : Grammar} {edit : Except Error Grammar}
    (h : call.CarriesOut g edit) {why : Error → Prop} (hwhy : ∀ e, edit = .error e ↔ why e) :
    call.RefusedFor g why := by
  intro e g'
  rw [h.error_iff, hwhy]

/-- A call that goes through is refused for no reason. -/
theorem RefusedFor.of_ok {call : Call α} {g g' : Grammar} {a : α} (h : call.run g = .ok a g')
    {why : Error → Prop} (hwhy : ∀ e, ¬why e) : call.RefusedFor g why := by
  intro e h'
  simp [h, hwhy]

/-- A call that is refused before it has done anything is refused for one reason. -/
theorem RefusedFor.of_error {call : Call α} {g : Grammar} {e : Error}
    (h : call.run g = .error e g) {why : Error → Prop} (hwhy : ∀ e', why e' ↔ e = e') :
    call.RefusedFor g why := by
  intro e' g'
  simp [h, hwhy, eq_comm]

theorem refusedFor_isTerminal (g : Grammar) (s : Symbol) :
    (isTerminal s).RefusedFor g fun e => s ∉ g.symbols ∧ e = .unknownSymbol s := by
  have hrun := run_isTerminal g s
  unfold Grammar.isTerminal at hrun
  cases hs : g.index[s]? with
  | some uses =>
    rw [hs] at hrun
    have hknown : s ∈ g.symbols := mem_symbols.2 (Index.mem_iff.2 ⟨uses, hs⟩)
    exact .of_ok hrun fun e he => he.1 hknown
  | none =>
    rw [hs] at hrun
    have hunknown : s ∉ g.symbols := mt mem_symbols.1 (Index.not_mem_iff.2 hs)
    exact .of_error hrun fun e => by simp [hunknown, eq_comm]

theorem refusedFor_load (g : Grammar) (rules : Except Error (List Rule)) :
    (load rules).RefusedFor g fun e => rules = .error e := by
  cases rules with
  | ok rules => exact .of_ok (run_load_ok g rules) fun e he => by cases he
  | error e => exact .of_error (run_load_error g e) fun e' => by simp

end Call

/-- An edit, carried out in place. -/
def Edit.call : Edit → Call Unit
  | .add r => modify fun g => (g.addRule r).value
  | .extend rules => Call.extend rules
  | .removeRule r => Call.removeRule r
  | .removeSymbol s => Call.removeSymbol s
  | .makeTerminal s => Call.makeTerminal s
  | .prune => modify fun g => g.prune.value
  | .setStart s => Call.setStart s
  | .cutLoops s => modify fun g => (g.cutLoops s).value
  | .withoutLoops => modify fun g => g.withoutLoops.value
  | .load host toolPath path => Call.loadReport (host.readRules .report toolPath path).value

namespace Grammar

theorem value_loadReport (g : Grammar) (host : Host) (toolPath : Option String) (path : String) :
    (g.loadReport host toolPath path).value =
      match (host.readRules .report toolPath path).value with
      | .ok rules => (g.adoptReport rules).value
      | .error e => .error e := by
  unfold loadReport
  rw [Logged.value_bind]
  cases (host.readRules .report toolPath path).value with
  | error e => rfl
  | ok rules =>
    dsimp only
    rw [Logged.value_bind]
    cases (g.adoptReport rules).value <;> rfl

/-- Every edit is all or nothing. -/
theorem carriesOut_call (g : Grammar) (e : Edit) : e.call.CarriesOut g (g.perform e) := by
  cases e with
  | add r => rfl
  | extend rules => exact Call.run_extend g rules
  | removeRule r => exact Call.carriesOut_removeRule g r
  | removeSymbol s => exact Call.carriesOut_removeSymbol g s
  | makeTerminal s => exact Call.carriesOut_makeTerminal g s
  | prune => rfl
  | setStart s => exact Call.carriesOut_setStart g s
  | cutLoops s => rfl
  | withoutLoops => rfl
  | load host toolPath path =>
    have hvalue : g.perform (.load host toolPath path) = _ := value_loadReport g host toolPath path
    rw [hvalue, Edit.call]
    cases (host.readRules .report toolPath path).value with
    | error e => exact Call.run_loadReport_error g e
    | ok rules => exact Call.carriesOut_loadReport_ok g rules

/-! ## What is refused, and why -/

variable {g : Grammar}

theorem WellFormed.removeRule_eq_error_iff (hg : g.WellFormed) {r : Rule} {e : Error} :
    (g.removeRule r).map Logged.value = .error e ↔ r ∉ g.ruleSet ∧ e = .ruleNotFound r := by
  rw [logged_eq_error_iff, removeRule_eq, mem_ruleSet, ← hg.containsRule_iff]
  split
  next h => simp [h]
  next h => simp [h, @eq_comm _ e]

/-- The symbols that a grammar and some rules mention together are known when the rules were
added. -/
theorem WellFormed.mem_symbols_extend (hg : g.WellFormed) {rules : List Rule} {s : Symbol} :
    s ∈ (g.extend rules).value.symbols ↔ s ∈ g.symbols ++ rules.flatMap Rule.symbols := by
  rw [mem_symbols, hg.mem_index_extend, List.mem_append, mem_symbols, or_comm]

/-- The symbol for which a report is not adopted: the end marker, else the generator's first symbol,
where neither the grammar nor the rules of the report mention it. -/
def missing (g : Grammar) (rules : List Rule) : Option Symbol :=
  [endMarker, acceptSymbol].find? fun s => !(g.symbols ++ rules.flatMap Rule.symbols).contains s

theorem WellFormed.adoptReport_eq_error_iff (hg : g.WellFormed) {rules : List Rule} {e : Error} :
    (g.adoptReport rules).value = .error e ↔
      ∃ s, g.missing rules = some s ∧ e = .unknownSymbol s := by
  have hstaged := hg.extend rules
  have hcontains : ∀ s, (g.symbols ++ rules.flatMap Rule.symbols).contains s = true ↔
      s ∈ (g.extend rules).value.symbols := by
    intro s
    rw [List.contains_iff_mem, hg.mem_symbols_extend]
  rw [Grammar.adoptReport, Logged.value_bind, missing]
  cases hremoved : (g.extend rules).value.removeSymbol endMarker with
  | error e' =>
    obtain ⟨hunknown, rfl⟩ := removeSymbol_eq_error_iff.1 hremoved
    rw [← hcontains, Bool.not_eq_true] at hunknown
    rw [List.find?_cons_of_pos (by rw [hunknown, Bool.not_false])]
    simp [@eq_comm _ e]
  | ok trimmed =>
    have hknown : endMarker ∈ (g.extend rules).value.symbols :=
      mem_symbols.2 (removeSymbol_eq_ok_iff.1 hremoved).1
    have haccept : acceptSymbol ∈ trimmed.value.symbols ↔
        acceptSymbol ∈ (g.extend rules).value.symbols := by
      have hdistinct : acceptSymbol ≠ endMarker := by decide
      rw [mem_symbols, mem_symbols, hstaged.mem_index_removeSymbol hremoved]
      exact and_iff_left hdistinct
    rw [← hcontains] at hknown
    dsimp only
    rw [Logged.value_map, setStart_eq_error_iff, haccept, ← hcontains,
      List.find?_cons_of_neg (by rw [hknown]; simp)]
    simp [@eq_comm _ acceptSymbol]

end Grammar

/-- Loading a report is refused where it could not be read, and where a symbol is missing. -/
theorem Grammar.WellFormed.refusedFor_loadReport {g : Grammar} (hg : g.WellFormed)
    (rules : Except Error (List Rule)) :
    (Call.loadReport rules).RefusedFor g fun e =>
      rules = .error e ∨
        ∃ read s, rules = .ok read ∧ g.missing read = some s ∧ e = .unknownSymbol s := by
  cases rules with
  | error e =>
    refine .of_error (Call.run_loadReport_error g e) fun e' => ?_
    simp
  | ok rules =>
    refine (Call.carriesOut_loadReport_ok g rules).refusedFor fun e => ?_
    rw [hg.adoptReport_eq_error_iff]
    simp

/-- The rules of a text, read in some format. -/
def FileFormat.readText (text : String) : FileFormat → Except Error (List Rule)
  | .listing => Listing.read text
  | .json => RuleJson.read text
  | .report => (Report.read text).value

namespace Grammar

/-- Each edit is all or nothing, and so is loading a text.  Removing a rule is refused just where it
is not among the rules; what is done to a symbol or asked about it, just where it is not among the
symbols; loading, just where the rules could not be read or, in the case of a parser generator's
grammar file, where a symbol is missing that the generator's reports mention.  Whatever is refused
leaves the grammar as it was. -/
theorem ofHistory_refused_changes_nothing (edits : List Edit) :
    (∀ edit g', edit.call.run (ofHistory edits) = .ok () g' ↔
      (ofHistory edits).perform edit = .ok g') ∧
    (∀ edit e g', edit.call.run (ofHistory edits) = .error e g' ↔
      (ofHistory edits).perform edit = .error e ∧ g' = ofHistory edits) ∧
    (∀ r, (Call.removeRule r).RefusedFor (ofHistory edits) fun e =>
      r ∉ (ofHistory edits).ruleSet ∧ e = .ruleNotFound r) ∧
    (∀ s, (Call.removeSymbol s).RefusedFor (ofHistory edits) fun e =>
      s ∉ (ofHistory edits).symbols ∧ e = .unknownSymbol s) ∧
    (∀ s, (Call.makeTerminal s).RefusedFor (ofHistory edits) fun e =>
      s ∉ (ofHistory edits).symbols ∧ e = .unknownSymbol s) ∧
    (∀ s, (Call.setStart s).RefusedFor (ofHistory edits) fun e =>
      s ∉ (ofHistory edits).symbols ∧ e = .unknownSymbol s) ∧
    (∀ s, (Call.isTerminal s).RefusedFor (ofHistory edits) fun e =>
      s ∉ (ofHistory edits).symbols ∧ e = .unknownSymbol s) ∧
    (∀ (format : FileFormat) text,
      (Call.load (format.readText text)).RefusedFor (ofHistory edits) fun e =>
        format.readText text = .error e) ∧
    ∀ (host : Host) toolPath path,
      (Call.loadReport (host.readRules .report toolPath path).value).RefusedFor (ofHistory edits)
        fun e => (host.readRules .report toolPath path).value = .error e ∨
          ∃ rules s, (host.readRules .report toolPath path).value = .ok rules ∧
            (ofHistory edits).missing rules = some s ∧ e = .unknownSymbol s := by
  have hg := ofHistory_wellFormed edits
  refine ⟨?_, ?_, ?_, ?_, ?_, ?_, ?_, ?_, ?_⟩
  · intro edit g'
    exact (carriesOut_call _ edit).ok_iff
  · intro edit e g'
    exact (carriesOut_call _ edit).error_iff
  · intro r
    exact (Call.carriesOut_removeRule _ r).refusedFor fun e => hg.removeRule_eq_error_iff
  · intro s
    refine (Call.carriesOut_removeSymbol _ s).refusedFor fun e => ?_
    rw [logged_eq_error_iff, removeSymbol_eq_error_iff]
  · intro s
    refine (Call.carriesOut_makeTerminal _ s).refusedFor fun e => ?_
    rw [logged_eq_error_iff, makeTerminal_eq_error_iff]
  · intro s
    exact (Call.carriesOut_setStart _ s).refusedFor fun e => setStart_eq_error_iff
  · intro s
    exact Call.refusedFor_isTerminal _ s
  · intro format text
    exact Call.refusedFor_load _ _
  · intro host toolPath path
    exact hg.refusedFor_loadReport _

end Grammar

end EditableGrammar
