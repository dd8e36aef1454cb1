import Mathlib.Data.List.Find
import EditableGrammar.Proofs.Grammar.Refusal

set_option autoImplicit false

/-!
# What adopting a report leaves

The rules of a report are added to a grammar that may hold any of them already, and then the end
marker is taken out of all rules, old and new.  Rules that differ in end markers only become equal,
and of these the oldest stays.  The old rules have smaller numbers than those that are added, so an
old rule can give way to an old rule only (`Adopted.numbers`).

Whether a report is adopted can be told beforehand, from what the program wrote and from the symbols
that the grammar and the report mention (`ofHistory_load_adopts`).
-/

namespace EditableGrammar

/-- The program, run on a grammar file, writes a report that is decoded into some rules. -/
def Host.Decodes (host : Host) (toolPath : Option String) (path : String)
    (rules : List Rule) : Prop :=
  ∃ report text, host.runTool toolPath path = .wrote report ∧
    String.fromUTF8? report = some text ∧ (Report.read text).value = .ok rules

theorem Host.readRules_report_eq_ok_iff {host : Host} {toolPath : Option String} {path : String}
    {rules : List Rule} :
    (host.readRules .report toolPath path).value = .ok rules ↔
      host.Decodes toolPath path rules := by
  unfold Host.readRules Host.Decodes
  dsimp only
  cases host.runTool toolPath path with
  | missing searchPath => simp [reportOf]
  | notExecutable => simp [reportOf]
  | refused => simp [reportOf]
  | wrote report =>
    cases htext : String.fromUTF8? report with
    | none => simp [reportOf, textOf, htext]
    | some text => simp [reportOf, textOf, htext]

namespace Grammar

/-- What a grammar `g` becomes when the rules of a report are adopted. -/
structure Adopted (g : Grammar) (rules : List Rule) (h : Grammar) : Prop where
  /-- the rules are the old ones and the new ones without the end marker, except for the marker's
  own productions -/
  rules_iff : ∀ q : Rule, q ∈ h.ruleSet ↔
    ∃ r, (r ∈ g.ruleSet ∨ r ∈ rules) ∧ r.lhs ≠ endMarker ∧ r.without endMarker = q
  /-- the symbols are the old ones and those of the new rules, except for the end marker -/
  symbols_iff : ∀ s : Symbol, s ∈ h.symbols ↔
    (s ∈ g.symbols ∨ s ∈ rules.flatMap Rule.symbols) ∧ s ≠ endMarker
  /-- no rule mentions the end marker -/
  unmarked : ∀ (id : RuleId) (q : Rule), h.rules[id]? = some q → endMarker ∉ q.symbols
  /-- derivations start where the generator's do -/
  startSymbol_eq : h.startSymbol = some acceptSymbol
  /-- what is left of an old rule keeps its number, unless it has become equal to an older one -/
  numbers : ∀ (id : RuleId) (r : Rule), g.rules[id]? = some r → r.lhs ≠ endMarker →
    h.rules[id]? = some (r.without endMarker) ∨
      h.rules[id]? = none ∧ ∃ k < id, ∃ older, g.rules[k]? = some older ∧
        older.without endMarker = r.without endMarker ∧
        h.rules[k]? = some (r.without endMarker)

variable {g h : Grammar} {rules : List Rule}

/-! ## Old numbers -/

theorem nextId_le_addRule (g : Grammar) (r : Rule) : g.nextId ≤ (g.addRule r).value.nextId := by
  unfold addRule
  split
  next => exact Nat.le_refl _
  next => exact Nat.le_succ _

theorem rules_addRule_of_lt {id : RuleId} (hid : id < g.nextId) (r : Rule) :
    (g.addRule r).value.rules[id]? = g.rules[id]? := by
  unfold addRule
  split
  next => rfl
  next => rw [Logged.value_note, rules_storeRule, if_neg (Nat.ne_of_gt hid)]

/-- Rules that are added leave the old numbers alone. -/
theorem rules_extend_of_lt {id : RuleId} (hid : id < g.nextId) (rules : List Rule) :
    (g.extend rules).value.rules[id]? = g.rules[id]? := by
  unfold extend
  rw [Logged.value_foldl]
  induction rules generalizing g with
  | nil => rfl
  | cons r rules ih =>
    rw [List.foldl_cons, ih (Nat.lt_of_lt_of_le hid (nextId_le_addRule g r)),
      rules_addRule_of_lt hid]

/-! ## Adopting -/

/-- A report is adopted where the end marker and the generator's first symbol are both mentioned. -/
theorem WellFormed.adoptReport_isOk_iff (hg : g.WellFormed) :
    (∃ h, (g.adoptReport rules).value = .ok h) ↔
      endMarker ∈ g.symbols ++ rules.flatMap Rule.symbols ∧
        acceptSymbol ∈ g.symbols ++ rules.flatMap Rule.symbols := by
  have hmissing : g.missing rules = none ↔
      endMarker ∈ g.symbols ++ rules.flatMap Rule.symbols ∧
        acceptSymbol ∈ g.symbols ++ rules.flatMap Rule.symbols := by
    simp [missing, -List.mem_append]
  rw [← hmissing]
  cases hadopt : (g.adoptReport rules).value with
  | ok h =>
    refine iff_of_true ⟨h, rfl⟩ ?_
    rw [Option.eq_none_iff_forall_ne_some]
    intro s hs
    have herror := hg.adoptReport_eq_error_iff.2 ⟨s, hs, rfl⟩
    rw [hadopt] at herror
    cases herror
  | error e =>
    obtain ⟨s, hs, -⟩ := hg.adoptReport_eq_error_iff.1 hadopt
    refine iff_of_false ?_ ?_
    · rintro ⟨h, hh⟩
      cases hh
    · rw [hs]
      exact Option.some_ne_none s

/-- When rules were added and a symbol is removed, what is left of an old rule keeps its number,
unless it has become equal to an older one. -/
theorem WellFormed.numbers_removeSymbol_extend (hg : g.WellFormed) {s : Symbol}
    {l : Logged Grammar} (hl : (g.extend rules).value.removeSymbol s = .ok l) {id : RuleId}
    {r : Rule} (hr : g.rules[id]? = some r) (hlhs : r.lhs ≠ s) :
    l.value.rules[id]? = some (r.without s) ∨
      l.value.rules[id]? = none ∧ ∃ k < id, ∃ older, g.rules[k]? = some older ∧
        older.without s = r.without s ∧ l.value.rules[k]? = some (r.without s) := by
  have hstaged := hg.extend rules
  have hold : ∀ {k : RuleId}, k ≤ id → (g.extend rules).value.rules[k]? = g.rules[k]? :=
    fun hk => rules_extend_of_lt (Nat.lt_of_le_of_lt hk (hg.bounded hr)) rules
  obtain ⟨k, hk, hkept⟩ := hstaged.exists_removeSymbol hl ((hold (Nat.le_refl id)).trans hr) hlhs
  rcases Nat.lt_or_eq_of_le hk with hlt | rfl
  · right
    obtain ⟨⟨older, holder, -, hsame⟩, -⟩ := (hstaged.rules_removeSymbol hl).1 hkept
    refine ⟨?_, k, hlt, older, (hold hk).symm.trans holder, hsame, hkept⟩
    rw [Option.eq_none_iff_forall_ne_some]
    intro q hq
    -- what is stored under `id` is left of `r`, but the rule of `k` is older and comes to the same
    obtain ⟨⟨r', hr', -, rfl⟩, -⟩ := (hstaged.rules_removeSymbol hl).1 hq
    rw [hold (Nat.le_refl id), hr, Option.some.injEq] at hr'
    subst hr'
    exact absurd ((hstaged.removeSymbol hl).unique hq hkept) (Nat.ne_of_gt hlt)
  · exact Or.inl hkept

theorem WellFormed.adopted (hg : g.WellFormed) (hadopt : (g.adoptReport rules).value = .ok h) :
    g.Adopted rules h := by
  obtain ⟨l, hl, hstart⟩ := adoptReport_eq_ok_iff.1 hadopt
  obtain ⟨haccept, rfl⟩ := setStart_eq_ok_iff.1 hstart
  have hstaged := hg.extend rules
  constructor
  case rules_iff =>
    intro q
    refine (hstaged.mem_ruleSet_removeSymbol hl).trans ?_
    simp only [hg.mem_ruleSet_extend, or_comm]
  case symbols_iff =>
    intro s
    refine mem_symbols.trans ((hstaged.mem_index_removeSymbol hl).trans ?_)
    rw [hg.mem_index_extend, or_comm, ← mem_symbols]
  case unmarked =>
    intro id q hq hmarked
    obtain ⟨⟨r, -, hlhs, rfl⟩, -⟩ := (hstaged.rules_removeSymbol hl).1 hq
    rcases List.mem_cons.1 hmarked with hleft | hright
    · exact hlhs hleft.symm
    · exact (Rule.mem_rhs_without.1 hright).2 rfl
  case startSymbol_eq => exact if_pos (containsSymbol_iff.2 haccept)
  case numbers =>
    intro id r hr hlhs
    exact hg.numbers_removeSymbol_extend hl hr hlhs

/-! ## Loading -/

/-- Loading a parser generator's grammar file goes through just where the program's report is
decoded and the grammar or the report mention both the end marker and the generator's first symbol.
Then the rules, the symbols, the numbers and the start are those of the adopted report. -/
theorem ofHistory_load_adopts (edits : List Edit) (host : Host) (toolPath : Option String)
    (path : String) :
    ((∃ h, (ofHistory edits).perform (.load host toolPath path) = .ok h) ↔
      ∃ rules, host.Decodes toolPath path rules ∧
        endMarker ∈ (ofHistory edits).symbols ++ rules.flatMap Rule.symbols ∧
        acceptSymbol ∈ (ofHistory edits).symbols ++ rules.flatMap Rule.symbols) ∧
    ∀ rules h, host.Decodes toolPath path rules →
      (ofHistory edits).perform (.load host toolPath path) = .ok h →
      (ofHistory edits).Adopted rules h := by
  have hg := ofHistory_wellFormed edits
  have hload : (ofHistory edits).perform (.load host toolPath path) = _ :=
    value_loadReport (ofHistory edits) host toolPath path
  simp only [← Host.readRules_report_eq_ok_iff, hload]
  cases (host.readRules .report toolPath path).value with
  | error e => simp
  | ok rules =>
    constructor
    · simp only [Except.ok.injEq, exists_eq_left', hg.adoptReport_isOk_iff]
    · intro rules' h hrules hadopt
      cases hrules
      exact hg.adopted hadopt

/-- Three rules for one symbol that differ in end markers only, and a production of the marker. -/
def marked : List Rule :=
  [⟨"s", ["$end", "a"]⟩, ⟨"s", ["a"]⟩, ⟨"$end", ["b"]⟩, ⟨"s", ["a", "$end"]⟩]

/-- A program that writes one report, whatever it is run on. -/
def reporter (report : String) : Host where
  read _ := .error .notFound
  runTool _ _ := .wrote report.toUTF8

theorem reporter_decodes {report : String} {rules : List Rule}
    (h : (Report.read report).value = .ok rules) (toolPath : Option String) (path : String) :
    (reporter report).Decodes toolPath path rules := by
  refine ⟨report.toUTF8, report, rfl, ?_, h⟩
  unfold String.fromUTF8?
  rw [String.toUTF8_eq_toByteArray, dif_pos report.isValidUTF8]
  rfl

/-- The report adds one rule to the four; of the three that come to the same one is left, and the
marker's own production is gone. -/
theorem ofHistory_load_adopts_marked :
    ∃ h, (ofHistory [.extend marked]).perform (.load (reporter
        "<rule><lhs>$accept</lhs><rhs><symbol>s</symbol><symbol>$end</symbol></rhs></rule>")
        none "g.y") = .ok h ∧
      (ofHistory [.extend marked]).Adopted [⟨"$accept", ["s", "$end"]⟩] h := by
  have hread : (Report.read
      "<rule><lhs>$accept</lhs><rhs><symbol>s</symbol><symbol>$end</symbol></rhs></rule>").value =
      .ok [⟨"$accept", ["s", "$end"]⟩] := by decide +kernel
  have hdecodes := reporter_decodes hread none "g.y"
  obtain ⟨hsucceeds, hadopted⟩ := ofHistory_load_adopts [.extend marked] (reporter _) none "g.y"
  obtain ⟨h, hload⟩ := hsucceeds.2 ⟨_, hdecodes, by decide, by decide⟩
  exact ⟨h, hload, hadopted _ h hdecodes hload⟩

end Grammar

end EditableGrammar
