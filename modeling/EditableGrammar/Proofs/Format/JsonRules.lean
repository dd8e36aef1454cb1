import EditableGrammar.Format.RuleJson
import EditableGrammar.Proofs.Format.Json.Written

set_option autoImplicit false

/-!
# Writing rules as JSON

A rule is written as an object with two fields, and reading it back one field after the other gives
the rule again, whatever its names are.  So no two rules are written alike, and a list of rules is
read back but for repetitions.
-/

namespace EditableGrammar

namespace RuleJson

open Json

/-! ## Fields -/

/-- A field is read from its key on, when the reader of its value reads what follows the colon. -/
theorem entry_quote {α : Type} {field : String → α → Except Fault (Reader α)} {state next : α}
    {value : Reader α} {key : String} {cs rest : List Char} (hknown : field key state = .ok value)
    (hread : value.run cs = .ok (next, rest)) :
    (Reader.entry field state).run (quote key ++ ':' :: cs) = .ok (next, rest) := by
  have hopened : skipSpace (quote key ++ ':' :: cs) =
      '"' :: (key.toList.flatMap escapeChar ++ '"' :: ':' :: cs) := by
    simp [quote, skipSpace, isSpace]
  simp only [Reader.entry, hopened, readString_escaped, hknown]
  rw [Reader.skipSpace_cons (by decide)]
  exact hread

/-! ## Rules -/

theorem field_lhs (lhs : Symbol) :
    ∃ value, field "lhs" {} = .ok value ∧ value.Takes (quote lhs) { lhs := some lhs } := by
  refine ⟨_, rfl, fun rest => ?_⟩
  simp only [Reader.map, Reader.string_takes lhs rest]

theorem field_rhs (lhs : Symbol) (rhs : List Symbol) :
    ∃ value, field "rhs" { lhs := some lhs } = .ok value ∧
      value.Takes (bracketed (rhs.map quote)) { lhs := some lhs, rhs := some rhs } := by
  have hnames : (Reader.list Reader.string).Takes (bracketed (rhs.map quote)) rhs :=
    Reader.list_takes Reader.string_takes (fun text => ⟨'"', _, rfl, by decide, by decide⟩) rhs
  refine ⟨_, rfl, fun rest => ?_⟩
  simp only [Reader.map, hnames rest]

/-- The fields of a written rule are read back. -/
theorem fields_write (lhs : Symbol) (rhs : List Symbol) (rest : List Char) :
    Reader.fields field {} (quote "lhs" ++ ':' :: (quote lhs ++ ',' ::
        (quote "rhs" ++ ':' :: (bracketed (rhs.map quote) ++ '\x7d' :: rest)))) =
      .ok (⟨some lhs, some rhs⟩, rest) := by
  obtain ⟨lhsValue, hlhsKnown, hlhsTakes⟩ := field_lhs lhs
  obtain ⟨rhsValue, hrhsKnown, hrhsTakes⟩ := field_rhs lhs rhs
  rw [Reader.fields_of_comma (entry_quote hlhsKnown (hlhsTakes _)) (Reader.skipSpace_cons rfl _)]
  exact Reader.fields_of_end (entry_quote hrhsKnown (hrhsTakes _)) (Reader.skipSpace_cons rfl _)

/-- A written rule is read back. -/
theorem rule_takes (r : Rule) : rule.Takes (write r) r := by
  intro rest
  have hwritten : write r ++ rest = '\x7b' :: (quote "lhs" ++ ':' :: (quote r.lhs ++ ',' ::
      (quote "rhs" ++ ':' :: (bracketed (r.rhs.map quote) ++ '\x7d' :: rest)))) := by
    simp [write]
  have hnotClosed (cs : List Char) : closed? .object (quote "lhs" ++ cs) = none :=
    Reader.closed?_cons_of_ne (by decide) (by decide) _
  simp only [rule, hwritten, Reader.skipSpace_cons (c := '\x7b') (by decide), ofObject,
    Reader.object, hnotClosed, fields_write]

/-- A list of rules is read back from what is written, each rule at its first place only, and no two
rules are written alike. -/
theorem read_writeAll :
    (∀ rules : List Rule, read (String.ofList (writeAll rules)) = .ok rules.eraseDups) ∧
      ∀ r q : Rule, write r = write q ↔ r = q := by
  constructor
  · intro rules
    have htakes : (Reader.list rule).Takes (writeAll rules) rules :=
      Reader.list_takes rule_takes (fun r => ⟨'\x7b', _, rfl, by decide, by decide⟩) rules
    have hwhole : (Reader.list rule).readAll (String.ofList (writeAll rules)) = .ok rules := by
      have hrun := htakes []
      rw [List.append_nil] at hrun
      simp only [Reader.readAll, String.toList_ofList, hrun]
      rfl
    rw [read, hwhole, ← Rule.firstPlaces_eq_eraseDups]
  · intro r q
    constructor
    · intro hsame
      exact (rule_takes r).unique (hsame ▸ rule_takes q)
    · intro hsame
      rw [hsame]

end RuleJson

end EditableGrammar
