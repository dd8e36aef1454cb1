import Mathlib.Data.List.Forall2
import EditableGrammar.Format.RuleJson
import EditableGrammar.Proofs.Format.Json.Values

set_option autoImplicit false

/-!
# Rules among JSON values

Which values are rules is said without a word about reading (`IsRule`): an array of a name and a
list of names, or an object that has a field for each side once, among any others.  What is read of
a value where a rule is expected is a function of that value (`ruleOf`), and it gives a rule just
where the value is one (`ruleOf_eq_ok_iff`).
-/

namespace EditableGrammar

namespace RuleJson

open Json

/-! ## Rules among values -/

/-- The value is a name. -/
def IsName (v : Value) (s : Symbol) : Prop :=
  ∃ ps, v = .string ps ∧ decodePieces ps = some s.toList

/-- The value is a list of names. -/
def IsNames (v : Value) (names : List Symbol) : Prop :=
  ∃ vs, v = .array vs ∧ List.Forall₂ IsName vs names

/-- The values of the fields with a key. -/
def valuesOf (key : String) (fs : List (List Piece × Value)) : List Value :=
  fs.filterMap fun (k, v) => if decodePieces k = some key.toList then some v else none

/-- The value is a rule: an array of its two sides, or an object with a field for each side. -/
inductive IsRule : Value → Rule → Prop
  | array {x y : Value} {r : Rule} (hlhs : IsName x r.lhs) (hrhs : IsNames y r.rhs) :
      IsRule (.array [x, y]) r
  | object {fs : List (List Piece × Value)} {x y : Value} {r : Rule}
      (hkeys : ∀ f ∈ fs, (decodePieces f.1).isSome = true) (hlhs : valuesOf "lhs" fs = [x])
      (hlhs : IsName x r.lhs) (hrhs : valuesOf "rhs" fs = [y]) (hrhs : IsNames y r.rhs) :
      IsRule (.object fs) r

/-- The value is a list of rules. -/
def IsRules (v : Value) (rules : List Rule) : Prop :=
  ∃ vs, v = .array vs ∧ List.Forall₂ IsRule vs rules

/-! ## What is read of a value -/

/-- What a field makes of what is known about a rule. -/
def fieldOf (key : String) (known : Fields) : Except Fault (Value → Except Fault Fields) :=
  if key = "lhs" then
    match known.lhs with
    | some _ => .error .misshapen
    | none => .ok fun v => v.name.map fun s => { known with lhs := some s }
  else if key = "rhs" then
    match known.rhs with
    | some _ => .error .misshapen
    | none => .ok fun v => (v.list Value.name).map fun rhs => { known with rhs := some rhs }
  else .ok fun _ => .ok known

/-- What is read of a value where a rule is expected. -/
def ruleOf : Value → Except Fault Rule
  | .array [] => .error .misshapen
  | .array [x] => x.name.bind fun _ => .error .misshapen
  | .array [x, y] =>
    x.name.bind fun lhs => (y.list Value.name).bind fun rhs => .ok ⟨lhs, rhs⟩
  | .array (x :: y :: _ :: _) =>
    x.name.bind fun _ => (y.list Value.name).bind fun _ => .error .malformed
  | .object fs =>
    (fs.foldlM (Value.entry fieldOf) {}).bind fun
      | ⟨some lhs, some rhs⟩ => .ok ⟨lhs, rhs⟩
      | _ => .error .misshapen
  | v => .error v.misfit

theorem names_answers : (Reader.list Reader.string).Answers (Value.list Value.name) :=
  Reader.list_answers Reader.string_answers

theorem field_answers : Reader.FieldAnswers field fieldOf := by
  intro key known
  unfold field fieldOf
  by_cases hlhs : key = "lhs"
  · rw [if_pos hlhs, if_pos hlhs]
    cases known.lhs with
    | some s => exact .inl ⟨_, rfl, rfl⟩
    | none => exact .inr ⟨_, _, rfl, rfl, Reader.string_answers.map _⟩
  · rw [if_neg hlhs, if_neg hlhs]
    by_cases hrhs : key = "rhs"
    · rw [if_pos hrhs, if_pos hrhs]
      cases known.rhs with
      | some names => exact .inl ⟨_, rfl, rfl⟩
      | none => exact .inr ⟨_, _, rfl, rfl, names_answers.map _⟩
    · rw [if_neg hrhs, if_neg hrhs]
      exact .inr ⟨_, _, rfl, rfl, Reader.skip_answers known⟩

theorem ofObject_eq {fs : List (List Piece × Value)} {cs : List Char}
    (hspelled : Spells (.fields fs) cs) (rest : List Char) :
    ofObject (cs ++ '\x7d' :: rest) = (ruleOf (.object fs)).map fun r => (r, rest) := by
  rw [ofObject, field_answers.object hspelled, ruleOf]
  cases fs.foldlM (Value.entry fieldOf) {} with
  | error e => rfl
  | ok known => obtain ⟨_ | lhs, _ | rhs⟩ := known <;> rfl

/-- A rule that is an array is over when its second side is, and is not if it has more items. -/
theorem ofArray_eq {vs : List Value} {cs : List Char} (hspelled : Spells (.items vs) cs)
    (rest : List Char) :
    ofArray (cs ++ ']' :: rest) = (ruleOf (.array vs)).map fun r => (r, rest) := by
  obtain ⟨hempty, hseveral⟩ := hspelled.items_closed? rest
  unfold ofArray
  cases hspelled with
  | noItems =>
    rw [hempty rfl]
    rfl
  | @lastItem x cs hone =>
    obtain ⟨ws, hblank, hrun⟩ := Reader.string_answers.item hone
    rw [hseveral (List.cons_ne_nil _ _), hrun _ (.cons (by decide) rest), ruleOf]
    cases x.name with
    | error e => rfl
    | ok lhs =>
      simp only [Except.map, hblank.skipSpace_cons (c := ']') rfl]
      rfl
  | @moreItems x y vs cs more hone hspelled =>
    obtain ⟨ws, hblank, hrun⟩ := Reader.string_answers.item hone
    rw [hseveral (List.cons_ne_nil _ _), List.append_assoc, List.cons_append,
      hrun _ (.cons (by decide) _)]
    cases hx : x.name with
    | error e => cases vs <;> simp [ruleOf, hx, Except.map, Except.bind]
    | ok lhs =>
      simp only [Except.map, hblank.skipSpace_cons (c := ',') rfl]
      cases hspelled with
      | lastItem htwo =>
        obtain ⟨ws, hblank, hrun⟩ := names_answers.item htwo
        rw [hrun _ (.cons (by decide) rest), ruleOf, hx]
        cases y.list Value.name with
        | error e => rfl
        | ok rhs =>
          have hclosed : closed? .array (ws ++ ']' :: rest) = some rest :=
            hblank.closed?_eq .array rest
          simp only [Except.map, Except.bind, hclosed]
      | @moreItems _ z vs cs more htwo hspelled =>
        obtain ⟨ws, hblank, hrun⟩ := names_answers.item htwo
        rw [List.append_assoc, List.cons_append, hrun _ (.cons (by decide) _), ruleOf, hx]
        cases y.list Value.name with
        | error e => rfl
        | ok rhs =>
          have hnotClosed : closed? .array (ws ++ ',' :: (more ++ ']' :: rest)) = none :=
            Reader.closed?_of_head (hblank.skipSpace_cons rfl _) (by decide)
          simp only [Except.map, Except.bind, hnotClosed]

theorem rule_answers : rule.Answers ruleOf := by
  intro v ws cs rest hvalue hbefore hends
  simp only [rule, hvalue.skipSpace_eq hbefore]
  obtain ⟨c, more, hcs, -⟩ := hvalue.value_head
  have hforms := (hcs ▸ hvalue).head_iff
  by_cases hobject : c = '\x7b'
  · obtain ⟨fs, rfl⟩ := hforms.2.2.1 hobject
    cases hvalue with
    | object hfields =>
      simpa using ofObject_eq hfields rest
  by_cases harray : c = '['
  · obtain ⟨vs, rfl⟩ := hforms.2.1.1 harray
    cases hvalue with
    | array hitems =>
      simpa using ofArray_eq hitems rest
  have hmisfit : ruleOf v = .error v.misfit := by
    cases v with
    | array vs => exact absurd (hforms.2.1.2 ⟨vs, rfl⟩) harray
    | object fs => exact absurd (hforms.2.2.2 ⟨fs, rfl⟩) hobject
    | _ => rfl
  rw [hmisfit, ← hvalue.otherForm_eq hends, hcs]
  split
  next he => cases he; exact absurd rfl hobject
  next he => cases he; exact absurd rfl harray
  next => rfl

/-- The fault or the rules that a text spells, whatever text it is. -/
theorem readAll_eq {v : Value} {text : String} (hspelled : Spells (.item v) text.toList) :
    (Reader.list rule).readAll text = v.list ruleOf :=
  (Reader.list_answers rule_answers).readAll hspelled

/-! ## Values that are rules -/

section Results

variable {α β : Type}

theorem bind_eq_ok_iff {x : Except Fault α} {f : α → Except Fault β} {b : β} :
    x.bind f = .ok b ↔ ∃ a, x = .ok a ∧ f a = .ok b := by
  cases x <;> simp [Except.bind]

theorem map_eq_ok_iff {x : Except Fault α} {f : α → β} {b : β} :
    x.map f = .ok b ↔ ∃ a, x = .ok a ∧ f a = b := by
  cases x <;> simp [Except.map]

theorem mapM_eq_ok_iff {f : Value → Except Fault α} {vs : List Value} {as : List α} :
    vs.mapM f = .ok as ↔ List.Forall₂ (fun v a => f v = .ok a) vs as := by
  induction vs generalizing as with
  | nil => cases as <;> simp [pure, Except.pure]
  | cons v vs ih =>
    have hstep : (v :: vs).mapM f = (f v).bind fun a => (vs.mapM f).map fun as => a :: as := by
      rw [List.mapM_cons]
      rfl
    simp only [hstep, bind_eq_ok_iff, map_eq_ok_iff, ih, List.forall₂_cons_left_iff]
    grind

end Results

theorem decode_eq_ok_iff {ps : List Piece} {s : String} :
    Value.decode ps = .ok s ↔ decodePieces ps = some s.toList := by
  unfold Value.decode
  cases decodePieces ps with
  | none => simp
  | some text =>
    simp only [Except.ok.injEq, Option.some.injEq]
    constructor
    · rintro rfl
      rw [String.toList_ofList]
    · rintro rfl
      rw [String.ofList_toList]

theorem name_eq_ok_iff {v : Value} {s : Symbol} : v.name = .ok s ↔ IsName v s := by
  cases v with
  | string ps => simp [Value.name, IsName, decode_eq_ok_iff]
  | _ => simp [Value.name, IsName]

theorem list_eq_ok_iff {α : Type} {f : Value → Except Fault α} {v : Value} {as : List α} :
    v.list f = .ok as ↔ ∃ vs, v = .array vs ∧ List.Forall₂ (fun v a => f v = .ok a) vs as := by
  cases v with
  | array vs => simp [Value.list, mapM_eq_ok_iff]
  | _ => simp [Value.list]

theorem names_eq_ok_iff {v : Value} {names : List Symbol} :
    v.list Value.name = .ok names ↔ IsNames v names := by
  simp only [list_eq_ok_iff, IsNames, name_eq_ok_iff]

/-- What the values of fields with one key make of what is known: nothing is known twice. -/
inductive Slot {α : Type} (P : Value → α → Prop) : Option α → List Value → Option α → Prop
  | keep (known : Option α) : Slot P known [] known
  | fill {x : Value} {a : α} (h : P x a) : Slot P none [x] (some a)

theorem slot_append_iff {α : Type} {P : Value → α → Prop} {before after : Option α}
    {xs ys : List Value} :
    Slot P before (xs ++ ys) after ↔
      ∃ between, Slot P before xs between ∧ Slot P between ys after := by
  constructor
  · intro h
    generalize hl : xs ++ ys = l at h
    cases h with
    | keep =>
      obtain ⟨rfl, rfl⟩ := List.append_eq_nil_iff.1 hl
      exact ⟨before, .keep before, .keep before⟩
    | @fill x a h =>
      rcases List.append_eq_singleton_iff.1 hl with ⟨rfl, rfl⟩ | ⟨rfl, rfl⟩
      · exact ⟨none, .keep none, .fill h⟩
      · exact ⟨some a, .fill h, .keep (some a)⟩
  · rintro ⟨between, hfirst, hsecond⟩
    cases hfirst with
    | keep => exact hsecond
    | fill h =>
      cases hsecond with
      | keep => exact .fill h

theorem slot_nil_iff {α : Type} {P : Value → α → Prop} {known next : Option α} :
    Slot P known [] next ↔ known = next := by
  constructor
  · rintro ⟨⟩
    rfl
  · rintro rfl
    exact .keep known

theorem slot_singleton_iff {α : Type} {P : Value → α → Prop} {known next : Option α} {x : Value} :
    Slot P known [x] next ↔ known = none ∧ ∃ a, P x a ∧ next = some a := by
  constructor
  · rintro ⟨⟩
    exact ⟨rfl, _, ‹_›, rfl⟩
  · rintro ⟨rfl, a, h, rfl⟩
    exact .fill h

theorem valuesOf_cons (key : String) (f : List Piece × Value) (fs : List (List Piece × Value)) :
    valuesOf key (f :: fs) = valuesOf key [f] ++ valuesOf key fs := by
  simp only [valuesOf, ← List.filterMap_append, List.singleton_append]

theorem valuesOf_singleton (name : String) {key : String} {f : List Piece × Value}
    (h : decodePieces f.1 = some key.toList) :
    valuesOf name [f] = if key = name then [f.2] else [] := by
  simp only [valuesOf, List.filterMap_cons, List.filterMap_nil, h, Option.some.injEq,
    String.toList_inj]
  split
  next hnone => split at hnone <;> simp_all
  next hsome => split at hsome <;> simp_all

theorem fieldOf_eq_ok_iff {key : String} {known next : Fields} {v : Value} :
    ((fieldOf key known).bind fun value => value v) = .ok next ↔
      Slot IsName known.lhs (if key = "lhs" then [v] else []) next.lhs ∧
        Slot IsNames known.rhs (if key = "rhs" then [v] else []) next.rhs := by
  obtain ⟨lhs, rhs⟩ := known
  obtain ⟨lhs', rhs'⟩ := next
  unfold fieldOf
  by_cases hlhs : key = "lhs"
  · subst hlhs
    cases lhs with
    | some s => simp [slot_singleton_iff, Except.bind]
    | none =>
      show (v.name.map fun s => (⟨some s, rhs⟩ : Fields)) = .ok ⟨lhs', rhs'⟩ ↔ _
      rw [if_pos rfl, if_neg (by decide), map_eq_ok_iff, slot_singleton_iff, slot_nil_iff]
      constructor
      · rintro ⟨s, hs, ⟨⟩⟩
        exact ⟨⟨rfl, s, name_eq_ok_iff.1 hs, rfl⟩, rfl⟩
      · rintro ⟨⟨-, s, hs, rfl⟩, rfl⟩
        exact ⟨s, name_eq_ok_iff.2 hs, rfl⟩
  by_cases hrhs : key = "rhs"
  · subst hrhs
    cases rhs with
    | some names => simp [slot_singleton_iff, Except.bind]
    | none =>
      show (v.list Value.name).map (fun names => (⟨lhs, some names⟩ : Fields)) =
        .ok ⟨lhs', rhs'⟩ ↔ _
      rw [if_neg hlhs, if_pos rfl, map_eq_ok_iff, slot_singleton_iff, slot_nil_iff]
      constructor
      · rintro ⟨names, hnames, ⟨⟩⟩
        exact ⟨rfl, rfl, names, names_eq_ok_iff.1 hnames, rfl⟩
      · rintro ⟨rfl, -, names, hnames, rfl⟩
        exact ⟨names, names_eq_ok_iff.2 hnames, rfl⟩
  · simp [hlhs, hrhs, slot_nil_iff, Except.bind]

/-- What one field does. -/
theorem entry_eq_ok_iff {known next : Fields} {f : List Piece × Value} :
    Value.entry fieldOf known f = .ok next ↔ (decodePieces f.1).isSome = true ∧
      Slot IsName known.lhs (valuesOf "lhs" [f]) next.lhs ∧
        Slot IsNames known.rhs (valuesOf "rhs" [f]) next.rhs := by
  unfold Value.entry
  cases hd : decodePieces f.1 with
  | none => simp [Value.decode, hd, Except.bind]
  | some chars =>
    have hkey : decodePieces f.1 = some (String.ofList chars).toList := by
      rw [hd, String.toList_ofList]
    have hdecoded : Value.decode f.1 = .ok (String.ofList chars) := decode_eq_ok_iff.2 hkey
    rw [hdecoded, valuesOf_singleton "lhs" hkey, valuesOf_singleton "rhs" hkey]
    simpa [Except.bind] using fieldOf_eq_ok_iff

/-- What all fields of an object do. -/
theorem fields_eq_ok_iff {known next : Fields} {fs : List (List Piece × Value)} :
    fs.foldlM (Value.entry fieldOf) known = .ok next ↔
      (∀ f ∈ fs, (decodePieces f.1).isSome = true) ∧
        Slot IsName known.lhs (valuesOf "lhs" fs) next.lhs ∧
          Slot IsNames known.rhs (valuesOf "rhs" fs) next.rhs := by
  induction fs generalizing known with
  | nil =>
    obtain ⟨lhs, rhs⟩ := known
    obtain ⟨lhs', rhs'⟩ := next
    simp [valuesOf, slot_nil_iff, pure, Except.pure]
  | cons f fs ih =>
    have hstep : (f :: fs).foldlM (Value.entry fieldOf) known =
        (Value.entry fieldOf known f).bind fun between =>
          fs.foldlM (Value.entry fieldOf) between := by
      rw [List.foldlM_cons]
      rfl
    simp only [hstep, bind_eq_ok_iff, entry_eq_ok_iff, ih, valuesOf_cons _ f fs, slot_append_iff,
      List.forall_mem_cons]
    constructor
    · rintro ⟨between, ⟨hdecodes, hlhs, hrhs⟩, hdecode, hlhs', hrhs'⟩
      exact ⟨⟨hdecodes, hdecode⟩, ⟨_, hlhs, hlhs'⟩, ⟨_, hrhs, hrhs'⟩⟩
    · rintro ⟨⟨hdecodes, hdecode⟩, ⟨lhs, hlhs, hlhs'⟩, ⟨rhs, hrhs, hrhs'⟩⟩
      exact ⟨⟨lhs, rhs⟩, ⟨hdecodes, hlhs, hrhs⟩, hdecode, hlhs', hrhs'⟩

theorem slot_none_some_iff {α : Type} {P : Value → α → Prop} {xs : List Value} {a : α} :
    Slot P none xs (some a) ↔ ∃ x, xs = [x] ∧ P x a := by
  constructor
  · rintro ⟨⟩
    exact ⟨_, rfl, ‹_›⟩
  · rintro ⟨x, rfl, h⟩
    exact .fill h

theorem ruleOf_object_eq_ok_iff {fs : List (List Piece × Value)} {r : Rule} :
    ruleOf (.object fs) = .ok r ↔
      fs.foldlM (Value.entry fieldOf) {} = .ok { lhs := some r.lhs, rhs := some r.rhs } := by
  rw [ruleOf, bind_eq_ok_iff]
  constructor
  · rintro ⟨⟨_ | lhs, _ | rhs⟩, hfields, hr⟩
    case mp.some.some =>
      cases hr
      exact hfields
    all_goals cases hr
  · intro hfields
    exact ⟨_, hfields, rfl⟩

/-- The rule that is read of a value is the one that it holds. -/
theorem ruleOf_eq_ok_iff {v : Value} {r : Rule} : ruleOf v = .ok r ↔ IsRule v r := by
  cases v with
  | array vs =>
    match vs with
    | [] => exact iff_of_false (by simp [ruleOf]) nofun
    | [x] => exact iff_of_false (by simp [ruleOf, bind_eq_ok_iff]) nofun
    | x :: y :: z :: more => exact iff_of_false (by simp [ruleOf, bind_eq_ok_iff]) nofun
    | [x, y] =>
      simp only [ruleOf, bind_eq_ok_iff, name_eq_ok_iff, names_eq_ok_iff]
      constructor
      · rintro ⟨lhs, hlhs, rhs, hrhs, hr⟩
        cases hr
        exact .array hlhs hrhs
      · rintro ⟨hlhs, hrhs⟩
        exact ⟨r.lhs, ‹_›, r.rhs, ‹_›, rfl⟩
  | object fs =>
    rw [ruleOf_object_eq_ok_iff, fields_eq_ok_iff, slot_none_some_iff, slot_none_some_iff]
    constructor
    · rintro ⟨hkeys, ⟨x, hx, hlhs⟩, y, hy, hrhs⟩
      exact .object hkeys hx hlhs hy hrhs
    · intro h
      cases h with
      | object hkeys hx hlhs hy hrhs => exact ⟨hkeys, ⟨_, hx, hlhs⟩, _, hy, hrhs⟩
  | _ => exact iff_of_false (by simp [ruleOf]) nofun

/-- The rules that are read of a value are those that it holds. -/
theorem rules_eq_ok_iff {v : Value} {rules : List Rule} :
    v.list ruleOf = .ok rules ↔ IsRules v rules := by
  simp only [list_eq_ok_iff, IsRules, ruleOf_eq_ok_iff]

end RuleJson

end EditableGrammar
