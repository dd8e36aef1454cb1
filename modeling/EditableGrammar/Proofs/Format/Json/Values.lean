import EditableGrammar.Proofs.Format.Json.Document

set_option autoImplicit false

/-!
# What readers make of a value

A reader stops at the first fault from the left.  For a spelled value this comes to a function of
the value alone, whatever stands around it (`Reader.Answers`).  A value of another form than the one
read is `misshapen`, but not always: a number without a finite value, and a string in which a
surrogate stands alone, are taken for no JSON at all (`Value.misfit`).
-/

namespace EditableGrammar

namespace Json

/-! ## Faults of values -/

namespace Value

/-- A value that is found well formed when it is read to its end. -/
def readable : Value → Bool
  | number n => n.inRange
  | string ps => (decodePieces ps).isSome
  | _ => true

/-- The fault of a value where one of another form is read. -/
def misfit (v : Value) : Fault := if v.readable then .misshapen else .malformed

/-- The text of a string. -/
def decode (ps : List Piece) : Except Fault String :=
  match decodePieces ps with
  | some text => .ok (String.ofList text)
  | none => .error .malformed

/-- A value as a string. -/
def name : Value → Except Fault String
  | string ps => decode ps
  | v => .error v.misfit

variable {α : Type}

/-- A value as a list, item by item. -/
def list (item : Value → Except Fault α) : Value → Except Fault (List α)
  | array vs => vs.mapM item
  | v => .error v.misfit

/-- What one more field of an object makes of what is known.  A key is refused or names what is made
of its value. -/
def entry (field : String → α → Except Fault (Value → Except Fault α)) (known : α)
    (f : List Piece × Value) : Except Fault α :=
  (decode f.1).bind fun key => (field key known).bind fun value => value f.2

end Value

/-- The text of a string is read up to the closing quote. -/
theorem PiecesText.readString_eq {ps : List Piece} {cs : List Char} (h : PiecesText ps cs)
    (rest : List Char) :
    readString (cs ++ '"' :: rest) =
      (decodePieces ps).map fun text => (String.ofList text, rest) := by
  rw [readString, h.scanString_eq]

/-- A value where another form is read has the fault that its own text shows. -/
theorem Spells.otherForm_eq {v : Value} {cs rest : List Char} (h : Spells (.value v) cs)
    (hends : Ends rest) : otherForm (cs ++ rest) = v.misfit := by
  cases h with
  | null => rfl
  | boolTrue => rfl
  | boolFalse => rfl
  | array => rfl
  | object => rfl
  | @string ps cs htext =>
    simp only [List.cons_append, List.append_assoc, List.nil_append, otherForm,
      htext.readString_eq, Option.isSome_map, Value.misfit, Value.readable]
    rfl
  | @number n cs htext =>
    have hscanned := htext.scanNumber_eq hends
    obtain ⟨c, more, rfl, head⟩ := htext.head
    have hne {d : Char} := ne_of_number_head (d := d) head
    rw [List.cons_append] at hscanned ⊢
    rw [otherForm, readNumber, hscanned]
    · cases hn : n.inRange <;> simp [Value.misfit, Value.readable, hn]
    all_goals
      rintro _ ⟨⟩
      exact hne (by decide) (by decide) rfl

/-- The first character tells strings, arrays and objects from other values. -/
theorem Spells.head_iff {v : Value} {c : Char} {cs : List Char} (h : Spells (.value v) (c :: cs)) :
    (c = '"' ↔ ∃ ps, v = .string ps) ∧ (c = '[' ↔ ∃ vs, v = .array vs) ∧
      (c = '\x7b' ↔ ∃ fs, v = .object fs) := by
  cases h with
  | number htext =>
    obtain ⟨d, more, hd, head⟩ := htext.head
    cases hd
    have hne {d : Char} := ne_of_number_head (d := d) head
    simp [hne (d := '"') (by decide) (by decide), hne (d := '[') (by decide) (by decide),
      hne (d := '\x7b') (by decide) (by decide)]
  | _ => simp

namespace Reader

variable {α β : Type}

/-- The reader makes of a spelled value what the function does, and leaves what follows it. -/
def Answers (r : Reader α) (f : Value → Except Fault α) : Prop :=
  ∀ ⦃v : Value⦄ ⦃ws cs rest : List Char⦄, Spells (.value v) cs → Spaces ws → Ends rest →
    r.run (ws ++ cs ++ rest) = (f v).map fun a => (a, rest)

theorem Answers.item {r : Reader α} {f : Value → Except Fault α} (h : r.Answers f) {v : Value}
    {cs : List Char} (hitem : Spells (.item v) cs) :
    ∃ ws, Spaces ws ∧ ∀ rest, Ends rest →
      r.run (cs ++ rest) = (f v).map fun a => (a, ws ++ rest) := by
  cases hitem with
  | @item v ws cs ws' hbefore hvalue hafter =>
    refine ⟨ws', hafter, fun rest hends => ?_⟩
    rw [List.append_assoc]
    exact h hvalue hbefore (hends.append hafter)

theorem Answers.map {r : Reader α} {f : Value → Except Fault α} (h : r.Answers f) (g : α → β) :
    (r.map g).Answers fun v => (f v).map g := by
  intro v ws cs rest hvalue hbefore hends
  simp only [Reader.map, h hvalue hbefore hends]
  cases f v <;> rfl

theorem skip_answers (a : α) : (skip a).Answers fun _ => .ok a := by
  intro v ws cs rest hvalue hbefore hends
  simp only [skip, hvalue.skipValue_eq hbefore hends]
  rfl

theorem string_answers : string.Answers Value.name := by
  intro v ws cs rest hvalue hbefore hends
  simp only [string, hvalue.skipSpace_eq hbefore]
  obtain ⟨c, more, hcs, -⟩ := hvalue.value_head
  have hforms := (hcs ▸ hvalue).head_iff
  by_cases hc : c = '"'
  · obtain ⟨ps, rfl⟩ := hforms.1.1 hc
    cases hvalue with
    | string htext =>
      simp only [List.cons_append, List.append_assoc, List.nil_append, htext.readString_eq,
        Value.name, Value.decode]
      cases decodePieces ps <;> rfl
  · have hmisfit : v.name = .error v.misfit := by
      cases v with
      | string ps => exact absurd (hforms.1.2 ⟨ps, rfl⟩) hc
      | _ => rfl
    rw [hmisfit, ← hvalue.otherForm_eq hends, hcs]
    split
    next he => cases he; exact absurd rfl hc
    next => rfl

/-! ## Lists -/

/-- The items of a list are taken one after the other. -/
theorem Answers.items {item : Reader α} {f : Value → Except Fault α} (h : item.Answers f)
    {vs : List Value} {cs : List Char} (hspelled : Spells (.items vs) cs) (hseveral : vs ≠ [])
    (rest : List Char) :
    Reader.items item (cs ++ ']' :: rest) = (vs.mapM f).map fun as => (as, rest) := by
  induction vs generalizing cs with
  | nil => exact absurd rfl hseveral
  | cons v vs ih =>
    rw [List.mapM_cons]
    cases hspelled with
    | lastItem hone =>
      obtain ⟨ws, hblank, hrun⟩ := h.item hone
      have hfirst := hrun (']' :: rest) (.cons (by decide) rest)
      cases hv : f v with
      | error e =>
        rw [hv] at hfirst
        rw [items_of_error hfirst]
        rfl
      | ok a =>
        rw [hv] at hfirst
        rw [items_of_end hfirst (hblank.skipSpace_cons rfl rest)]
        rfl
    | @moreItems _ w vs cs more hone hspelled =>
      obtain ⟨ws, hblank, hrun⟩ := h.item hone
      have hfirst := hrun (',' :: (more ++ ']' :: rest)) (.cons (by decide) _)
      rw [List.append_assoc, List.cons_append]
      cases hv : f v with
      | error e =>
        rw [hv] at hfirst
        rw [items_of_error hfirst]
        rfl
      | ok a =>
        rw [hv] at hfirst
        rw [items_of_comma hfirst (hblank.skipSpace_cons rfl _),
          ih hspelled (List.cons_ne_nil _ _)]
        cases (w :: vs).mapM f <;> rfl

theorem list_answers {item : Reader α} {f : Value → Except Fault α} (h : item.Answers f) :
    (list item).Answers (Value.list f) := by
  intro v ws cs rest hvalue hbefore hends
  simp only [list, hvalue.skipSpace_eq hbefore]
  obtain ⟨c, more, hcs, -⟩ := hvalue.value_head
  have hforms := (hcs ▸ hvalue).head_iff
  by_cases hc : c = '['
  · obtain ⟨vs, rfl⟩ := hforms.2.1.1 hc
    cases hvalue with
    | array hitems =>
      obtain ⟨hempty, hseveral⟩ := hitems.items_closed? rest
      simp only [List.cons_append, List.append_assoc, List.nil_append, Value.list]
      by_cases hvs : vs = []
      · rw [hempty hvs, hvs]
        rfl
      · rw [hseveral hvs]
        exact h.items hitems hvs rest
  · have hmisfit : Value.list f v = .error v.misfit := by
      cases v with
      | array vs => exact absurd (hforms.2.1.2 ⟨vs, rfl⟩) hc
      | _ => rfl
    rw [hmisfit, ← hvalue.otherForm_eq hends, hcs]
    split
    next he => cases he; exact absurd rfl hc
    next => rfl

/-! ## Objects -/

/-- What keys name for a reader of an object, and for a value. -/
def FieldAnswers (field : String → α → Except Fault (Reader α))
    (f : String → α → Except Fault (Value → Except Fault α)) : Prop :=
  ∀ key known,
    (∃ e, field key known = .error e ∧ f key known = .error e) ∨
      ∃ r value, field key known = .ok r ∧ f key known = .ok value ∧ r.Answers value

variable {field : String → α → Except Fault (Reader α)}
  {f : String → α → Except Fault (Value → Except Fault α)}

/-- One field is taken from its key on. -/
theorem FieldAnswers.entry (h : FieldAnswers field f) {k : List Piece} {v : Value} {cs : List Char}
    (hspelled : Spells (.field k v) cs) :
    ∃ ws, Spaces ws ∧ ∀ known rest, Ends rest →
      (Reader.entry field known).run (cs ++ rest) =
        (Value.entry f known (k, v)).map fun a => (a, ws ++ rest) := by
  cases hspelled with
  | @field k v ws key ws' cs hbefore htext hbehind hitem =>
    cases hitem with
    | @item v ws₁ cs ws₂ hbefore' hvalue hafter =>
      refine ⟨ws₂, hafter, fun known rest hends => ?_⟩
      have hsplit : ws ++ '"' :: key ++ '"' :: ws' ++ ':' :: (ws₁ ++ cs ++ ws₂) ++ rest =
          ws ++ '"' :: (key ++ '"' :: (ws' ++ ':' :: (ws₁ ++ cs ++ (ws₂ ++ rest)))) := by simp
      rw [hsplit]
      simp only [Reader.entry, hbefore.skipSpace_cons (c := '"') rfl, htext.readString_eq,
        Value.entry, Value.decode]
      cases decodePieces k with
      | none => rfl
      | some chars =>
        rcases h (String.ofList chars) known with ⟨e, hrefused, hrefused'⟩ |
          ⟨r, what, hnamed, hnamed', hanswers⟩
        · simp only [Option.map_some, hrefused, Except.bind, hrefused']
          rfl
        · simp only [Option.map_some, hnamed, Except.bind, hnamed',
            hbehind.skipSpace_cons (c := ':') rfl]
          exact hanswers hvalue hbefore' (hends.append hafter)

/-- The fields of an object are taken one after the other. -/
theorem FieldAnswers.fields (h : FieldAnswers field f) {fs : List (List Piece × Value)}
    {cs : List Char} (hspelled : Spells (.fields fs) cs) (hseveral : fs ≠ []) (known : α)
    (rest : List Char) :
    Reader.fields field known (cs ++ '\x7d' :: rest) =
      (fs.foldlM (Value.entry f) known).map fun a => (a, rest) := by
  induction fs generalizing cs known with
  | nil => exact absurd rfl hseveral
  | cons g fs ih =>
    rw [List.foldlM_cons]
    cases hspelled with
    | @lastField k v _ hone =>
      obtain ⟨ws, hblank, hrun⟩ := h.entry hone
      have hfirst := hrun known ('\x7d' :: rest) (.cons (by decide) rest)
      cases hv : Value.entry f known (k, v) with
      | error e =>
        rw [hv] at hfirst
        rw [fields_of_error hfirst]
        rfl
      | ok next =>
        rw [hv] at hfirst
        rw [fields_of_end hfirst (hblank.skipSpace_cons rfl rest)]
        rfl
    | @moreFields k v g fs cs more hone hspelled =>
      obtain ⟨ws, hblank, hrun⟩ := h.entry hone
      have hfirst := hrun known (',' :: (more ++ '\x7d' :: rest)) (.cons (by decide) _)
      rw [List.append_assoc, List.cons_append]
      cases hv : Value.entry f known (k, v) with
      | error e =>
        rw [hv] at hfirst
        rw [fields_of_error hfirst]
        rfl
      | ok next =>
        rw [hv] at hfirst
        rw [fields_of_comma hfirst (hblank.skipSpace_cons rfl _),
          ih hspelled (List.cons_ne_nil _ _)]
        rfl

theorem FieldAnswers.object (h : FieldAnswers field f) {fs : List (List Piece × Value)}
    {cs : List Char} (hspelled : Spells (.fields fs) cs) (known : α) (rest : List Char) :
    Reader.object field known (cs ++ '\x7d' :: rest) =
      (fs.foldlM (Value.entry f) known).map fun a => (a, rest) := by
  obtain ⟨hempty, hseveral⟩ := hspelled.fields_closed? rest
  by_cases hfs : fs = []
  · rw [Reader.object, hempty hfs, hfs]
    rfl
  · rw [Reader.object, hseveral hfs]
    exact h.fields hspelled hfs known rest

/-! ## Whole texts -/

/-- A text that spells one value is read as that value. -/
theorem Answers.readAll {r : Reader α} {f : Value → Except Fault α} (h : r.Answers f) {v : Value}
    {text : String} (hspelled : Spells (.item v) text.toList) : r.readAll text = f v := by
  obtain ⟨ws, hblank, hrun⟩ := h.item hspelled
  have hwhole := hrun [] (by simp [Ends])
  have hnothing : skipSpace ws = [] := by
    have := hblank.skipSpace_append []
    rwa [List.append_nil] at this
  rw [List.append_nil, List.append_nil] at hwhole
  rw [Reader.readAll, hwhole]
  cases f v with
  | error e => rfl
  | ok a => simp [Except.map, hnothing]

end Reader

end Json

end EditableGrammar
