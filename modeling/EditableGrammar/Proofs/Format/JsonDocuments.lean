import EditableGrammar.Proofs.Format.JsonValues

set_option autoImplicit false

/-!
# Rules in any JSON text

A text that spells one value, of whatever form, is read as the rules that the value holds.  If it
holds none, reading fails, and the question is with which fault.  It should be that something has
another form, and mostly is; the exceptions are a rule written as an array of more than two items,
and values that reading takes for no JSON once it has come to their end (`read_document`).
-/

namespace EditableGrammar

namespace RuleJson

open Json

/-! ## Values that are found well formed

A fault of a well-formed text should be that something has another form.  It is, where what is
looked at can be read to its end and no rule that is an array has more than two items. -/

/-- Where names are expected, what is looked at can be read to its end. -/
def NamesReadable (v : Value) : Prop :=
  v.readable = true ∧ ∀ vs, v = .array vs → ∀ x ∈ vs, x.readable = true

/-- Where a rule is expected, what is looked at can be read to its end, and an array has no more
than two items. -/
def RuleReadable : Value → Prop
  | .array vs =>
    vs.length ≤ 2 ∧ (∀ x ∈ vs.head?, x.readable = true) ∧ ∀ y ∈ vs.tail, NamesReadable y
  | .object fs =>
    ∀ f ∈ fs, (decodePieces f.1).isSome = true ∧
      (decodePieces f.1 = some "lhs".toList → f.2.readable = true) ∧
      (decodePieces f.1 = some "rhs".toList → NamesReadable f.2)
  | v => v.readable = true

/-- The same where a list of rules is expected. -/
def RulesReadable : Value → Prop
  | .array vs => ∀ v ∈ vs, RuleReadable v
  | v => v.readable = true

section WellFormed

variable {α β : Type}

/-- The outcome is no fault of a text that is not JSON. -/
def WellFormed (x : Except Fault α) : Prop := x ≠ .error .malformed

theorem WellFormed.bind {x : Except Fault α} (h : WellFormed x) {f : α → Except Fault β}
    (hf : ∀ a, x = .ok a → WellFormed (f a)) : WellFormed (x.bind f) := by
  cases x with
  | error e => simpa [WellFormed, Except.bind] using h
  | ok a => exact hf a rfl

theorem WellFormed.map {x : Except Fault α} (h : WellFormed x) (f : α → β) :
    WellFormed (x.map f) := by
  cases x with
  | error e => simpa [WellFormed, Except.map] using h
  | ok a => simp [WellFormed, Except.map]

theorem wellFormed_mapM {f : Value → Except Fault α} {vs : List Value}
    (h : ∀ v ∈ vs, WellFormed (f v)) : WellFormed (vs.mapM f) := by
  induction vs with
  | nil => simp [WellFormed, pure, Except.pure]
  | cons v vs ih =>
    obtain ⟨hfirst, hrest⟩ := List.forall_mem_cons.1 h
    rw [List.mapM_cons]
    exact hfirst.bind fun a _ => (ih hrest).map fun as => a :: as

theorem wellFormed_foldlM {f : α → β → Except Fault α} {bs : List β}
    (h : ∀ b ∈ bs, ∀ a, WellFormed (f a b)) (a : α) : WellFormed (bs.foldlM f a) := by
  induction bs generalizing a with
  | nil => simp [WellFormed, pure, Except.pure]
  | cons b bs ih =>
    obtain ⟨hfirst, hrest⟩ := List.forall_mem_cons.1 h
    rw [List.foldlM_cons]
    exact (hfirst a).bind fun a' _ => ih hrest a'

end WellFormed

theorem wellFormed_misfit {α : Type} {v : Value} (h : v.readable = true) :
    WellFormed (.error v.misfit : Except Fault α) := by
  simp [WellFormed, Value.misfit, h]

theorem wellFormed_decode {ps : List Piece} (h : (decodePieces ps).isSome = true) :
    WellFormed (Value.decode ps) := by
  obtain ⟨text, htext⟩ := Option.isSome_iff_exists.1 h
  simp [WellFormed, Value.decode, htext]

theorem wellFormed_name {v : Value} (h : v.readable = true) : WellFormed v.name := by
  cases v with
  | string ps => exact wellFormed_decode h
  | _ => exact wellFormed_misfit h

theorem wellFormed_list {α : Type} {f : Value → Except Fault α} {v : Value}
    (h : v.readable = true) (hitems : ∀ vs, v = .array vs → ∀ x ∈ vs, WellFormed (f x)) :
    WellFormed (v.list f) := by
  cases v with
  | array vs => exact wellFormed_mapM (hitems vs rfl)
  | _ => exact wellFormed_misfit h

theorem NamesReadable.wellFormed {v : Value} (h : NamesReadable v) :
    WellFormed (v.list Value.name) :=
  wellFormed_list h.1 fun vs hv x hx => wellFormed_name (h.2 vs hv x hx)

theorem wellFormed_entry {f : List Piece × Value} (hkey : (decodePieces f.1).isSome = true)
    (hlhs : decodePieces f.1 = some "lhs".toList → f.2.readable = true)
    (hrhs : decodePieces f.1 = some "rhs".toList → NamesReadable f.2) (known : Fields) :
    WellFormed (Value.entry fieldOf known f) := by
  refine (wellFormed_decode hkey).bind fun name hname => ?_
  rw [decode_eq_ok_iff] at hname
  unfold fieldOf
  by_cases hlhs : name = "lhs"
  · subst hlhs
    cases known.lhs with
    | some s => simp [WellFormed, Except.bind]
    | none => exact (wellFormed_name (hlhs hname)).map _
  by_cases hrhs : name = "rhs"
  · subst hrhs
    cases known.rhs with
    | some names => simp [WellFormed, Except.bind]
    | none => exact (hrhs hname).wellFormed.map _
  · simp [WellFormed, Except.bind, hlhs, hrhs]

theorem RuleReadable.wellFormed {v : Value} (h : RuleReadable v) : WellFormed (ruleOf v) := by
  have hmisshapen {α : Type} : WellFormed (.error .misshapen : Except Fault α) := by
    simp [WellFormed]
  cases v with
  | array vs =>
    obtain ⟨hshort, hfirst, hsecond⟩ := h
    match vs with
    | [] => exact hmisshapen
    | [x] => exact (wellFormed_name (hfirst x rfl)).bind fun _ _ => hmisshapen
    | [x, y] =>
      refine (wellFormed_name (hfirst x rfl)).bind fun lhs _ => ?_
      exact (hsecond y (by simp)).wellFormed.bind fun rhs _ => by simp [WellFormed]
    | x :: y :: z :: more => simp at hshort
  | object fs =>
    have hfields : WellFormed (fs.foldlM (Value.entry fieldOf) {}) := by
      refine wellFormed_foldlM (fun f hf known => ?_) _
      obtain ⟨hkey, hlhs, hrhs⟩ := h f hf
      exact wellFormed_entry hkey hlhs hrhs known
    refine hfields.bind fun known _ => ?_
    obtain ⟨_ | lhs, _ | rhs⟩ := known
    case object.some.some => simp [WellFormed]
    all_goals exact hmisshapen
  | _ => exact wellFormed_misfit h

theorem RulesReadable.wellFormed {v : Value} (h : RulesReadable v) :
    WellFormed (v.list ruleOf) := by
  cases v with
  | array vs => exact wellFormed_mapM fun v hv => (h v hv).wellFormed
  | _ => exact wellFormed_misfit h

/-! ## Whole texts -/

/-- What is read of a text is what is read of the value that it spells. -/
theorem read_eq {v : Value} {text : String} (hspelled : Spells (.item v) text.toList) :
    read text =
      match v.list ruleOf with
      | .error fault => .error (errorOf fault)
      | .ok rules => .ok rules.eraseDups := by
  rw [read, readAll_eq hspelled]
  cases v.list ruleOf with
  | error fault => rfl
  | ok rules => simp only [Rule.firstPlaces_eq_eraseDups]

/-- Rules are read of a text just where it holds rules, and then they are the same, each at its
first place only. -/
theorem read_eq_ok_iff {v : Value} {text : String} (hspelled : Spells (.item v) text.toList)
    {rules : List Rule} :
    read text = .ok rules ↔ ∃ met, IsRules v met ∧ met.eraseDups = rules := by
  simp only [read_eq hspelled, ← rules_eq_ok_iff]
  cases v.list ruleOf <;> simp

theorem read_of_readable {v : Value} {text : String} (hspelled : Spells (.item v) text.toList)
    (hnone : ¬ ∃ rules, IsRules v rules) (hreadable : RulesReadable v) :
    read text = .error .misshapenJson := by
  have hwellFormed := hreadable.wellFormed
  rw [read_eq hspelled]
  cases hv : v.list ruleOf with
  | ok rules => exact absurd ⟨rules, rules_eq_ok_iff.1 hv⟩ hnone
  | error fault =>
    cases fault with
    | malformed => exact absurd hv hwellFormed
    | misshapen => rfl

/-- The first fault from the left is the fault of a list. -/
theorem mapM_of_fault {α : Type} {f : Value → Except Fault α} {before after : List Value}
    {v : Value} {e : Fault} (hsound : ∀ x ∈ before, ∃ a, f x = .ok a) (hfault : f v = .error e) :
    (before ++ v :: after).mapM f = .error e := by
  induction before with
  | nil =>
    rw [List.nil_append, List.mapM_cons, hfault]
    rfl
  | cons x before ih =>
    obtain ⟨⟨a, ha⟩, hrest⟩ := List.forall_mem_cons.1 hsound
    rw [List.cons_append, List.mapM_cons, ha, ih hrest]
    rfl

theorem sound_of_rules {vs : List Value} (h : ∀ v ∈ vs, ∃ r, IsRule v r) :
    ∀ v ∈ vs, ∃ r, ruleOf v = .ok r := fun v hv => by
  obtain ⟨r, hr⟩ := h v hv
  exact ⟨r, ruleOf_eq_ok_iff.2 hr⟩

theorem read_of_overlong {before after more : List Value} {x y z : Value} {text : String}
    (hspelled :
      Spells (.item (.array (before ++ .array (x :: y :: z :: more) :: after))) text.toList)
    (hrules : ∀ v ∈ before, ∃ r, IsRule v r) (hlhs : ∃ s, IsName x s)
    (hrhs : ∃ names, IsNames y names) : read text = .error .malformedJson := by
  obtain ⟨s, hs⟩ := hlhs
  obtain ⟨names, hnames⟩ := hrhs
  have hoverlong : ruleOf (.array (x :: y :: z :: more)) = .error .malformed := by
    rw [ruleOf, name_eq_ok_iff.2 hs, names_eq_ok_iff.2 hnames]
    rfl
  rw [read_eq hspelled, Value.list, mapM_of_fault (sound_of_rules hrules) hoverlong]
  rfl

theorem read_of_unreadable {before after : List Value} {v : Value} {text : String}
    (hspelled : Spells (.item (.array (before ++ v :: after))) text.toList)
    (hrules : ∀ b ∈ before, ∃ r, IsRule b r) (hunreadable : v.readable = false) :
    read text = .error .malformedJson := by
  have hfault : ruleOf v = .error .malformed := by
    cases v with
    | number n => simp [ruleOf, Value.misfit, hunreadable]
    | string ps => simp [ruleOf, Value.misfit, hunreadable]
    | _ => cases hunreadable
  rw [read_eq hspelled, Value.list, mapM_of_fault (sound_of_rules hrules) hfault]
  rfl

/-- Of a well-formed text rules are read just where it holds rules, and one that holds something
else fails because something has another form, provided that what is looked at can be read to its
end and no rule that is an array has more than two items.  Where the first item that is no rule is
an array of a name, a list of names and more, a number without a finite value, or a string in which
a surrogate stands alone, the text is taken for one that is not JSON. -/
theorem read_document {v : Value} {text : String} (hspelled : Spells (.item v) text.toList) :
    (∀ rules, read text = .ok rules ↔ ∃ met, IsRules v met ∧ met.eraseDups = rules) ∧
    ((¬ ∃ rules, IsRules v rules) → RulesReadable v →
      ∃ e, read text = .error e ∧ e = .misshapenJson ∧ e.kind = .invalidArgument) ∧
    (∀ before w after, v = .array (before ++ w :: after) → (∀ b ∈ before, ∃ r, IsRule b r) →
      (w.readable = false ∨ ∃ x y z more, w = .array (x :: y :: z :: more) ∧
        (∃ s, IsName x s) ∧ ∃ names, IsNames y names) →
      ∃ e, read text = .error e ∧ e = .malformedJson ∧ e.kind = .json) := by
  refine ⟨fun rules => read_eq_ok_iff hspelled, fun hnone hreadable => ?misshapen, ?malformed⟩
  case misshapen => exact ⟨_, read_of_readable hspelled hnone hreadable, rfl, rfl⟩
  case malformed =>
    rintro before w after rfl hrules (hunreadable | ⟨x, y, z, more, rfl, hlhs, hrhs⟩)
    · exact ⟨_, read_of_unreadable hspelled hrules hunreadable, rfl, rfl⟩
    · exact ⟨_, read_of_overlong hspelled hrules hlhs hrhs, rfl, rfl⟩

/-- A rule that is an array, among blanks; a rule that is an object without a left-hand side, whose
right-hand side is no array; and a number beyond all finite values in the place of a rule. -/
theorem read_document_forms :
    read " [[\"S\",[]] ]" = .ok [⟨"S", []⟩] ∧
    (∃ e, read "[\x7b\"rhs\" :null\x7d]" = .error e ∧ e = .misshapenJson ∧
      e.kind = .invalidArgument) ∧
    ∃ e, read "[1e309]" = .error e ∧ e = .malformedJson ∧ e.kind = .json := by
  have hflush : Spaces [] := by simp [Spaces]
  have hblank : Spaces [' '] := by simp [Spaces, isSpace]
  have hname : PiecesText [.char 'S'] ['S'] := .plain (by decide) (by decide) (by decide) .nil
  have hempty : Spells (.value (.array [])) _ := .array (.noItems hflush)
  have hpair : Spells (.value (.array [.string [.char 'S'], .array []])) _ :=
    .array (.moreItems (.item hflush (.string hname) hflush)
      (.lastItem (.item hflush hempty hflush)))
  have hfirst : Spells (.item (.array [.array [.string [.char 'S'], .array []]])) _ :=
    .item hblank (.array (.lastItem (.item hflush hpair hblank))) hflush
  have hkey : PiecesText [.char 'r', .char 'h', .char 's'] ['r', 'h', 's'] :=
    .plain (by decide) (by decide) (by decide) (.plain (by decide) (by decide) (by decide)
      (.plain (by decide) (by decide) (by decide) .nil))
  have hfield : Spells (.value (.object [([.char 'r', .char 'h', .char 's'], .null)])) _ :=
    .object (.lastField (.field hflush hkey hblank (.item hflush .null hflush)))
  have hsecond :
      Spells (.item (.array [.object [([.char 'r', .char 'h', .char 's'], .null)]])) _ :=
    .item hflush (.array (.lastItem (.item hflush hfield hflush))) hflush
  have hone : Digits ['1'] := ⟨by decide, by simp⟩
  have hexponent : Digits ['3', '0', '9'] := ⟨by decide, by simp⟩
  have hnumber : NumberText _ _ := .mk false ⟨hone, by decide⟩ .absent (.plain (.inl rfl) hexponent)
  have hthird : Spells (.item (.array ([] ++ .number _ :: []))) _ :=
    .item hflush (.array (.lastItem (.item hflush (.number hnumber) hflush))) hflush
  refine ⟨?array, ?object, ?number⟩
  case array =>
    have hspelled : Spells _ " [[\"S\",[]] ]".toList := hfirst
    have hrule : IsRule (.array [.string [.char 'S'], .array []]) ⟨"S", []⟩ :=
      .array ⟨_, rfl, rfl⟩ ⟨_, rfl, .nil⟩
    exact ((read_document hspelled).1 _).2 ⟨_, ⟨_, rfl, .cons hrule .nil⟩, rfl⟩
  case object =>
    have hspelled : Spells _ "[\x7b\"rhs\" :null\x7d]".toList := hsecond
    refine (read_document hspelled).2.1 ?_ ?_
    · rintro ⟨rules, vs, ⟨⟩, _ | ⟨_ | ⟨_, hlhs⟩, -⟩⟩
      simp [valuesOf, decodePieces] at hlhs
    · simp [RulesReadable, RuleReadable, NamesReadable, Value.readable, decodePieces]
  case number =>
    have hspelled : Spells _ "[1e309]".toList := hthird
    exact (read_document hspelled).2.2 [] _ [] rfl (by simp) (.inl rfl)

/-- The text is well formed, and is taken for one that is not JSON. -/
theorem read_document_missed :
    (∃ v, Spells (.item v) "[[\"S\",[\"a\"],\"b\"]]".toList) ∧
      read "[[\"S\",[\"a\"],\"b\"]]" = .error .malformedJson := by
  have hflush : Spaces [] := by simp [Spaces]
  have hname (c : Char) (hquote : c ≠ '"') (hbackslash : c ≠ '\\') (hprintable : 0x20 ≤ c.toNat) :
      Spells (.item (.string [.char c])) ([] ++ ('"' :: [c] ++ ['"']) ++ []) :=
    .item hflush (.string (.plain hquote hbackslash hprintable .nil)) hflush
  have hnames : Spells (.value (.array [.string [.char 'a']])) _ :=
    .array (.lastItem (hname 'a' (by decide) (by decide) (by decide)))
  have hrule : Spells (.value
      (.array [.string [.char 'S'], .array [.string [.char 'a']], .string [.char 'b']])) _ :=
    .array (.moreItems (hname 'S' (by decide) (by decide) (by decide))
      (.moreItems (.item hflush hnames hflush)
        (.lastItem (hname 'b' (by decide) (by decide) (by decide)))))
  have hspelled : Spells _ "[[\"S\",[\"a\"],\"b\"]]".toList :=
    .item hflush (.array (.lastItem (.item hflush hrule hflush))) hflush
  exact ⟨⟨_, hspelled⟩, read_eq hspelled⟩

end RuleJson

end EditableGrammar
