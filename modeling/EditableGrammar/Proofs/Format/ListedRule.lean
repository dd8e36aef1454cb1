import Mathlib.Data.List.Infix
import Mathlib.Data.List.TakeWhile
import EditableGrammar.Format.Listing
import EditableGrammar.Proofs.Text.Trim

set_option autoImplicit false

/-!
# Writing one rule of a listing

A rule is written `<lhs> ::= [e₁, …, eₖ]`, where each symbol of the right-hand side may be spelled
in up to four ways (`Spelled`).  Once the lines of a rule are joined, its elements stand between
commas and blanks (`Spaced`), and the rule is read from them (`readRule_opened`).
-/

namespace EditableGrammar

namespace Listing

/-! ## What can be written -/

/-- The ways to spell a symbol. -/
inductive Spelled (s : Symbol) : List Char → Prop
  | angled (habsent : '>' ∉ s.toList) : Spelled s ('<' :: s.toList ++ ['>'])
  | quoted {q : Char} (hquote : q = '"' ∨ q = '\'') (habsent : q ∉ s.toList) :
      Spelled s (q :: s.toList ++ [q])
  | bare (hne_nil : s.toList ≠ [])
      (hplain : ∀ c ∈ s.toList, isBlank c = false ∧ c ∉ [',', '<', ']', '#'])
      (hunquoted : ∀ c ∈ s.toList.head?, c ≠ '"' ∧ c ≠ '\'') : Spelled s s.toList

/-- The names that a listing can put before an arrow. -/
structure LhsName (name : Symbol) : Prop where
  ne_nil : name.toList ≠ []
  plain : ∀ c ∈ name.toList, c ≠ '<' ∧ c ≠ '>' ∧ isBlank c = false
  no_arrow : ¬ [':', ':', '=', '['] <:+: name.toList

theorem lhsName_iff (name : Symbol) :
    LhsName name ↔ name.toList ≠ [] ∧
      (name.toList.all fun c => decide (c ≠ '<' ∧ c ≠ '>' ∧ isBlank c = false)) = true ∧
        ¬ [':', ':', '=', '['] <:+: name.toList := by
  simp only [List.all_eq_true, decide_eq_true_eq]
  exact ⟨fun h => ⟨h.ne_nil, h.plain, h.no_arrow⟩, fun ⟨h, h', h''⟩ => ⟨h, h', h''⟩⟩

instance (name : Symbol) : Decidable (LhsName name) := decidable_of_iff' _ (lhsName_iff name)

/-- What a written rule begins with, up to its opening bracket. -/
def opened (name : Symbol) : List Char := '<' :: name.toList ++ ['>', ' ', ':', ':', '=', ' ', '[']

/-! ## Reading elements -/

/-- A text in which symbols are spelled, with separators before, between and after them. -/
inductive Spaced : List Symbol → List Char → Prop
  | nil {cs : List Char} (hseparators : ∀ c ∈ cs, isSeparator c = true) : Spaced [] cs
  | cons {s : Symbol} {ss : List Symbol} {before e cs : List Char}
      (hseparators : ∀ c ∈ before, isSeparator c = true) (hspelled : Spelled s e)
      (hends : ∀ c ∈ cs.head?, isSeparator c = true) (hrest : Spaced ss cs) :
      Spaced (s :: ss) (before ++ e ++ cs)

theorem separators_of_blanks {bs : List Char} (h : Blanks bs) : ∀ c ∈ bs, isSeparator c = true :=
  fun c hc => by simp [isSeparator, h c hc]

theorem upTo_append_of_ends {delimiter : Char} {cs rest : List Char} (habsent : delimiter ∉ cs)
    (hends : ∀ c ∈ rest.head?, c = delimiter) :
    upTo delimiter (cs ++ rest) = (cs, rest.drop 1) := by
  have hdiffers : ∀ c ∈ cs, (c != delimiter) = true := fun c hc =>
    bne_iff_ne.2 fun h => habsent (h ▸ hc)
  obtain ⟨htaken, hleft⟩ := span_append hdiffers fun c hc => bne_eq_false_iff_eq.2 (hends c hc)
  rw [upTo, htaken, hleft]

theorem upTo_append {delimiter : Char} {cs : List Char} (habsent : delimiter ∉ cs)
    (rest : List Char) : upTo delimiter (cs ++ delimiter :: rest) = (cs, rest) :=
  upTo_append_of_ends habsent (by simp)

theorem upTo_of_not_mem {delimiter : Char} {cs : List Char} (habsent : delimiter ∉ cs) :
    upTo delimiter cs = (cs, []) := by
  have h : upTo delimiter (cs ++ []) = (cs, []) := upTo_append_of_ends habsent (by simp)
  rwa [List.append_nil] at h

theorem isBare_of_isSeparator {c : Char} (h : isSeparator c = true) : isBare c = false := by
  rcases Bool.or_eq_true_iff.1 h with h | h <;> simp [isBare, h]

/-- A bare element ends where a character follows that none consists of, or nothing does. -/
theorem element_bare {c : Char} {name cs : List Char} (hbare : ∀ d ∈ c :: name, isBare d = true)
    (hunquoted : c ≠ '"' ∧ c ≠ '\'') (hends : ∀ d ∈ cs.head?, isBare d = false) :
    element c (name ++ cs) = (c :: name, cs) := by
  have hinName : ∀ d ∈ name, isBare d = true := fun d hd => hbare d (List.mem_cons_of_mem c hd)
  have hnotAngle : c ≠ '<' := by
    rintro rfl
    exact absurd (hbare '<' List.mem_cons_self) (by decide)
  obtain ⟨htaken, hleft⟩ := span_append hinName hends
  rw [element, if_neg hnotAngle, if_neg (by simp [hunquoted]), htaken, hleft]

/-- A spelled symbol is read as that symbol, when nothing follows that may belong to it. -/
theorem Spelled.read {s : Symbol} {e cs : List Char} (h : Spelled s e)
    (hends : ∀ c ∈ cs.head?, isSeparator c = true) :
    ∃ c rest, e ++ cs = c :: rest ∧ isSeparator c = false ∧ element c rest = (s.toList, cs) := by
  cases h with
  | angled habsent =>
    refine ⟨'<', s.toList ++ '>' :: cs, by simp, by decide, ?_⟩
    rw [element, if_pos rfl, upTo_append habsent]
  | @quoted q hquote habsent =>
    have hapart : isSeparator q = false ∧ q ≠ '<' := by rcases hquote with rfl | rfl <;> decide
    refine ⟨q, s.toList ++ q :: cs, by simp, hapart.1, ?_⟩
    rw [element, if_neg hapart.2, if_pos hquote, upTo_append habsent]
  | bare hne_nil hplain hunquoted =>
    obtain ⟨c, name, hs⟩ := List.exists_cons_of_ne_nil hne_nil
    rw [hs] at hplain hunquoted ⊢
    have hbare : ∀ d ∈ c :: name, isBare d = true := fun d hd => by
      obtain ⟨hblank, hno⟩ := hplain d hd
      simp only [List.mem_cons, not_or] at hno
      simp [isBare, hblank, hno]
    have hseparate : isSeparator c = false := by
      obtain ⟨hblank, hno⟩ := hplain c List.mem_cons_self
      simp only [List.mem_cons, not_or] at hno
      simp [isSeparator, hblank, hno]
    have hstops : ∀ d ∈ cs.head?, isBare d = false := fun d hd => isBare_of_isSeparator (hends d hd)
    exact ⟨c, name ++ cs, List.cons_append, hseparate, element_bare hbare (hunquoted c rfl) hstops⟩

theorem elements_eq_nil {cs : List Char} (h : cs.dropWhile isSeparator = []) :
    elements cs = [] := by
  unfold elements
  split
  next => rfl
  next c rest hc => rw [h] at hc; cases hc

theorem elements_eq_cons {cs rest : List Char} {c : Char}
    (h : cs.dropWhile isSeparator = c :: rest) :
    elements cs = (element c rest).1 :: elements (element c rest).2 := by
  rw [elements]
  split
  next hc => rw [h] at hc; cases hc
  next c' rest' hc =>
    rw [h] at hc
    cases hc
    rfl

/-- Separators before the elements are passed over. -/
theorem elements_append_of_separators {bs : List Char} (h : ∀ c ∈ bs, isSeparator c = true)
    (cs : List Char) : elements (bs ++ cs) = elements cs := by
  have hdrop : (bs ++ cs).dropWhile isSeparator = cs.dropWhile isSeparator :=
    List.dropWhile_append_of_pos h
  cases hc : cs.dropWhile isSeparator with
  | nil => rw [elements_eq_nil (hdrop.trans hc), elements_eq_nil hc]
  | cons c rest => rw [elements_eq_cons (hdrop.trans hc), elements_eq_cons hc]

theorem symbols_append_of_separators {bs : List Char} (h : ∀ c ∈ bs, isSeparator c = true)
    (cs : List Char) : symbols (bs ++ cs) = symbols cs :=
  congrArg (List.map String.ofList) (elements_append_of_separators h cs)

/-- Spelled symbols with separators around them are read as these symbols, and then what follows
them is read. -/
theorem Spaced.symbols_append {ss : List Symbol} {cs after : List Char} (h : Spaced ss cs)
    (hapart : ∀ c ∈ after.head?, isSeparator c = true) :
    symbols (cs ++ after) = ss ++ symbols after := by
  induction h with
  | nil hseparators => exact symbols_append_of_separators hseparators after
  | @cons s ss before e cs hseparators hspelled hends hrest ih =>
    have hapart' : ∀ c ∈ (cs ++ after).head?, isSeparator c = true := by
      cases cs with
      | nil => exact hapart
      | cons c cs => exact hends
    obtain ⟨c, tail, he, hsolid, hr⟩ := hspelled.read hapart'
    have hfirst : (before ++ e ++ cs ++ after).dropWhile isSeparator = c :: tail := by
      rw [List.append_assoc, List.append_assoc, List.dropWhile_append_of_pos hseparators, he]
      exact List.dropWhile_cons_of_neg (by simp [hsolid])
    rw [symbols, elements_eq_cons hfirst, hr, List.map_cons, String.ofList_toList]
    exact congrArg (s :: ·) ih

/-- Spelled symbols with separators around them are read as these symbols. -/
theorem Spaced.symbols_eq {ss : List Symbol} {cs : List Char} (h : Spaced ss cs) :
    symbols cs = ss := by
  have hnothing : symbols [] = [] := congrArg (List.map String.ofList) (elements_eq_nil rfl)
  have hread : symbols (cs ++ []) = ss ++ symbols [] := h.symbols_append (by simp)
  rwa [List.append_nil, hnothing, List.append_nil] at hread

/-! ## Reading a left-hand side -/

theorem of_afterArrow?_eq_some {cs inside : List Char} (h : afterArrow? cs = some inside) :
    ∃ bs, Blanks bs ∧ cs = [':', ':', '='] ++ bs ++ '[' :: inside := by
  unfold afterArrow? at h
  split at h
  next rest =>
    split at h
    next hb =>
      cases h
      exact ⟨rest.takeWhile isBlank, fun c hc => List.mem_takeWhile_imp hc,
        by rw [← hb, trimLeft, List.append_assoc, List.takeWhile_append_dropWhile]; rfl⟩
    next => cases h
  next => cases h

/-- No arrow that a bracket follows begins within a name. -/
theorem afterArrow?_name {name : List Char} (hplain : ∀ c ∈ name, isBlank c = false)
    (hno_arrow : ¬ [':', ':', '=', '['] <+: name) (rest : List Char) :
    afterArrow? (name ++ '>' :: rest) = none := by
  rw [Option.eq_none_iff_forall_ne_some]
  intro inside h
  obtain ⟨bs, hblanks, he⟩ := of_afterArrow?_eq_some h
  have he : name ++ '>' :: rest = ([':', ':', '='] ++ bs ++ ['[']) ++ inside := by simp [he]
  -- the name has no blanks, so an arrow and a bracket within it stand side by side
  have hwithin (more : List Char) : name ≠ ([':', ':', '='] ++ bs ++ ['[']) ++ more := by
    rintro rfl
    cases bs with
    | nil => exact hno_arrow ⟨more, rfl⟩
    | cons b bs =>
      have := hplain b (by simp)
      rw [hblanks b List.mem_cons_self] at this
      cases this
  rcases List.append_eq_append_iff.1 he with ⟨more, hp, hr⟩ | ⟨more, hn, -⟩
  · cases more with
    | nil => exact hwithin [] (by simpa using hp.symm)
    | cons c more =>
      cases hr
      have hmem : '>' ∈ [':', ':', '='] ++ bs ++ ['['] := by rw [hp]; simp
      exact absurd (hblanks '>' (by simpa using hmem)) (by decide)
  · exact hwithin more hn

theorem splitAtArrow_cons_of_none {c : Char} {cs : List Char}
    (h : afterArrow? (c :: cs) = none) :
    splitAtArrow (c :: cs) =
      (splitAtArrow cs).map fun (before, inside) => (c :: before, inside) := by
  rw [splitAtArrow, h]

theorem splitAtArrow_name {name : List Char} (hplain : ∀ c ∈ name, isBlank c = false)
    (hno_arrow : ¬ [':', ':', '=', '['] <:+: name) (inside : List Char) :
    splitAtArrow (name ++ '>' :: ' ' :: ':' :: ':' :: '=' :: ' ' :: '[' :: inside) =
      some (name ++ ['>', ' '], inside) := by
  induction name with
  | nil =>
    have harrow : afterArrow? (':' :: ':' :: '=' :: ' ' :: '[' :: inside) = some inside := by
      simp only [afterArrow?, show trimLeft (' ' :: '[' :: inside) = '[' :: inside from rfl]
    rw [List.nil_append, splitAtArrow_cons_of_none (by simp [afterArrow?]),
      splitAtArrow_cons_of_none (by simp [afterArrow?]), splitAtArrow, harrow]
    rfl
  | cons c name ih =>
    have hlater := ih (fun d hd => hplain d (List.mem_cons_of_mem c hd))
      fun h => hno_arrow (h.trans (List.suffix_cons c name).isInfix)
    have here := afterArrow?_name hplain (fun h => hno_arrow h.isInfix)
      (' ' :: ':' :: ':' :: '=' :: ' ' :: '[' :: inside)
    rw [List.cons_append] at here ⊢
    rw [splitAtArrow_cons_of_none here, hlater]
    rfl

theorem lhsName?_name {name : Symbol} (h : LhsName name) :
    lhsName? ('<' :: name.toList ++ ['>']) = some name := by
  have hclean : (name.toList.any fun c => c == '<' || c == '>' || isBlank c) = false := by
    rw [List.any_eq_false]
    intro c hc
    obtain ⟨h1, h2, h3⟩ := h.plain c hc
    simp [h1, h2, h3]
  simp only [lhsName?, List.cons_append, List.reverse_append, List.reverse_singleton,
    List.nil_append, List.reverse_reverse, hclean, Bool.or_false,
    List.isEmpty_eq_false_iff.2 h.ne_nil, Bool.false_eq_true, if_false, String.ofList_toList]

/-! ## Reading a rule -/

theorem solid_lhs (name : List Char) : Solid ('<' :: name ++ ['>']) :=
  ⟨⟨'<', rfl, by decide⟩, ⟨'>', List.getLast?_concat, by decide⟩⟩

/-- What stands between the brackets of a rule is read as its right-hand side. -/
theorem readRule_between {name : Symbol} (h : LhsName name) (cs : List Char) (line : Nat) :
    readRule line (opened name ++ cs ++ [']']) = .ok ⟨name, symbols cs⟩ := by
  have hsplit : splitAtArrow (opened name ++ cs ++ [']']) =
      some ('<' :: name.toList ++ ['>'] ++ [' '], cs ++ [']']) := by
    have := splitAtArrow_name (fun c hc => (h.plain c hc).2.2) h.no_arrow (cs ++ [']'])
    simp only [opened, List.cons_append, List.append_assoc, List.nil_append] at this ⊢
    rw [splitAtArrow_cons_of_none (by simp [afterArrow?]), this]
    rfl
  have htrimmed : trim ('<' :: name.toList ++ ['>'] ++ [' ']) = '<' :: name.toList ++ ['>'] :=
    (solid_lhs name.toList).trim_append (by decide)
  rw [readRule, hsplit]
  simp only [htrimmed, lhsName?_name h, List.dropLast_concat]

/-- A rule is read from its joined lines when it is written as rules are. -/
theorem readRule_opened {r : Rule} (h : LhsName r.lhs) {cs : List Char} (hspaced : Spaced r.rhs cs)
    (line : Nat) : readRule line (opened r.lhs ++ cs ++ [']']) = .ok r := by
  rw [readRule_between h, hspaced.symbols_eq]

end Listing

end EditableGrammar
