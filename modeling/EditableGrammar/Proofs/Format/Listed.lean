import EditableGrammar.Proofs.Format.ListedRule

set_option autoImplicit false

/-!
# Laying out a listing

The rules of a listing may be laid out freely: blanks, line breaks, blank lines and comments stand
after an opening bracket, after a comma, before the closing bracket and between rules (`Listed`).

Reading goes over such a text from left to right.  Where it stands within a rule is a `Place`; each
gap and each piece of a rule leads from one place to the next (`Place.Stands.step`), and what has
been read grows by blanks and that piece.  At the closing bracket the joined text is that of a rule
whose symbols are spelled between separators, so the listing is read back, whatever its spellings
and its layout (`read_listed`).
-/

namespace EditableGrammar

namespace Listing

/-! ## Layouts -/

/-- Blanks that stay on their line. -/
structure Indent (cs : List Char) : Prop where
  blanks : Blanks cs
  oneLine : '\n' ∉ cs

/-- A line that holds nothing of a rule: it is blank, or a comment. -/
inductive IdleLine : List Char → Prop
  | blank {bs : List Char} (hindent : Indent bs) : IdleLine bs
  | comment {bs text : List Char} (hindent : Indent bs) (honeLine : '\n' ∉ text) :
      IdleLine (bs ++ '#' :: text)

/-- Idle lines, and what the line after them is indented by. -/
inductive IdleLines : List Char → Prop
  | indent {bs : List Char} (hindent : Indent bs) : IdleLines bs
  | line {l cs : List Char} (hidle : IdleLine l) (hrest : IdleLines cs) :
      IdleLines (l ++ '\n' :: cs)

/-- What may stand between the pieces of a rule: blanks, or the end of a line and idle lines. -/
inductive Gap : List Char → Prop
  | blanks {bs : List Char} (hindent : Indent bs) : Gap bs
  | lines {bs cs : List Char} (hindent : Indent bs) (hidle : IdleLines cs) : Gap (bs ++ '\n' :: cs)

/-- What stands between the brackets of a rule. -/
inductive Inside : List Symbol → List Char → Prop
  | nil {gap : List Char} (hbetween : Gap gap) : Inside [] gap
  | last {s : Symbol} {before e after : List Char} (hgap : Gap before) (hspelled : Spelled s e)
      (hgap' : Gap after) : Inside [s] (before ++ e ++ after)
  | more {s t : Symbol} {ss : List Symbol} {before e cs : List Char} (hgap : Gap before)
      (hspelled : Spelled s e) (hrest : Inside (t :: ss) cs) :
      Inside (s :: t :: ss) (before ++ e ++ ',' :: cs)

/-- A rule as it is written from its first character to its last. -/
inductive Written (r : Rule) : List Char → Prop
  | mk {cs : List Char} (hinside : Inside r.rhs cs) : Written r (opened r.lhs ++ cs ++ [']'])

/-- A listing of some rules in order, each beginning on a line of its own. -/
inductive Listed : List Rule → List Char → Prop
  | nil {l : List Char} (hidle : IdleLine l) : Listed [] l
  | idle {rules : List Rule} {l cs : List Char} (hidle : IdleLine l) (hrest : Listed rules cs) :
      Listed rules (l ++ '\n' :: cs)
  | last {r : Rule} {before w after : List Char} (hindent : Indent before) (hwritten : Written r w)
      (hindent' : Indent after) : Listed [r] (before ++ w ++ after)
  | cons {r : Rule} {rules : List Rule} {before w after cs : List Char} (hindent : Indent before)
      (hwritten : Written r w) (hindent' : Indent after) (hrest : Listed rules cs) :
      Listed (r :: rules) (before ++ w ++ after ++ '\n' :: cs)

/-- The rules that a listing can hold. -/
structure Listable (r : Rule) : Prop where
  lhs : LhsName r.lhs
  rhs : ∀ s ∈ r.rhs, '\n' ∉ s.toList

/-! ## Lines that are passed over -/

theorem IdleLine.oneLine {l : List Char} (h : IdleLine l) : '\n' ∉ l := by
  cases h with
  | blank hindent => exact hindent.oneLine
  | comment hindent honeLine => simp [hindent.oneLine, honeLine]

theorem IdleLine.isIgnored_trim {l : List Char} (h : IdleLine l) : isIgnored (trim l) = true := by
  cases h with
  | blank hindent => rw [hindent.blanks.trim_eq]; rfl
  | comment hindent => rw [trim_append_left hindent.blanks, trim_cons (by decide)]; rfl

/-- The lines of a text that begins with one line. -/
theorem splitOn_line {l : List Char} (h : '\n' ∉ l) (cs : List Char) :
    (l ++ '\n' :: cs).splitOn '\n' = l :: cs.splitOn '\n' :=
  List.splitOn_append_cons_self_of_not_mem h cs

theorem IdleLine.readLines_eq {l : List Char} (h : IdleLine l) (n : Nat) (begun : Option Begun)
    (lines : List (List Char)) :
    readLines n begun (l :: lines) = readLines (n + 1) begun lines := by
  rw [readLines, if_pos h.isIgnored_trim]

/-- What stands before a text on its first line becomes part of that line only. -/
theorem exists_lines (cs : List Char) :
    ∃ l lines, ∀ bs, '\n' ∉ bs → (bs ++ cs).splitOn '\n' = (bs ++ l) :: lines := by
  by_cases h : '\n' ∈ cs
  · obtain ⟨l, rest, rfl, hl⟩ := List.eq_append_cons_of_mem h
    refine ⟨l, rest.splitOn '\n', fun bs hb => ?_⟩
    rw [← List.append_assoc, splitOn_line (by simp [hb, hl])]
  · exact ⟨cs, [], fun bs hb => List.splitOn_eq_singleton (by simp [hb, h])⟩

/-- A line is read without what it is indented by. -/
theorem Indent.readLines_eq {bs : List Char} (h : Indent bs) (n : Nat) (begun : Option Begun)
    (cs : List Char) :
    readLines n begun ((bs ++ cs).splitOn '\n') = readLines n begun (cs.splitOn '\n') := by
  obtain ⟨l, lines, hl⟩ := exists_lines cs
  have hplain := hl [] (by simp)
  rw [List.nil_append, List.nil_append] at hplain
  rw [hl bs h.oneLine, hplain, readLines, readLines, trim_append_left h.blanks]

theorem IdleLines.readLines_eq {gap : List Char} (h : IdleLines gap) (n : Nat)
    (begun : Option Begun) :
    ∃ m, ∀ cs, readLines n begun ((gap ++ cs).splitOn '\n') =
      readLines m begun (cs.splitOn '\n') := by
  induction h generalizing n with
  | indent hindent => exact ⟨n, hindent.readLines_eq n begun⟩
  | @line l gap hidle hrest ih =>
    obtain ⟨m, hm⟩ := ih (n + 1)
    refine ⟨m, fun cs => ?_⟩
    rw [List.append_assoc, List.cons_append, splitOn_line hidle.oneLine, hidle.readLines_eq, hm]

/-! ## Pieces of a rule -/

/-- A piece of a rule on one line: it begins as no comment does, and ends with the given
character. -/
structure Piece (cs : List Char) (last : Char) : Prop where
  oneLine : '\n' ∉ cs
  solid : Solid cs
  notComment : cs.head? ≠ some '#'
  ends : cs.getLast? = some last

theorem Piece.singleton {c : Char} (hblank : isBlank c = false) (h : c ≠ '\n') (h' : c ≠ '#') :
    Piece [c] c := ⟨by simpa using h.symm, Solid.singleton hblank, by simpa using h', rfl⟩

/-- Two pieces on one line, with blanks between them, are one piece. -/
theorem Piece.append {cs ds bs : List Char} {c d : Char} (h : Piece cs c) (hb : Indent bs)
    (h' : Piece ds d) : Piece (cs ++ bs ++ ds) d where
  oneLine := by simp [h.oneLine, hb.oneLine, h'.oneLine]
  solid := h.solid.append bs h'.solid
  notComment := by
    obtain ⟨c, cs, rfl⟩ := List.exists_cons_of_ne_nil h.solid.ne_nil
    simpa using h.notComment
  ends := by rw [List.getLast?_append, h'.ends]; rfl

theorem Piece.trim_append {cs bs : List Char} {c : Char} (h : Piece cs c) (hb : Indent bs) :
    trim (cs ++ bs) = cs := h.solid.trim_append hb.blanks

theorem Piece.isIgnored_eq {cs : List Char} {c : Char} (h : Piece cs c) : isIgnored cs = false := by
  obtain ⟨first, rest, rfl⟩ := List.exists_cons_of_ne_nil h.solid.ne_nil
  simpa [isIgnored] using h.notComment

/-- A spelled symbol is a piece that no rule ends with. -/
theorem Spelled.piece {s : Symbol} {e : List Char} (h : Spelled s e) (honeLine : '\n' ∉ s.toList) :
    ∃ c, c ≠ ']' ∧ Piece e c := by
  cases h with
  | angled habsent =>
    exact ⟨'>', by decide, by simp [honeLine], solid_lhs s.toList, by simp, List.getLast?_concat⟩
  | @quoted q hquote habsent =>
    have hplain : isBlank q = false ∧ q ≠ '\n' ∧ q ≠ '#' ∧ q ≠ ']' := by
      rcases hquote with rfl | rfl <;> decide
    obtain ⟨hblank, hnotBreak, hnotComment, hnotClosing⟩ := hplain
    exact ⟨q, hnotClosing, by simp [honeLine, hnotBreak.symm],
      ⟨⟨q, rfl, hblank⟩, ⟨q, List.getLast?_concat, hblank⟩⟩, by simpa using hnotComment,
      List.getLast?_concat⟩
  | bare hne_nil hplain hunquoted =>
    have hfirst := List.head?_eq_some_head hne_nil
    have hlast := List.getLast?_eq_some_getLast hne_nil
    obtain ⟨hblank, hnotClosing⟩ := hplain _ (List.mem_of_getLast? hlast)
    refine ⟨_, fun h => hnotClosing (by simp [h]), honeLine,
      ⟨⟨_, hfirst, (hplain _ (List.mem_of_head? hfirst)).1⟩, ⟨_, hlast, hblank⟩⟩, fun h => ?_,
      hlast⟩
    exact (hplain '#' (List.mem_of_head? h)).2 (by simp)

/-! ## A rule that goes on -/

theorem intercalate_concat {parts : List (List Char)} (h : parts ≠ []) (p : List Char) :
    [' '].intercalate (parts ++ [p]) = [' '].intercalate parts ++ ' ' :: p := by
  induction parts with
  | nil => exact absurd rfl h
  | cons q parts ih =>
    cases parts with
    | nil => simp [List.intercalate_cons_of_ne_nil]
    | cons q' parts =>
      have hfirst {more : List (List Char)} (hm : more ≠ []) :
          [' '].intercalate (q :: more) = q ++ ' ' :: [' '].intercalate more := by
        rw [List.intercalate_cons_of_ne_nil hm, List.append_assoc, List.singleton_append]
      rw [List.cons_append, hfirst (by simp), ih (by simp), hfirst (by simp), List.append_assoc,
        List.cons_append]

theorem Begun.extend_some_text {b : Begun} (h : b.parts ≠ []) (line : Nat) (part : List Char) :
    (Begun.extend (some b) line part).text = b.text ++ ' ' :: part := by
  simp only [Begun.extend, Begun.text, List.reverse_cons]
  exact intercalate_concat (by simpa using h) part

theorem Begun.extend_parts_ne_nil (begun : Option Begun) (line : Nat) (part : List Char) :
    (Begun.extend begun line part).parts ≠ [] := by cases begun <;> simp [Begun.extend]

theorem Begun.text_extend_append (begun : Option Begun) (line : Nat) (part more : List Char) :
    (Begun.extend begun line (part ++ more)).text =
      (Begun.extend begun line part).text ++ more := by
  cases begun with
  | none => simp [Begun.extend, Begun.text]
  | some b =>
    simp only [Begun.extend, Begun.text, List.reverse_cons]
    by_cases h : b.parts.reverse = []
    · simp [h]
    · simp [intercalate_concat h]

theorem hasArrow_cons {cs : List Char} (h : hasArrow cs = true) (c : Char) :
    hasArrow (c :: cs) = true := by
  unfold hasArrow
  split
  next => rfl
  next he => cases he; exact h
  next he => cases he

theorem hasArrow_append_left {cs : List Char} (h : hasArrow cs = true) (ds : List Char) :
    hasArrow (cs ++ ds) = true := by
  fun_induction hasArrow cs with
  | case1 => rfl
  | case2 c cs hnotHere ih => exact hasArrow_cons (ih h) c
  | case3 => cases h

theorem hasArrow_append_right (cs : List Char) {ds : List Char} (h : hasArrow ds = true) :
    hasArrow (cs ++ ds) = true := by
  induction cs with
  | nil => exact h
  | cons c cs ih => exact hasArrow_cons ih c

theorem Begun.arrow_extend_append {begun : Option Begun} {line : Nat} {part : List Char}
    (h : (Begun.extend begun line part).arrow = true) (more : List Char) :
    (Begun.extend begun line (part ++ more)).arrow = true := by
  cases begun with
  | none => exact hasArrow_append_left h more
  | some b =>
    rcases Bool.or_eq_true_iff.1 h with h | h
    · exact Bool.or_eq_true_iff.2 (.inl h)
    · exact Bool.or_eq_true_iff.2 (.inr (hasArrow_append_left h more))

/-! ## Places -/

/-- Where reading stands within a rule. -/
structure Place where
  /-- the number of the line -/
  line : Nat
  /-- what the lines before hold of the rule, if it began on one of them -/
  begun : Option Begun
  /-- what this line holds of it so far -/
  current : List Char

namespace Place

/-- The rule as it is begun when the line ends here. -/
def rule (p : Place) : Begun := Begun.extend p.begun p.line p.current

/-- Reading on from here. -/
def read (p : Place) (rest : List Char) : Except Error (List Rule) :=
  readLines p.line p.begun ((p.current ++ rest).splitOn '\n')

/-- Reading stands behind the given character of a rule whose arrow has been read. -/
structure Stands (p : Place) (last : Char) : Prop where
  piece : Piece p.current last
  arrow : p.rule.arrow = true

/-- Reading some characters leads from one place to another, and the rule grows by what is added. -/
structure Leads (p : Place) (cs added : List Char) (q : Place) : Prop where
  read_eq : ∀ rest, p.read (cs ++ rest) = q.read rest
  text_eq : q.rule.text = p.rule.text ++ added

theorem Leads.trans {p q r : Place} {cs ds added added' : List Char} (h : p.Leads cs added q)
    (h' : q.Leads ds added' r) : p.Leads (cs ++ ds) (added ++ added') r where
  read_eq rest := by rw [List.append_assoc, h.read_eq, h'.read_eq]
  text_eq := by rw [h'.text_eq, h.text_eq, List.append_assoc]

/-- The place after some more characters on the same line. -/
def onLine (p : Place) (cs : List Char) : Place := { p with current := p.current ++ cs }

end Place

/-! ## From place to place -/

namespace Place.Stands

variable {p : Place} {c d : Char} {bs cs : List Char}

/-- Where a line ends that does not end with a closing bracket, the rule goes on. -/
theorem readLines_goesOn (h : p.Stands c) (hgoesOn : c ≠ ']') (hb : Indent bs)
    (lines : List (List Char)) :
    readLines p.line p.begun ((p.current ++ bs) :: lines) =
      readLines (p.line + 1) (some p.rule) lines := by
  have harrow : (Begun.extend p.begun p.line p.current).arrow = true := h.arrow
  have hnotLast : p.current.getLast? ≠ some ']' := by simpa [h.piece.ends] using hgoesOn
  rw [readLines]
  simp only [h.piece.trim_append hb, h.piece.isIgnored_eq, Bool.false_eq_true, if_false, hnotLast,
    harrow, if_true]
  rfl

/-- Where a line ends with a closing bracket, the rule ends. -/
theorem readLines_closes (h : p.Stands ']') {r : Rule}
    (hr : readRule p.rule.line p.rule.text = .ok r) (hb : Indent bs) {lines : List (List Char)}
    {rules : List Rule} (hrest : readLines (p.line + 1) none lines = .ok rules) :
    readLines p.line p.begun ((p.current ++ bs) :: lines) = .ok (r :: rules) := by
  have hr : readRule (Begun.extend p.begun p.line p.current).line
      (Begun.extend p.begun p.line p.current).text = .ok r := hr
  rw [readLines]
  simp only [h.piece.trim_append hb, h.piece.isIgnored_eq, Bool.false_eq_true, if_false,
    h.piece.ends, if_true, hr, hrest]

theorem onLine (h : p.Stands c) (hb : Indent bs) (hpiece : Piece cs d) :
    (p.onLine (bs ++ cs)).Stands d ∧ p.Leads (bs ++ cs) (bs ++ cs) (p.onLine (bs ++ cs)) where
  left := {
    piece := by simpa [Place.onLine] using h.piece.append hb hpiece
    arrow := Begun.arrow_extend_append h.arrow _ }
  right := ⟨fun rest => by simp [Place.read, Place.onLine], Begun.text_extend_append _ _ _ _⟩

theorem onLaterLine (h : p.Stands c) (hgoesOn : c ≠ ']') (hb : Indent bs) {gap : List Char}
    (hidle : IdleLines gap) (hpiece : Piece cs d) :
    ∃ q : Place, q.Stands d ∧ p.Leads (bs ++ '\n' :: gap ++ cs) (' ' :: cs) q := by
  obtain ⟨line, hl⟩ := hidle.readLines_eq (p.line + 1) (some p.rule)
  have harrow : (p.rule.arrow || hasArrow cs) = true := by simp [h.arrow]
  refine ⟨⟨line, some p.rule, cs⟩, ⟨hpiece, harrow⟩, fun rest => ?_,
    Begun.extend_some_text (Begun.extend_parts_ne_nil _ _ _) _ _⟩
  have hfirst : '\n' ∉ p.current ++ bs := by simp [h.piece.oneLine, hb.oneLine]
  calc p.read (bs ++ '\n' :: gap ++ cs ++ rest)
      = readLines p.line p.begun
          ((p.current ++ bs ++ '\n' :: (gap ++ (cs ++ rest))).splitOn '\n') := by
        simp [Place.read]
    _ = readLines (p.line + 1) (some p.rule) ((gap ++ (cs ++ rest)).splitOn '\n') := by
        rw [splitOn_line hfirst, h.readLines_goesOn hgoesOn hb]
    _ = readLines line (some p.rule) ((cs ++ rest).splitOn '\n') := hl _

/-- Whatever gap stands before the next piece, the rule grows by blanks and that piece. -/
theorem step (h : p.Stands c) (hgoesOn : c ≠ ']') {gap : List Char} (hbetween : Gap gap)
    (hpiece : Piece cs d) :
    ∃ (q : Place) (bs : List Char), q.Stands d ∧ Blanks bs ∧ p.Leads (gap ++ cs) (bs ++ cs) q := by
  cases hbetween with
  | blanks hindent =>
    obtain ⟨hstands, hleads⟩ := h.onLine hindent hpiece
    exact ⟨_, gap, hstands, hindent.blanks, hleads⟩
  | lines hindent hidle =>
    obtain ⟨q, hstands, hleads⟩ := h.onLaterLine hgoesOn hindent hidle hpiece
    exact ⟨q, [' '], hstands, by decide, hleads⟩

end Place.Stands

/-- A comma before a text is one more separator. -/
theorem Spaced.comma {ss : List Symbol} {cs : List Char} (h : Spaced ss cs) :
    Spaced ss (',' :: cs) := by
  have hseparator : isSeparator ',' = true := by decide
  cases h with
  | nil hseparators => exact .nil (List.forall_mem_cons.2 ⟨hseparator, hseparators⟩)
  | cons hseparators hspelled hends hrest =>
    exact .cons (List.forall_mem_cons.2 ⟨hseparator, hseparators⟩) hspelled hends hrest

/-- Reading leads through what stands between the brackets and behind the closing one. -/
theorem Inside.leads {ss : List Symbol} {cs : List Char} (h : Inside ss cs)
    (honeLine : ∀ s ∈ ss, '\n' ∉ s.toList) {p : Place} {c : Char} (hp : p.Stands c)
    (hgoesOn : c ≠ ']') :
    ∃ (q : Place) (joined : List Char), q.Stands ']' ∧ Spaced ss joined ∧
      p.Leads (cs ++ [']']) (joined ++ [']']) q := by
  have hbracket : Piece [']'] ']' := .singleton (by decide) (by decide) (by decide)
  induction h generalizing p c with
  | nil hbetween =>
    obtain ⟨q, bs, hq, hblanks, hleads⟩ := hp.step hgoesOn hbetween hbracket
    exact ⟨q, bs, hq, .nil (separators_of_blanks hblanks), hleads⟩
  | @last s before e after hgap hspelled hgap' =>
    obtain ⟨d, hnotClosing, hpiece⟩ := hspelled.piece (honeLine s (by simp))
    obtain ⟨q, bs, hq, hblanks, hleads⟩ := hp.step hgoesOn hgap hpiece
    obtain ⟨q', bs', hq', hblanks', hleads'⟩ := hq.step hnotClosing hgap' hbracket
    refine ⟨q', bs ++ e ++ bs', hq', ?_, ?_⟩
    · have hafter := separators_of_blanks hblanks'
      exact .cons (separators_of_blanks hblanks) hspelled
        (fun c hc => hafter c (List.mem_of_head? hc)) (.nil hafter)
    · simpa only [List.append_assoc] using hleads.trans hleads'
  | @more s t ss before e cs hgap hspelled hrest ih =>
    obtain ⟨d, hnotClosing, hpiece⟩ := hspelled.piece (honeLine s (by simp))
    have hcomma : Piece (e ++ [] ++ [',']) ',' :=
      hpiece.append ⟨by decide, by decide⟩ (.singleton (by decide) (by decide) (by decide))
    obtain ⟨q, bs, hq, hblanks, hleads⟩ := hp.step hgoesOn hgap hcomma
    obtain ⟨q', joined, hq', hspaced, hleads'⟩ :=
      ih (fun s hs => honeLine s (List.mem_cons_of_mem _ hs)) hq (by decide)
    refine ⟨q', bs ++ e ++ ',' :: joined, hq', ?_, ?_⟩
    · exact .cons (separators_of_blanks hblanks) hspelled (by simp [isSeparator]) hspaced.comma
    · simpa using hleads.trans hleads'

/-! ## The whole listing -/

theorem opened_eq_concat (name : Symbol) :
    opened name = '<' :: name.toList ++ ['>', ' ', ':', ':', '=', ' '] ++ ['['] := by simp [opened]

theorem piece_opened {name : Symbol} (h : LhsName name) : Piece (opened name) '[' where
  oneLine := by
    have : '\n' ∉ name.toList := fun hc => absurd (h.plain '\n' hc).2.2 (by decide)
    simp [opened, this]
  solid := {
    head := ⟨'<', rfl, by decide⟩
    last := ⟨'[', by rw [opened_eq_concat]; exact List.getLast?_concat, by decide⟩ }
  notComment := by simp [opened]
  ends := by rw [opened_eq_concat]; exact List.getLast?_concat

theorem hasArrow_opened (name : Symbol) : hasArrow (opened name) = true := by
  have : opened name = ('<' :: name.toList ++ ['>', ' ']) ++ [':', ':', '=', ' ', '['] := by
    simp [opened]
  rw [this]
  exact hasArrow_append_right _ rfl

/-- A written rule is read as that rule. -/
theorem Written.leads {r : Rule} {w : List Char} (h : Written r w) (hlistable : Listable r)
    (line : Nat) :
    ∃ q : Place, q.Stands ']' ∧ readRule q.rule.line q.rule.text = .ok r ∧
      ∀ rest, readLines line none ((w ++ rest).splitOn '\n') = q.read rest := by
  cases h with
  | @mk cs hinside =>
    have hstands : (Place.mk line none (opened r.lhs)).Stands '[' :=
      ⟨piece_opened hlistable.lhs, hasArrow_opened r.lhs⟩
    obtain ⟨q, joined, hq, hspaced, hleads⟩ := hinside.leads hlistable.rhs hstands (by decide)
    refine ⟨q, hq, ?_, fun rest => ?_⟩
    · have htext : q.rule.text = opened r.lhs ++ joined ++ [']'] := by
        rw [hleads.text_eq]
        simp [Place.rule, Begun.extend, Begun.text]
      rw [htext]
      exact readRule_opened hlistable.lhs hspaced _
    · rw [← hleads.read_eq]
      simp [Place.read]

/-- The lines of a listing are read as its rules, whatever number its first line has. -/
theorem Listed.readLines_eq {rules : List Rule} {cs : List Char} (h : Listed rules cs)
    (hlistable : ∀ r ∈ rules, Listable r) (line : Nat) :
    readLines line none (cs.splitOn '\n') = .ok rules := by
  induction h generalizing line with
  | nil hidle =>
    rw [List.splitOn_eq_singleton hidle.oneLine, hidle.readLines_eq]
    rfl
  | idle hidle hrest ih =>
    rw [splitOn_line hidle.oneLine, hidle.readLines_eq]
    exact ih hlistable _
  | @last r before w after hindent hwritten hindent' =>
    obtain ⟨q, hq, hr, hleads⟩ := hwritten.leads (hlistable r (by simp)) line
    have hone : '\n' ∉ q.current ++ after := by simp [hq.piece.oneLine, hindent'.oneLine]
    rw [List.append_assoc, hindent.readLines_eq, hleads, Place.read, List.splitOn_eq_singleton hone]
    exact hq.readLines_closes hr hindent' rfl
  | @cons r rules before w after cs hindent hwritten hindent' hrest ih =>
    obtain ⟨q, hq, hr, hleads⟩ := hwritten.leads (hlistable r (by simp)) line
    have hone : '\n' ∉ q.current ++ after := by simp [hq.piece.oneLine, hindent'.oneLine]
    rw [List.append_assoc, List.append_assoc, hindent.readLines_eq, hleads, Place.read,
      ← List.append_assoc, splitOn_line hone]
    exact hq.readLines_closes hr hindent'
      (ih (fun r hr => hlistable r (List.mem_cons_of_mem _ hr)) _)

/-- A listing is read back, whatever the spellings of its symbols and its layout: its rules in
order, without those that repeat an earlier one. -/
theorem read_listed {rules : List Rule} {text : String} (hlistable : ∀ r ∈ rules, Listable r)
    (hlisted : Listed rules text.toList) : read text = .ok rules.eraseDups := by
  simp only [read, hlisted.readLines_eq hlistable, Rule.firstPlaces_eq_eraseDups]

/-- Brackets and arrows within names, a comment within a rule, a line break before
the closing bracket, and a rule that comes twice. -/
theorem read_listed_interleaved :
    read "# c\n <a::=b> ::= [\"x]\",\n # ]\n<>,'::= [',y\r\n]\n<s> ::= []\n\n<s> ::= [ ]" =
      .ok [⟨"a::=b", ["x]", "", "::= [", "y"]⟩, ⟨"s", []⟩] := by
  have hflush : Indent [] := ⟨by decide, by decide⟩
  have hone : Indent [' '] := ⟨by decide, by decide⟩
  have hfeed : Indent ['\r'] := ⟨by decide, by decide⟩
  have hcomment : IdleLine ([' '] ++ '#' :: [' ', ']']) := .comment hone (by decide)
  have hfirst : IdleLine ([] ++ '#' :: [' ', 'c']) := .comment hflush (by decide)
  have hx : Spelled "x]" ['"', 'x', ']', '"'] := .quoted (.inl rfl) (by decide)
  have hnameless : Spelled "" ['<', '>'] := .angled (by decide)
  have harrow : Spelled "::= [" ['\'', ':', ':', '=', ' ', '[', '\''] :=
    .quoted (.inr rfl) (by decide)
  have hy : Spelled "y" ['y'] := .bare (by decide) (List.forall_mem_singleton.2 (by decide))
    (by rintro _ ⟨⟩; decide)
  have hinside : Inside ["x]", "", "::= [", "y"] _ :=
    .more (.blanks hflush) hx (.more (.lines hflush (.line hcomment (.indent hflush))) hnameless
      (.more (.blanks hflush) harrow (.last (.blanks hflush) hy (.lines hfeed (.indent hflush)))))
  have hlong : Written ⟨"a::=b", ["x]", "", "::= [", "y"]⟩ _ := .mk hinside
  have hshort : Written ⟨"s", []⟩ _ := .mk (.nil (.blanks hflush))
  have hwide : Written ⟨"s", []⟩ _ := .mk (.nil (.blanks hone))
  have hlisted := Listed.idle hfirst (.cons hone hlong hflush (.cons hflush hshort hflush
    (.idle (.blank hflush) (.last hflush hwide hflush))))
  have hlhs : LhsName "a::=b" ∧ LhsName "s" := by decide
  have hrhs : ∀ s ∈ ["x]", "", "::= [", "y"], '\n' ∉ s.toList := by decide
  have hlistable :
      ∀ r ∈ [⟨"a::=b", ["x]", "", "::= [", "y"]⟩, ⟨"s", []⟩, ⟨"s", []⟩], Listable r := by
    simp only [List.forall_mem_cons]
    exact ⟨⟨hlhs.1, hrhs⟩, ⟨hlhs.2, by simp⟩, ⟨hlhs.2, by simp⟩, by simp⟩
  exact read_listed hlistable hlisted

end Listing

end EditableGrammar
