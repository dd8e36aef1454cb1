import Mathlib.Data.List.ReduceOption
import EditableGrammar.Proofs.Format.Listed
import EditableGrammar.Proofs.Format.Joined

set_option autoImplicit false

/-!
# A rule without its closing bracket

A rule of a listing goes on until a line ends with a closing bracket, whichever rule that bracket
was meant for.  So what becomes of a line whose rule lacks its bracket is decided by what stands
below it (`read_unclosed`).  Where no rule does, reading fails and names the line.  Where one does,
the bracket of that rule closes both: its text, arrow included, is read as elements of the rule
above, and nothing is reported.
-/

namespace EditableGrammar

namespace Listing

/-! ## One rule a line -/

/-- A line that holds nothing of a rule, or one whole rule. -/
inductive LineOf : Option Rule → List Char → Prop
  | idle {l : List Char} (hidle : IdleLine l) : LineOf none l
  | rule {r : Rule} {before w after : List Char} (hindent : Indent before) (hwritten : Written r w)
      (honeLine : '\n' ∉ w) (hindent' : Indent after) : LineOf (some r) (before ++ w ++ after)

/-- The text that consists of some lines. -/
def unlines (ls : List (List Char)) : String := String.ofList (['\n'].intercalate ls)

theorem LineOf.oneLine {holds : Option Rule} {l : List Char} (h : LineOf holds l) : '\n' ∉ l := by
  cases h with
  | idle hidle => exact hidle.oneLine
  | rule hindent hwritten honeLine hindent' => simp [hindent.oneLine, honeLine, hindent'.oneLine]

theorem LineOf.forall_oneLine {holds : List (Option Rule)} {ls : List (List Char)}
    (h : List.Forall₂ LineOf holds ls) : ∀ l ∈ ls, '\n' ∉ l := by
  induction h with
  | nil => simp
  | cons hline _ ih => exact List.forall_mem_cons.2 ⟨hline.oneLine, ih⟩

theorem splitOn_unlines {ls : List (List Char)} (hne : ls ≠ []) (h : ∀ l ∈ ls, '\n' ∉ l) :
    (unlines ls).toList.splitOn '\n' = ls := by
  rw [unlines, String.toList_ofList]
  exact List.splitOn_intercalate '\n' h hne

/-- A line is read without what it is indented by. -/
theorem Indent.readLines_cons {bs : List Char} (h : Indent bs) (n : Nat) (begun : Option Begun)
    (l : List Char) (lines : List (List Char)) :
    readLines n begun ((bs ++ l) :: lines) = readLines n begun (l :: lines) := by
  rw [readLines, readLines, trim_append_left h.blanks]

/-- Lines that hold whole rules are read as these rules. -/
theorem readLines_lines {holds : List (Option Rule)} {ls : List (List Char)}
    (h : List.Forall₂ LineOf holds ls) (hlistable : ∀ r ∈ holds.reduceOption, Listable r)
    (n : Nat) : readLines n none ls = .ok holds.reduceOption := by
  induction h generalizing n with
  | nil => rfl
  | @cons hold l holds ls hline _ ih =>
    cases hline with
    | idle hidle =>
      rw [hidle.readLines_eq, List.reduceOption_cons_of_none]
      exact ih hlistable _
    | @rule r before w after hindent hwritten honeLine hindent' =>
      rw [List.reduceOption_cons_of_some] at hlistable ⊢
      have hfirst : readLines n none [before ++ w ++ after] = .ok [r] := by
        have hlisted : Listed [r] (before ++ w ++ after) := .last hindent hwritten hindent'
        have halone := hlisted.readLines_eq (by simpa using hlistable r List.mem_cons_self) n
        rwa [List.splitOn_eq_singleton (LineOf.rule hindent hwritten honeLine hindent').oneLine]
          at halone
      rw [← List.singleton_append, readLines_append_of_ok hfirst,
        ih (fun r hr => hlistable r (List.mem_cons_of_mem _ hr))]
      rfl

/-! ## The line without its bracket -/

/-- The last place of a character in a text is one place. -/
theorem eq_of_append_cons_eq {c : Char} {as as' bs bs' : List Char}
    (h : as ++ c :: bs = as' ++ c :: bs') (hbs : c ∉ bs) (hbs' : c ∉ bs') : as = as' := by
  rcases List.append_eq_append_iff.1 h with ⟨more, rfl, hrest⟩ | ⟨more, rfl, hrest⟩
  · cases more with
    | nil => rw [List.append_nil]
    | cons d more =>
      cases hrest
      exact absurd (by simp) hbs
  · cases more with
    | nil => rw [List.append_nil]
    | cons d more =>
      cases hrest
      exact absurd (by simp) hbs'

/-- What is left of a rule's line when its closing bracket is deleted: the rule as it was begun,
and blanks. -/
theorem LineOf.without_bracket {r : Rule} {front back : List Char}
    (h : LineOf (some r) (front ++ ']' :: back)) (hback : Indent back) :
    ∃ before cs, front = before ++ (opened r.lhs ++ cs) ∧ Indent before ∧ Inside r.rhs cs ∧
      '\n' ∉ cs := by
  have habsent : ∀ bs : List Char, Blanks bs → ']' ∉ bs := fun bs hblanks hmem =>
    absurd (hblanks ']' hmem) (by decide)
  generalize hl : front ++ ']' :: back = l at h
  obtain _ | ⟨hindent, ⟨hinside⟩, honeLine, hindent'⟩ := h
  rename_i before after cs
  simp only [List.mem_append, not_or] at honeLine
  refine ⟨before, cs, ?_, hindent, hinside, honeLine.1.2⟩
  refine eq_of_append_cons_eq (hl.trans ?_) (habsent _ hback.blanks) (habsent _ hindent'.blanks)
  simp

theorem Gap.indent {gap : List Char} (h : Gap gap) (honeLine : '\n' ∉ gap) : Indent gap := by
  cases h with
  | blanks hindent => exact hindent
  | lines hindent hidle => simp at honeLine

/-- On one line, what stands between the brackets is spelled elements, which leave the rule open,
and blanks behind them. -/
theorem Inside.body {ss : List Symbol} {cs : List Char} (h : Inside ss cs) (honeLine : '\n' ∉ cs)
    (honeLine' : ∀ s ∈ ss, '\n' ∉ s.toList) {p : List Char} {c : Char} (hp : Piece p c)
    (hgoesOn : c ≠ ']') :
    ∃ body bs d, cs = body ++ bs ∧ Spaced ss body ∧ Indent bs ∧ Piece (p ++ body) d ∧ d ≠ ']' := by
  induction h generalizing p c with
  | @nil gap hbetween =>
    exact ⟨[], gap, c, rfl, .nil (by simp), hbetween.indent honeLine, by simpa using hp, hgoesOn⟩
  | @last s before e after hgap hspelled hgap' =>
    simp only [List.mem_append, not_or] at honeLine
    obtain ⟨d, hnotClosing, hpiece⟩ := hspelled.piece (honeLine' s (by simp))
    have hindent := hgap.indent honeLine.1.1
    refine ⟨before ++ e, after, d, rfl, ?_, hgap'.indent honeLine.2, ?_, hnotClosing⟩
    · have hnothing : Spaced [] [] := .nil (by simp)
      simpa using Spaced.cons (separators_of_blanks hindent.blanks) hspelled (by simp) hnothing
    · simpa using hp.append hindent hpiece
  | @more s t ss before e cs hgap hspelled hrest ih =>
    simp only [List.mem_append, List.mem_cons, not_or] at honeLine
    obtain ⟨⟨hbefore, -⟩, -, hcs⟩ := honeLine
    obtain ⟨d, -, hpiece⟩ := hspelled.piece (honeLine' s (by simp))
    have hindent := hgap.indent hbefore
    have hcomma : Piece (e ++ [] ++ [',']) ',' :=
      hpiece.append ⟨by decide, by decide⟩ (.singleton (by decide) (by decide) (by decide))
    obtain ⟨body, bs, d, rfl, hspaced, hbs, hpiece', hnotClosing⟩ :=
      ih hcs (fun s hs => honeLine' s (List.mem_cons_of_mem _ hs)) (hp.append hindent hcomma)
        (by decide)
    refine ⟨before ++ e ++ ',' :: body, bs, d, by simp, ?_, hbs, by simpa using hpiece',
      hnotClosing⟩
    exact .cons (separators_of_blanks hindent.blanks) hspelled (by simp [isSeparator]) hspaced.comma

/-- A rule on one line is one piece, which ends with its closing bracket. -/
theorem Inside.piece {r : Rule} (hlistable : Listable r) {cs : List Char} (h : Inside r.rhs cs)
    (honeLine : '\n' ∉ cs) : Piece (opened r.lhs ++ cs ++ [']']) ']' := by
  obtain ⟨body, bs, d, rfl, -, hbs, hpiece, -⟩ :=
    h.body honeLine hlistable.rhs (piece_opened hlistable.lhs) (by decide)
  rw [← List.append_assoc]
  exact hpiece.append hbs (.singleton (by decide) (by decide) (by decide))

/-- What has been read of a rule that began on a line and lacks its closing bracket only. -/
structure LacksBracket (r : Rule) (line : Nat) (b : Begun) : Prop where
  line_eq : b.line = line
  arrow : b.arrow = true
  parts_ne_nil : b.parts ≠ []
  text : ∃ body, Spaced r.rhs body ∧ b.text = opened r.lhs ++ body

/-- A line whose rule lacks its bracket leaves that rule begun. -/
theorem readLines_lacksBracket {r : Rule} (hlistable : Listable r) {before cs back : List Char}
    (hindent : Indent before) (hinside : Inside r.rhs cs) (honeLine : '\n' ∉ cs)
    (hback : Indent back) (n : Nat) (lines : List (List Char)) :
    ∃ b, LacksBracket r n b ∧
      readLines n none ((before ++ (opened r.lhs ++ cs) ++ back) :: lines) =
        readLines (n + 1) (some b) lines := by
  obtain ⟨body, bs, d, rfl, hspaced, hbs, hpiece, hnotClosing⟩ :=
    hinside.body honeLine hlistable.rhs (piece_opened hlistable.lhs) (by decide)
  have hstands : (Place.mk n none (opened r.lhs ++ body)).Stands d :=
    ⟨hpiece, hasArrow_append_left (hasArrow_opened r.lhs) body⟩
  refine ⟨_, ⟨rfl, hstands.arrow, Begun.extend_parts_ne_nil _ _ _, body, hspaced, ?text⟩, ?read⟩
  case text => simp [Place.rule, Begun.extend, Begun.text]
  case read =>
    have hbehind : Indent (bs ++ back) :=
      ⟨hbs.blanks.append hback.blanks, by simp [hbs.oneLine, hback.oneLine]⟩
    rw [List.append_assoc, hindent.readLines_cons,
      ← hstands.readLines_goesOn hnotClosing hbehind lines]
    simp

/-! ## What stands below -/

/-- What a rule and the inside of the rule below it come to when the bracket between them is
missing. -/
def merged (r s : Rule) (inside : List Char) : Rule :=
  ⟨r.lhs, r.rhs ++ s.lhs :: "::=" :: symbols ('[' :: inside)⟩

/-- Behind the elements of a rule, the name and the arrow of the next one are read as elements. -/
theorem Spaced.symbols_opened {ss : List Symbol} {body : List Char} (h : Spaced ss body)
    {name : Symbol} (hname : LhsName name) (inside : List Char) :
    symbols (body ++ ' ' :: (opened name ++ inside)) =
      ss ++ name :: "::=" :: symbols ('[' :: inside) := by
  have hblank : isSeparator ' ' = true := by decide
  have hangled : Spelled name ('<' :: name.toList ++ ['>']) :=
    .angled fun hmem => (hname.plain '>' hmem).2.1 rfl
  have harrow : Spelled "::=" [':', ':', '='] :=
    .bare (by decide) (by simp; decide) (by rintro _ ⟨⟩; decide)
  have hbetween : Spaced [name, "::="]
      ([' '] ++ ('<' :: name.toList ++ ['>']) ++ ([' '] ++ [':', ':', '='] ++ [])) :=
    .cons (by simp [hblank]) hangled (by simp [hblank])
      (.cons (by simp [hblank]) harrow (by simp) (.nil (by simp)))
  have htext : ' ' :: (opened name ++ inside) =
      [' '] ++ ('<' :: name.toList ++ ['>']) ++ ([' '] ++ [':', ':', '='] ++ []) ++
        ([' '] ++ '[' :: inside) := by
    simp [opened]
  rw [h.symbols_append (by simp [hblank]), htext, hbetween.symbols_append (by simp [hblank]),
    symbols_append_of_separators (by simp [hblank])]
  rfl

namespace LacksBracket

variable {r : Rule} {line n : Nat} {b : Begun}

/-- The bracket of the rule below closes both. -/
theorem readLines_rule (h : LacksBracket r line b) (hlistable : Listable r) {s : Rule}
    (hlistable' : Listable s) {before inside after : List Char} (hindent : Indent before)
    (hinside : Inside s.rhs inside) (honeLine : '\n' ∉ inside) (hindent' : Indent after)
    {lines : List (List Char)} {rules : List Rule}
    (hrest : readLines (n + 1) none lines = .ok rules) :
    readLines n (some b) ((before ++ (opened s.lhs ++ inside ++ [']']) ++ after) :: lines) =
      .ok (merged r s inside :: rules) := by
  obtain ⟨body, hspaced, htext⟩ := h.text
  let p : Place := ⟨n, some b, opened s.lhs ++ inside ++ [']']⟩
  have hstands : p.Stands ']' :=
    ⟨hinside.piece hlistable' honeLine, by simp [p, Place.rule, Begun.extend, h.arrow]⟩
  have hjoined :
      p.rule.text = opened r.lhs ++ (body ++ ' ' :: (opened s.lhs ++ inside)) ++ [']'] := by
    simp [p, Place.rule, Begun.extend_some_text h.parts_ne_nil, htext]
  have hr : readRule p.rule.line p.rule.text = .ok (merged r s inside) := by
    rw [hjoined, readRule_between hlistable.lhs, hspaced.symbols_opened hlistable'.lhs, merged]
  rw [List.append_assoc, hindent.readLines_cons]
  exact hstands.readLines_closes hr hindent' hrest

/-- What stands below decides: without a rule there the missing bracket is noticed, and the first
rule there is merged with the one above. -/
theorem readLines_below (h : LacksBracket r line b) (hlistable : Listable r)
    {below : List (Option Rule)} {ls : List (List Char)} (hbelow : List.Forall₂ LineOf below ls)
    (hlistable' : ∀ s ∈ below.reduceOption, Listable s) (n : Nat) :
    (below.reduceOption = [] → readLines n (some b) ls = .error (.unclosedRule line)) ∧
    (∀ s rules, below.reduceOption = s :: rules →
      ∃ before inside after, before ++ (opened s.lhs ++ inside ++ [']']) ++ after ∈ ls ∧
        Indent before ∧ Inside s.rhs inside ∧ Indent after ∧
        readLines n (some b) ls = .ok (merged r s inside :: rules)) := by
  induction hbelow generalizing n with
  | nil => exact ⟨fun _ => by rw [readLines, h.line_eq], by simp⟩
  | @cons hold l below ls hline hbelow ih =>
    cases hline with
    | idle hidle =>
      rw [List.reduceOption_cons_of_none] at hlistable' ⊢
      rw [hidle.readLines_eq]
      obtain ⟨hnothing, hnext⟩ := ih hlistable' (n + 1)
      refine ⟨hnothing, fun s rules hs => ?_⟩
      obtain ⟨before, inside, after, hmem, hinside⟩ := hnext s rules hs
      exact ⟨before, inside, after, List.mem_cons_of_mem _ hmem, hinside⟩
    | @rule s before w after hindent hwritten honeLine hindent' =>
      rw [List.reduceOption_cons_of_some] at hlistable' ⊢
      refine ⟨by simp, ?_⟩
      rintro s rules ⟨⟩
      obtain ⟨hinside⟩ := hwritten
      rename_i cs
      simp only [List.mem_append, not_or] at honeLine
      have hrest := readLines_lines hbelow
        (fun s hs => hlistable' s (List.mem_cons_of_mem _ hs)) (n + 1)
      exact ⟨before, cs, after, List.mem_cons_self, hindent, hinside, hindent',
        h.readLines_rule hlistable (hlistable' s List.mem_cons_self) hindent hinside honeLine.1.2
          hindent' hrest⟩

end LacksBracket

/-! ## The whole listing -/

/-- A listing of rules on lines of their own, in which one rule loses its closing bracket.  With the
bracket the listing is read as its rules.  Without it, reading fails with the number of that line
when no rule stands below; when one does, nothing is reported: that rule is merged into the one
above, and is missing. -/
theorem read_unclosed {above below : List (Option Rule)} {r : Rule} {ls ls' : List (List Char)}
    {front back : List Char} (habove : List.Forall₂ LineOf above ls)
    (hline : LineOf (some r) (front ++ ']' :: back)) (hback : Indent back)
    (hbelow : List.Forall₂ LineOf below ls')
    (hlistable : ∀ s ∈ above.reduceOption ++ r :: below.reduceOption, Listable s) :
    read (unlines (ls ++ (front ++ ']' :: back) :: ls')) =
      .ok (above.reduceOption ++ r :: below.reduceOption).eraseDups ∧
    (below.reduceOption = [] →
      ∃ e, read (unlines (ls ++ (front ++ back) :: ls')) = .error e ∧
        e = .unclosedRule (ls.length + 1) ∧ e.kind = .parse ∧
        e.message = "Parse error: line " ++ toString (ls.length + 1) ++
          ": rule is missing its closing `]`") ∧
    (∀ s rules, below.reduceOption = s :: rules →
      ∃ before inside after, before ++ (opened s.lhs ++ inside ++ [']']) ++ after ∈ ls' ∧
        Indent before ∧ Inside s.rhs inside ∧ Indent after ∧
        read (unlines (ls ++ (front ++ back) :: ls')) =
          .ok (above.reduceOption ++ merged r s inside :: rules).eraseDups) := by
  have hlistableAbove : ∀ s ∈ above.reduceOption, Listable s :=
    fun s hs => hlistable s (List.mem_append_left _ hs)
  have hlistableBelow : ∀ s ∈ below.reduceOption, Listable s :=
    fun s hs => hlistable s (List.mem_append_right _ (List.mem_cons_of_mem r hs))
  have hwhole : read (unlines (ls ++ (front ++ ']' :: back) :: ls')) =
      .ok (above.reduceOption ++ r :: below.reduceOption).eraseDups := by
    have holds : (above ++ some r :: below).reduceOption =
        above.reduceOption ++ r :: below.reduceOption := by
      rw [List.reduceOption_append, List.reduceOption_cons_of_some]
    have hlines := List.rel_append habove (.cons hline hbelow)
    rw [← Rule.firstPlaces_eq_eraseDups, ← holds, read_eq_ok_iff,
      splitOn_unlines (by simp) (LineOf.forall_oneLine hlines)]
    exact ⟨_, readLines_lines hlines (holds ▸ hlistable) 1, rfl⟩
  have hlines : (unlines (ls ++ (front ++ back) :: ls')).toList.splitOn '\n' =
      ls ++ (front ++ back) :: ls' := by
    have hfirst := LineOf.forall_oneLine habove
    have hlast := LineOf.forall_oneLine hbelow
    have hshorter : '\n' ∉ front ++ back := by simpa using hline.oneLine
    exact splitOn_unlines (by simp) (List.forall_mem_append.2 ⟨hfirst,
      List.forall_mem_cons.2 ⟨hshorter, hlast⟩⟩)
  -- the rule is left begun by its line, and what stands below decides
  obtain ⟨before, cs, rfl, hindent, hinside, hsingle⟩ := hline.without_bracket hback
  obtain ⟨b, hlacks, hb⟩ := readLines_lacksBracket (hlistable r (by simp)) hindent hinside hsingle
    hback (1 + ls.length) ls'
  have hreading : readLines 1 none (ls ++ (before ++ (opened r.lhs ++ cs) ++ back) :: ls') =
      (readLines (1 + ls.length + 1) (some b) ls').map (above.reduceOption ++ ·) := by
    rw [readLines_append_of_ok (readLines_lines habove hlistableAbove 1), hb]
  obtain ⟨hnothing, hnext⟩ := hlacks.readLines_below (hlistable r (by simp)) hbelow hlistableBelow
    (1 + ls.length + 1)
  refine ⟨hwhole, fun hnone => ?noticed, fun s rules hs => ?missed⟩
  case noticed =>
    refine ⟨.unclosedRule (1 + ls.length), ?_, by rw [Nat.add_comm], rfl, ?_⟩
    · rw [read_eq_error_iff, hlines, hreading, hnothing hnone]
      rfl
    · rw [Nat.add_comm 1]
      exact LineFault.unclosedRule.message_onLine _
  case missed =>
    obtain ⟨before', cs', after, hmem, hbefore, hinside, hafter, hread⟩ := hnext s rules hs
    refine ⟨before', cs', after, hmem, hbefore, hinside, hafter, ?_⟩
    rw [← Rule.firstPlaces_eq_eraseDups, read_eq_ok_iff, hlines, hreading, hread]
    exact ⟨_, rfl, rfl⟩

/-- Two rules, where the second lacks its bracket, and where the first does. -/
theorem read_unclosed_pair :
    read "<a> ::= [<x>]\n<b> ::= [\"y\"\r" = .error (.unclosedRule 2) ∧
    ∃ rules, read "<a> ::= [<x>\n<b> ::= [\"y\"]\r" = .ok rules ∧ ⟨"b", ["y"]⟩ ∉ rules := by
  have hflush : Indent [] := ⟨by decide, by decide⟩
  have hfeed : Indent ['\r'] := ⟨by decide, by decide⟩
  have hx : Spelled "x" ['<', 'x', '>'] := .angled (by decide)
  have hy : Spelled "y" ['"', 'y', '"'] := .quoted (.inl rfl) (by decide)
  have hupper : Written ⟨"a", ["x"]⟩ _ := .mk (.last (.blanks hflush) hx (.blanks hflush))
  have hlower : Written ⟨"b", ["y"]⟩ _ := .mk (.last (.blanks hflush) hy (.blanks hflush))
  have hfirst : LineOf (some ⟨"a", ["x"]⟩) ((opened "a" ++ ['<', 'x', '>']) ++ ']' :: []) := by
    simpa using LineOf.rule hflush hupper (by decide) hflush
  have hsecond : LineOf (some ⟨"b", ["y"]⟩)
      ((opened "b" ++ ['"', 'y', '"']) ++ ']' :: ['\r']) := by
    simpa using LineOf.rule hflush hlower (by decide) hfeed
  have hlhs : LhsName "a" ∧ LhsName "b" := by decide
  have hrhs : '\n' ∉ "x".toList ∧ '\n' ∉ "y".toList := by decide
  have hlistable : ∀ r ∈ [⟨"a", ["x"]⟩, ⟨"b", ["y"]⟩], Listable r := by
    simp only [List.forall_mem_cons]
    exact ⟨⟨hlhs.1, by simp⟩, ⟨hlhs.2, by simp⟩, by simp⟩
  constructor
  · obtain ⟨-, hnoticed, -⟩ := read_unclosed (.cons hfirst .nil) hsecond hfeed .nil hlistable
    obtain ⟨e, hread, rfl, -⟩ := hnoticed rfl
    exact hread
  · obtain ⟨-, -, hmissed⟩ := read_unclosed .nil hfirst hflush (.cons hsecond .nil) hlistable
    obtain ⟨before, inside, after, -, -, -, -, hread⟩ := hmissed _ _ rfl
    exact ⟨_, hread, by simp [merged]⟩

/-- Both rules are well formed on lines of their own, and the first loses its bracket: reading
succeeds, with a rule that nobody wrote. -/
theorem read_unclosed_missed :
    read "<a> ::= [\"x\"]\n<b> ::= [\"y\"]" = .ok [⟨"a", ["x"]⟩, ⟨"b", ["y"]⟩] ∧
    read "<a> ::= [\"x\"\n<b> ::= [\"y\"]" = .ok [⟨"a", ["x", "b", "::=", "[\"y\""]⟩] :=
  ⟨by cbv, by cbv⟩

end Listing

end EditableGrammar
