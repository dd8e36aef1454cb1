import Mathlib.Data.List.Infix
import EditableGrammar.Format.Report
import EditableGrammar.Proofs.Text.Reference
import EditableGrammar.Proofs.Text.Search
import EditableGrammar.Proofs.Text.Trim

set_option autoImplicit false

/-!
# Writing the rules of a report

In a report each rule stands in an element of its own (`RuleElement`), its names written with
character references or without, and with blanks wherever they do not matter.  What stands between
these elements may be anything that holds no such element (`Filler`), so the rules are read back
from any report that holds them (`read_reported`).
-/

namespace EditableGrammar

namespace Report

/-! ## What is written -/

/-- A name with blanks around it.  It is written without tags, and so that it begins and ends with
no blank: those at its ends are written as references. -/
inductive Named (s : Symbol) : List Char → Prop
  | mk {before w after : List Char} (hblanks : Blanks before) (hwritten : WrittenText s.toList w)
      (hnoTag : '<' ∉ w) (hends : w ≠ [] → Solid w) (hblanks' : Blanks after) :
      Named s (before ++ w ++ after)

/-- A symbol element for each symbol in order. -/
inductive SymbolElements : List Symbol → List Char → Prop
  | nil {bs : List Char} (hblanks : Blanks bs) : SymbolElements [] bs
  | cons {s : Symbol} {ss : List Symbol} {bs name cs : List Char} (hblanks : Blanks bs)
      (hnamed : Named s name) (hrest : SymbolElements ss cs) :
      SymbolElements (s :: ss) (bs ++ opening symbolName ++ name ++ closing symbolName ++ cs)

/-- The element that may stand for a right-hand side without symbols. -/
def emptyElement : List Char := ['<', 'e', 'm', 'p', 't', 'y', '/', '>']

/-- What the element of a right-hand side holds. -/
inductive RhsContent : List Symbol → List Char → Prop
  | symbols {ss : List Symbol} {cs : List Char} (helements : SymbolElements ss cs) :
      RhsContent ss cs
  | empty {before after : List Char} (hblanks : Blanks before) (hblanks' : Blanks after) :
      RhsContent [] (before ++ emptyElement ++ after)

/-- What a rule element holds. -/
inductive RuleContent (r : Rule) : List Char → Prop
  | mk {b₁ b₂ b₃ lhs rhs : List Char} (hblanks₁ : Blanks b₁) (hblanks₂ : Blanks b₂)
      (hblanks₃ : Blanks b₃) (hnamed : Named r.lhs lhs) (hcontent : RhsContent r.rhs rhs) :
      RuleContent r (b₁ ++ opening lhsName ++ lhs ++ closing lhsName ++
        (b₂ ++ opening rhsName ++ rhs ++ closing rhsName ++ b₃))

/-- A rule element behind the name of its opening tag. -/
inductive RuleElement (r : Rule) : List Char → Prop
  | mk {attributes body : List Char} (hbegins : ∀ c ∈ attributes.head?, isBlank c = true)
      (hnoEnd : '>' ∉ attributes) (hcontent : RuleContent r body) :
      RuleElement r (attributes ++ ['>'] ++ body ++ closing ruleName)

/-- A text that names no rule element: behind the name of one, the name goes on to that of the
element around the rules. -/
def Filler (cs : List Char) : Prop :=
  ∀ before after, cs = before ++ '<' :: ruleName ++ after → after.head? = some 's'

theorem filler_iff (cs : List Char) :
    Filler cs ↔
      ∀ t ∈ cs.tails, ∀ after ∈ afterMarker ('<' :: ruleName) t, after.head? = some 's' := by
  simp only [Filler, List.mem_tails, List.IsSuffix, Option.mem_def, afterMarker_eq_some_iff]
  constructor
  · rintro h _ ⟨before, rfl⟩ after rfl
    exact h before after (List.append_assoc _ _ _).symm
  · rintro h before after rfl
    exact h _ ⟨before, (List.append_assoc _ _ _).symm⟩ after rfl

instance (cs : List Char) : Decidable (Filler cs) := decidable_of_iff' _ (filler_iff cs)

/-- A report of some rules in order. -/
inductive Reported : List Rule → List Char → Prop
  | nil {cs : List Char} (hfiller : Filler cs) : Reported [] cs
  | cons {r : Rule} {rules : List Rule} {before e cs : List Char} (hfiller : Filler before)
      (helement : RuleElement r e) (hrest : Reported rules cs) :
      Reported (r :: rules) (before ++ '<' :: ruleName ++ (e ++ cs))

/-! ## Names -/

theorem not_mem_of_blanks {c : Char} {bs : List Char} (h : Blanks bs) (hc : isBlank c = false) :
    c ∉ bs := fun hmem => by rw [h c hmem] at hc; cases hc

theorem Named.noTag {s : Symbol} {cs : List Char} (h : Named s cs) : '<' ∉ cs := by
  cases h with
  | mk hblanks hwritten hnoTag hends hblanks' =>
    simp [hnoTag, not_mem_of_blanks hblanks (c := '<') (by decide),
      not_mem_of_blanks hblanks' (c := '<') (by decide)]

theorem Named.name_eq {s : Symbol} {cs : List Char} (h : Named s cs) : name cs = s := by
  cases h with
  | @mk before w after hblanks hwritten hnoTag hends hblanks' =>
    have htrimmed : trim (before ++ w ++ after) = w := by
      by_cases hnone : w = []
      · subst hnone
        rw [List.append_nil]
        exact (hblanks.append hblanks').trim_eq
      · exact (hends hnone).trim_eq hblanks hblanks'
    rw [name, htrimmed, hwritten.unescape_eq, String.ofList_toList]

/-- Any character can be written by its number, and then it looks like no blank and no tag. -/
theorem exists_writtenChar (c : Char) : ∃ w, WrittenChar c w ∧ '<' ∉ w ∧ Solid w := by
  refine ⟨_, .decimal (numeral_toDigits c.toNat), ?_, ⟨'&', rfl, by decide⟩,
    ⟨';', List.getLast?_concat, by decide⟩⟩
  have hnoDigit : '<' ∉ Nat.toDigits 10 c.toNat := fun h =>
    absurd (Nat.isDigit_of_mem_toDigits (by decide) (by decide) h) (by decide)
  simp [hnoDigit]

theorem exists_named (s : Symbol) : ∃ cs, Named s cs := by
  have hwritten : ∃ w, WrittenText s.toList w ∧ '<' ∉ w ∧ (w ≠ [] → Solid w) := by
    induction s.toList with
    | nil => exact ⟨[], .nil, by simp, absurd rfl⟩
    | cons c cs ih =>
      obtain ⟨w, hfirst, hnoTag, hsolid⟩ := exists_writtenChar c
      obtain ⟨ws, hrest, hnoTag', hsolid'⟩ := ih
      refine ⟨w ++ ws, .cons hfirst hrest, by simp [hnoTag, hnoTag'], fun _ => ?_⟩
      by_cases hnone : ws = []
      · simpa [hnone] using hsolid
      · simpa using hsolid.append [] (hsolid' hnone)
  obtain ⟨w, hwritten, hnoTag, hends⟩ := hwritten
  have hflush : Blanks [] := by decide
  exact ⟨_, .mk hflush hwritten hnoTag hends hflush⟩

/-! ## Elements -/

theorem passed_blanks {marker bs : List Char} (h : Blanks bs) : Passed ('<' :: marker) bs :=
  .of_not_mem (not_mem_of_blanks h (by decide))

theorem passed_named {marker cs : List Char} {s : Symbol} (h : Named s cs) :
    Passed ('<' :: marker) cs := .of_not_mem h.noTag

/-- A search goes past an element when it goes past its tags and what it holds. -/
theorem passed_element {marker tag bs body : List Char} (hblanks : Blanks bs)
    (hnotOpening : Passed ('<' :: marker) (opening tag)) (hinside : Passed ('<' :: marker) body)
    (hnotClosing : Passed ('<' :: marker) (closing tag)) :
    Passed ('<' :: marker) (bs ++ opening tag ++ body ++ closing tag) :=
  (((passed_blanks hblanks).append hnotOpening).append hinside).append hnotClosing

/-- An element is found behind a text without its opening tag, and ends at its closing tag. -/
theorem element?_append {tag before body : List Char} (h : Passed (opening tag) before)
    (h' : Passed (closing tag) body) (rest : List Char) :
    element? tag (before ++ opening tag ++ body ++ closing tag ++ rest) = some (body, rest) := by
  have hfirst := h.splitAtFirst_append (body ++ closing tag ++ rest)
  have hsecond := h'.splitAtFirst_append rest
  simp only [List.append_assoc] at hfirst hsecond ⊢
  rw [element?, between, hfirst]
  exact hsecond

theorem symbolBodies_cons {text body rest : List Char}
    (h : element? symbolName text = some (body, rest)) :
    symbolBodies text = body :: symbolBodies rest := by
  rw [symbolBodies]
  split
  next h' => rw [h] at h'; cases h'
  next h' =>
    rw [h] at h'
    cases h'
    rfl

theorem symbolBodies_nil {text : List Char} (h : Passed (opening symbolName) text) :
    symbolBodies text = [] := by
  have hnone : element? symbolName text = none := by
    rw [element?, between, h.splitAtFirst_eq_none (by decide)]
  rw [symbolBodies]
  split
  next => rfl
  next h' => rw [hnone] at h'; cases h'

theorem SymbolElements.names_eq {ss : List Symbol} {cs : List Char} (h : SymbolElements ss cs) :
    (symbolBodies cs).map name = ss := by
  induction h with
  | nil hblanks => rw [symbolBodies_nil (passed_blanks hblanks), List.map_nil]
  | cons hblanks hnamed hrest ih =>
    rw [symbolBodies_cons (element?_append (passed_blanks hblanks) (passed_named hnamed) _),
      List.map_cons, hnamed.name_eq, ih]

theorem SymbolElements.passed {ss : List Symbol} {cs marker : List Char} (h : SymbolElements ss cs)
    (hnotOpening : Passed ('<' :: marker) (opening symbolName))
    (hnotClosing : Passed ('<' :: marker) (closing symbolName)) : Passed ('<' :: marker) cs := by
  induction h with
  | nil hblanks => exact passed_blanks hblanks
  | cons hblanks hnamed hrest ih =>
    exact (passed_element hblanks hnotOpening (passed_named hnamed) hnotClosing).append ih

theorem RhsContent.names_eq {ss : List Symbol} {cs : List Char} (h : RhsContent ss cs) :
    (symbolBodies cs).map name = ss := by
  cases h with
  | symbols helements => exact helements.names_eq
  | empty hblanks hblanks' =>
    have helement : Passed (opening symbolName) emptyElement := .of_differs (by decide)
    rw [symbolBodies_nil
        (((passed_blanks hblanks).append helement).append (passed_blanks hblanks')),
      List.map_nil]

/-- A right-hand side is gone past in search of the tag that closes it or its rule. -/
theorem RhsContent.passed {ss : List Symbol} {cs marker : List Char} (h : RhsContent ss cs)
    (hnotOpening : Passed ('<' :: marker) (opening symbolName))
    (hnotClosing : Passed ('<' :: marker) (closing symbolName))
    (hnotEmpty : Passed ('<' :: marker) emptyElement) : Passed ('<' :: marker) cs := by
  cases h with
  | symbols helements => exact helements.passed hnotOpening hnotClosing
  | empty hblanks hblanks' =>
    exact ((passed_blanks hblanks).append hnotEmpty).append (passed_blanks hblanks')

/-- What a rule element holds is read as that rule. -/
theorem RuleContent.readRule_eq {r : Rule} {cs : List Char} (h : RuleContent r cs) :
    readRule cs = .ok r := by
  cases h with
  | @mk b₁ b₂ b₃ lhs rhs hblanks₁ hblanks₂ hblanks₃ hnamed hcontent =>
    have hleft := @element?_append lhsName b₁ lhs (passed_blanks hblanks₁) (passed_named hnamed)
      (b₂ ++ opening rhsName ++ rhs ++ closing rhsName ++ b₃)
    have hbefore :
        Passed (opening rhsName) (b₁ ++ opening lhsName ++ lhs ++ closing lhsName ++ b₂) :=
      (passed_element hblanks₁ (.of_differs (by decide)) (passed_named hnamed)
        (.of_differs (by decide))).append (passed_blanks hblanks₂)
    have hinside : Passed (closing rhsName) rhs :=
      hcontent.passed (.of_differs (by decide)) (.of_differs (by decide)) (.of_differs (by decide))
    have hright := element?_append hbefore hinside b₃
    rw [readRule, hleft]
    simp only [List.append_assoc] at hright ⊢
    simp only [hright, hnamed.name_eq, hcontent.names_eq]

/-- What a rule element holds does not close it. -/
theorem RuleContent.passed {r : Rule} {cs : List Char} (h : RuleContent r cs) :
    Passed (closing ruleName) cs := by
  cases h with
  | @mk b₁ b₂ b₃ lhs rhs hblanks₁ hblanks₂ hblanks₃ hnamed hcontent =>
    have hinside : Passed (closing ruleName) rhs :=
      hcontent.passed (.of_differs (by decide)) (.of_differs (by decide)) (.of_differs (by decide))
    have hleft : Passed (closing ruleName) (b₁ ++ opening lhsName ++ lhs ++ closing lhsName) :=
      passed_element hblanks₁ (.of_differs (by decide)) (passed_named hnamed)
        (.of_differs (by decide))
    have hright :
        Passed (closing ruleName) (b₂ ++ opening rhsName ++ rhs ++ closing rhsName ++ b₃) :=
      (passed_element hblanks₂ (.of_differs (by decide)) hinside
        (.of_differs (by decide))).append (passed_blanks hblanks₃)
    exact hleft.append hright

/-! ## Rule elements in a report -/

theorem ruleBodies_none {text : List Char} (h : splitAtFirst ('<' :: ruleName) text = none) :
    ruleBodies text = [] := by
  rw [ruleBodies]
  split
  next => rfl
  next h' => rw [h] at h'; cases h'

/-- The name of another element begins as that of a rule element does. -/
theorem ruleBodies_other {text before after : List Char}
    (h : splitAtFirst ('<' :: ruleName) text = some (before, after))
    (hnotEnd : endsName after = false) : ruleBodies text = ruleBodies after := by
  rw [ruleBodies]
  split
  next h' => rw [h] at h'; cases h'
  next h' =>
    rw [h] at h'
    cases h'
    rw [if_neg (by simp [hnotEnd])]

theorem ruleBodies_found {text before after body rest : List Char}
    (h : splitAtFirst ('<' :: ruleName) text = some (before, after))
    (hends : endsName after = true)
    (hfound : between ['>'] (closing ruleName) after = some (body, rest)) :
    ruleBodies text = body :: ruleBodies rest := by
  rw [ruleBodies]
  split
  next h' => rw [h] at h'; cases h'
  next h' =>
    rw [h] at h'
    cases h'
    rw [if_pos hends]
    split
    next h'' => rw [hfound] at h''; cases h''
    next h'' =>
      rw [hfound] at h''
      cases h''
      rfl

theorem Filler.of_append {before cs : List Char} (h : Filler (before ++ cs)) : Filler cs :=
  fun b a he => h (before ++ b) a (by rw [he]; simp)

/-- A filler either holds no beginning of a rule element's name, or such a name goes on to another
one and what follows is a filler again. -/
theorem Filler.induction {P : List Char → Prop}
    (hnone : ∀ cs, splitAtFirst ('<' :: ruleName) cs = none → P cs)
    (hother : ∀ cs before after, splitAtFirst ('<' :: ruleName) cs = some (before, 's' :: after) →
      P ('s' :: after) → P cs) (cs : List Char) (h : Filler cs) : P cs := by
  induction hn : cs.length using Nat.strongRecOn generalizing cs with
  | ind n ih =>
    cases hs : splitAtFirst ('<' :: ruleName) cs with
    | none => exact hnone cs hs
    | some parts =>
      obtain ⟨before, after⟩ := parts
      have hwhole := eq_of_splitAtFirst hs
      obtain ⟨rest, rfl⟩ := List.head?_eq_some_iff.1 (h before after hwhole)
      have hshorter := length_of_splitAtFirst hs
      simp only [List.length_cons] at hshorter
      refine hother cs before rest hs (ih _ ?_ _ (Filler.of_append (hwhole ▸ h)) rfl)
      simp only [List.length_cons]
      omega

theorem endsName_s (cs : List Char) : endsName ('s' :: cs) = false := rfl

/-- A filler holds no rule elements. -/
theorem Filler.ruleBodies_eq {cs : List Char} (h : Filler cs) : ruleBodies cs = [] := by
  refine Filler.induction (fun cs => ruleBodies_none) (fun cs before after hs ih => ?_) cs h
  rw [ruleBodies_other hs (endsName_s after), ih]

/-- The first rule element behind a filler is found. -/
theorem Filler.ruleBodies_append {cs e body rest : List Char} (h : Filler cs)
    (hends : endsName e = true) (hfound : between ['>'] (closing ruleName) e = some (body, rest)) :
    ruleBodies (cs ++ '<' :: ruleName ++ e) = body :: ruleBodies rest := by
  refine Filler.induction (P := fun cs => ruleBodies (cs ++ '<' :: ruleName ++ e) =
    body :: ruleBodies rest) (fun cs hs => ?_) (fun cs before after hs ih => ?_) cs h
  · exact ruleBodies_found (splitAtFirst_append_of_none (by decide) hs e) hends hfound
  · have hs' := splitAtFirst_append_of_some hs ('<' :: ruleName ++ e)
    rw [List.append_assoc, ruleBodies_other hs' (endsName_s _), ← List.append_assoc]
    exact ih

theorem RuleElement.endsName_append {r : Rule} {e : List Char} (h : RuleElement r e)
    (rest : List Char) : endsName (e ++ rest) = true := by
  cases h with
  | @mk attributes body hbegins hnoEnd hcontent =>
    cases attributes with
    | nil => rfl
    | cons c attributes =>
      have : isWordChar c = false := isWordChar_of_isBlank (hbegins c rfl)
      simp [endsName, this]

theorem RuleElement.between_append {r : Rule} {e : List Char} (h : RuleElement r e)
    (rest : List Char) :
    ∃ body, RuleContent r body ∧
      between ['>'] (closing ruleName) (e ++ rest) = some (body, rest) := by
  cases h with
  | @mk attributes body hbegins hnoEnd hcontent =>
    have hpassed : Passed ['>'] attributes := .of_not_mem hnoEnd
    have hfirst := hpassed.splitAtFirst_append (body ++ closing ruleName ++ rest)
    have hsecond := hcontent.passed.splitAtFirst_append rest
    refine ⟨body, hcontent, ?_⟩
    simp only [List.append_assoc] at hfirst hsecond ⊢
    rw [between, hfirst]
    exact hsecond

/-- The rule elements of a report are read as its rules. -/
theorem Reported.readRules_eq {rules : List Rule} {cs : List Char} (h : Reported rules cs) :
    readRules (ruleBodies cs) = .ok rules := by
  induction h with
  | nil hfiller => rw [hfiller.ruleBodies_eq]; rfl
  | @cons r rules before e cs hfiller helement hrest ih =>
    obtain ⟨body, hcontent, hfound⟩ := helement.between_append cs
    rw [hfiller.ruleBodies_append (helement.endsName_append cs) hfound]
    simp only [readRules, hcontent.readRule_eq, ih]

theorem exists_symbolElements (ss : List Symbol) : ∃ cs, SymbolElements ss cs := by
  induction ss with
  | nil => exact ⟨[], .nil (by decide)⟩
  | cons s ss ih =>
    obtain ⟨name, hnamed⟩ := exists_named s
    obtain ⟨cs, hrest⟩ := ih
    have hflush : Blanks [] := by decide
    exact ⟨_, .cons hflush hnamed hrest⟩

/-- There is a report of any rules, whatever their symbols are. -/
theorem exists_reported (rules : List Rule) : ∃ cs, Reported rules cs := by
  have hnone : Filler [] := by decide
  induction rules with
  | nil => exact ⟨[], .nil hnone⟩
  | cons r rules ih =>
    obtain ⟨lhs, hnamed⟩ := exists_named r.lhs
    obtain ⟨rhs, helements⟩ := exists_symbolElements r.rhs
    obtain ⟨cs, hrest⟩ := ih
    have hflush : Blanks [] := by decide
    have hnoEnd : '>' ∉ [] := by decide
    exact ⟨_, .cons hnone (.mk (by simp) hnoEnd
      (.mk hflush hflush hflush hnamed (.symbols helements))) hrest⟩

/-- The rules of a report are read back, whatever stands between them and however their names are
written: in order, without those that repeat an earlier one. -/
theorem read_reported {rules : List Rule} {text : String} (h : Reported rules text.toList) :
    (read text).value = .ok rules.eraseDups := by
  simp only [read, h.readRules_eq, Logged.note, Rule.firstPlaces_eq_eraseDups]

set_option maxRecDepth 1000 in
/-- The element around the rules, a tag within an attribute, and a name that begins with a blank and
looks like a reference once it is read. -/
theorem read_reported_nested :
    (read
    "<rules><rule n=\"<rule\"><lhs>&#x0041;</lhs> <rhs><symbol>&#32;&amp;lt;</symbol></rhs></rule>"
    ).value = .ok [⟨"A", [" &lt;"]⟩] := by
  have hnone : Blanks [] := by decide
  have hone : Blanks [' '] := by decide
  have hnumber : WrittenText ['A'] (['&', '#', 'x', '0', '0', '4', '1', ';'] ++ []) :=
    .cons (@WrittenChar.hexadecimal 'A' 'x' ['0', '0', '4', '1'] (.inl rfl) ⟨2, by decide⟩) .nil
  have hlhs : Named "A" _ := .mk hnone hnumber (by decide)
    (fun _ => ⟨⟨'&', rfl, by decide⟩, ⟨';', rfl, by decide⟩⟩) hnone
  have hblank : WrittenChar ' ' ['&', '#', '3', '2', ';'] :=
    @WrittenChar.decimal ' ' ['3', '2'] ⟨0, by decide⟩
  have hampersand : WrittenChar '&' ['&', 'a', 'm', 'p', ';'] := .named (by decide)
  have hescaped : WrittenText [' ', '&', 'l', 't', ';'] _ :=
    .cons hblank (.cons hampersand (.cons (.literal (by decide)) (.cons (.literal (by decide))
      (.cons (.literal (by decide)) .nil))))
  have hsymbol : Named " &lt;" _ := .mk hnone hescaped (by decide)
    (fun _ => ⟨⟨'&', rfl, by decide⟩, ⟨';', rfl, by decide⟩⟩) hnone
  have htagInside : '>' ∉ [' ', 'n', '=', '"', '<', 'r', 'u', 'l', 'e', '"'] := by decide
  have helement : RuleElement ⟨"A", [" &lt;"]⟩ _ := .mk (by rintro _ ⟨⟩; decide) htagInside
    (.mk hnone hone hnone hlhs (.symbols (.cons hnone hsymbol (.nil hnone))))
  have haround : Filler ['<', 'r', 'u', 'l', 'e', 's', '>'] := by decide
  have hnothing : Filler [] := by decide
  have hreported := Reported.cons haround helement (.nil hnothing)
  rw [← @String.toList_ofList (_ ++ _)] at hreported
  exact read_reported hreported

end Report

end EditableGrammar
