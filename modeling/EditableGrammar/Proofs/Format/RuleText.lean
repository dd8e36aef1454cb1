import EditableGrammar.Rule

set_option autoImplicit false

/-!
# The text of a rule is read one way

Names are shown between quotes and nothing in them is escaped, so a name may well look like what
stands between two names.  As long as no name has a quote in it there is no doubt all the same: the
next quote after an opening one is the closing one (`toList_quoted_append_inj`).  So a rule is known
from its text, and rules with no line feed in a name are known from their texts on lines of their
own.
-/

namespace EditableGrammar

namespace Rule

/-- No name in the rule has a quote in it. -/
def Quotable (r : Rule) : Prop := ∀ s ∈ r.symbols, '\'' ∉ s.toList

/-- No name in the rule has a line feed in it. -/
def OneLine (r : Rule) : Prop := ∀ s ∈ r.symbols, '\n' ∉ s.toList

instance (r : Rule) : Decidable r.Quotable := List.decidableBAll ..

instance (r : Rule) : Decidable r.OneLine := List.decidableBAll ..

/-! ## One rule -/

/-- The first place of a character in a text is one place. -/
theorem append_cons_inj {c : Char} {as as' bs bs' : List Char} (has : c ∉ as) (has' : c ∉ as') :
    as ++ c :: bs = as' ++ c :: bs' ↔ as = as' ∧ bs = bs' := by
  constructor
  · intro h
    rcases List.append_eq_append_iff.1 h with ⟨more, rfl, hrest⟩ | ⟨more, rfl, hrest⟩
    · cases more with
      | nil => simpa using hrest
      | cons d more =>
        cases hrest
        simp at has'
    · cases more with
      | nil => simpa using hrest.symm
      | cons d more =>
        cases hrest
        simp at has
  · rintro ⟨rfl, rfl⟩
    rfl

/-- A quoted name at the front of a text is known from the text, and so is what follows it. -/
theorem toList_quoted_append_inj {a b : Symbol} {cs ds : List Char} (ha : '\'' ∉ a.toList)
    (hb : '\'' ∉ b.toList) :
    (quoted a).toList ++ cs = (quoted b).toList ++ ds ↔ a = b ∧ cs = ds := by
  have htext : ∀ (s : Symbol) (cs : List Char),
      (quoted s).toList ++ cs = '\'' :: (s.toList ++ '\'' :: cs) := by
    intro s cs
    simp [quoted]
  rw [htext, htext, List.cons_inj_right, append_cons_inj ha hb, String.toList_inj]

/-- The names of a right-hand side, one after the other, each behind a blank. -/
theorem shown_inj {rhs rhs' : List Symbol} (h : ∀ s ∈ rhs, '\'' ∉ s.toList)
    (h' : ∀ s ∈ rhs', '\'' ∉ s.toList) :
    (rhs.flatMap fun s => ' ' :: (quoted s).toList) =
      (rhs'.flatMap fun s => ' ' :: (quoted s).toList) ↔ rhs = rhs' := by
  induction rhs generalizing rhs' with
  | nil => cases rhs' <;> simp
  | cons s rhs ih =>
    cases rhs' with
    | nil => simp
    | cons s' rhs' =>
      rw [List.forall_mem_cons] at h h'
      rw [List.flatMap_cons, List.flatMap_cons, List.cons_append, List.cons_append,
        List.cons_inj_right, toList_quoted_append_inj h.1 h'.1, ih h.2 h'.2, List.cons.injEq]

theorem toList_text_eq (r : Rule) :
    r.text.toList =
      (quoted r.lhs).toList ++
        (" =>".toList ++ r.rhs.flatMap fun s => ' ' :: (quoted s).toList) := by
  simp [toList_text, quoted]

/-- A rule with no quote in its names is known from its text. -/
theorem text_inj {r r' : Rule} (h : r.Quotable) (h' : r'.Quotable) : r.text = r'.text ↔ r = r' := by
  obtain ⟨lhs, rhs⟩ := r
  obtain ⟨lhs', rhs'⟩ := r'
  obtain ⟨hlhs, hrhs⟩ := List.forall_mem_cons.1 h
  obtain ⟨hlhs', hrhs'⟩ := List.forall_mem_cons.1 h'
  rw [← String.toList_inj, toList_text_eq, toList_text_eq, toList_quoted_append_inj hlhs hlhs',
    List.append_cancel_left_eq, shown_inj hrhs hrhs', mk.injEq]

/-! ## Rules on lines -/

/-- The texts of some rules on lines of their own. -/
def lines (rules : List Rule) : String := "\n".intercalate (rules.map text)

theorem OneLine.not_mem_text {r : Rule} (h : r.OneLine) : '\n' ∉ r.text.toList := by
  obtain ⟨lhs, rhs⟩ := r
  obtain ⟨hlhs, hrhs⟩ := List.forall_mem_cons.1 h
  simpa [toList_text, hlhs] using hrhs

/-- Some rules have some text, so the empty text is that of no rules. -/
theorem lines_eq_empty_iff {rules : List Rule} : lines rules = "" ↔ rules = [] := by
  rw [← String.toList_inj, lines, String.toList_intercalate]
  cases rules with
  | nil => simp
  | cons r rules => cases rules <;> simp [toList_text]

theorem splitOn_lines {rules : List Rule} (hne : rules ≠ []) (h : ∀ r ∈ rules, r.OneLine) :
    (lines rules).toList.splitOn '\n' = rules.map fun r => r.text.toList := by
  rw [lines, String.toList_intercalate, List.map_map]
  refine List.splitOn_intercalate '\n' ?_ (by simpa using hne)
  simpa using fun r hr => (h r hr).not_mem_text

/-- Rules with no quote in their names are known from their texts in order. -/
theorem map_text_inj {rules rules' : List Rule} (h : ∀ r ∈ rules, r.Quotable)
    (h' : ∀ r ∈ rules', r.Quotable) :
    (rules.map fun r => r.text.toList) = (rules'.map fun r => r.text.toList) ↔ rules = rules' := by
  induction rules generalizing rules' with
  | nil => cases rules' <;> simp
  | cons r rules ih =>
    cases rules' with
    | nil => simp
    | cons r' rules' =>
      rw [List.forall_mem_cons] at h h'
      rw [List.map_cons, List.map_cons, List.cons.injEq, String.toList_inj, text_inj h.1 h'.1,
        ih h.2 h'.2, List.cons.injEq]

/-- Rules with neither quotes nor line feeds in their names are known from their lines. -/
theorem lines_inj {rules rules' : List Rule} (h : ∀ r ∈ rules, r.Quotable ∧ r.OneLine)
    (h' : ∀ r ∈ rules', r.Quotable ∧ r.OneLine) : lines rules = lines rules' ↔ rules = rules' := by
  refine ⟨fun hlines => ?_, congrArg lines⟩
  by_cases hnil : rules = []
  · rw [lines_eq_empty_iff.2 hnil, eq_comm, lines_eq_empty_iff] at hlines
    rw [hnil, hlines]
  · have hnil' : rules' ≠ [] := by
      rwa [ne_eq, ← lines_eq_empty_iff, ← hlines, lines_eq_empty_iff]
    rw [← map_text_inj (fun r hr => (h r hr).1) fun r hr => (h' r hr).1,
      ← splitOn_lines hnil fun r hr => (h r hr).2, ← splitOn_lines hnil' fun r hr => (h' r hr).2,
      hlines]

/-- The text of a rule says which rule it is, whatever its names look like, provided that there is
no quote in them; and if there is no line feed in them either, the texts of finitely many rules on
lines of their own say which rules they are, and in which order they stand. -/
theorem text_unambiguous :
    (∀ r r' : Rule, r.Quotable → r'.Quotable → (r.text = r'.text ↔ r = r')) ∧
    (∀ rules rules' : List Rule, (∀ r ∈ rules, r.Quotable ∧ r.OneLine) →
      (∀ r ∈ rules', r.Quotable ∧ r.OneLine) → (lines rules = lines rules' ↔ rules = rules')) ∧
    ∀ rules rules' : Std.ExtTreeSet Rule, (∀ r : Rule, r ∈ rules → r.Quotable ∧ r.OneLine) →
      (∀ r : Rule, r ∈ rules' → r.Quotable ∧ r.OneLine) →
      (lines rules.toList = lines rules'.toList ↔ rules = rules') := by
  refine ⟨fun r r' => text_inj, fun rules rules' => lines_inj, ?_⟩
  intro rules rules' h h'
  rw [lines_inj (by simpa using h) (by simpa using h')]
  constructor
  · intro hlists
    apply Std.ExtTreeSet.ext_mem
    intro r
    rw [← Std.ExtTreeSet.mem_toList, hlists, Std.ExtTreeSet.mem_toList]
  · rintro rfl
    rfl

/-- Names that are empty or look like what stands between names. -/
theorem text_unambiguous_separators :
    (⟨"=>", ["", " "]⟩ : Rule).Quotable ∧ (⟨"=>", [" ", ""]⟩ : Rule).Quotable ∧
      (⟨"=>", ["", " "]⟩ : Rule).text ≠ (⟨"=>", [" ", ""]⟩ : Rule).text ∧
      (∀ r : Rule, r ∈ Std.ExtTreeSet.ofList [epsilon "=>", epsilon ""] →
        r.Quotable ∧ r.OneLine) ∧
      (∀ r : Rule, r ∈ Std.ExtTreeSet.ofList [(⟨"=>", [""]⟩ : Rule)] → r.Quotable ∧ r.OneLine) ∧
      lines (Std.ExtTreeSet.ofList [epsilon "=>", epsilon ""]).toList ≠
        lines (Std.ExtTreeSet.ofList [(⟨"=>", [""]⟩ : Rule)]).toList := by
  have hrule : (⟨"=>", ["", " "]⟩ : Rule).Quotable := by decide
  have hrule' : (⟨"=>", [" ", ""]⟩ : Rule).Quotable := by decide
  have hset : ∀ r : Rule, r ∈ Std.ExtTreeSet.ofList [epsilon "=>", epsilon ""] →
      r.Quotable ∧ r.OneLine := by
    have hlist : ∀ r ∈ [epsilon "=>", epsilon ""], r.Quotable ∧ r.OneLine := by decide
    simpa only [Std.ExtTreeSet.mem_ofList, List.contains_iff_mem] using hlist
  have hset' : ∀ r : Rule, r ∈ Std.ExtTreeSet.ofList [(⟨"=>", [""]⟩ : Rule)] →
      r.Quotable ∧ r.OneLine := by
    have hlist : ∀ r ∈ [(⟨"=>", [""]⟩ : Rule)], r.Quotable ∧ r.OneLine := by decide
    simpa only [Std.ExtTreeSet.mem_ofList, List.contains_iff_mem] using hlist
  refine ⟨hrule, hrule', ?_, hset, hset', ?_⟩
  · rw [ne_eq, text_unambiguous.1 _ _ hrule hrule']
    decide
  · rw [ne_eq, text_unambiguous.2.2 _ _ hset hset']
    intro hsame
    have hmem : epsilon "" ∈ Std.ExtTreeSet.ofList [(⟨"=>", [""]⟩ : Rule)] := by
      rw [← hsame]
      simp
    simp [epsilon] at hmem

/-- With a quote in a name two rules may have one text. -/
example : (⟨"a", ["b' 'c"]⟩ : Rule).text = (⟨"a", ["b", "c"]⟩ : Rule).text := by decide

end Rule

end EditableGrammar
