import Mathlib.Data.List.Permutation
import EditableGrammar.Proofs.Language.Enumeration

set_option autoImplicit false

/-!
# Sentential forms

A sentential form is rewritten by replacing an occurrence of a left-hand side by its right-hand
side.  What a grammar without loops derives is a sentential form of the grammar with loops in which
some occurrences were erased instead of being rewritten (`derives_of_erased`), and each of these is
of a symbol that comes back to itself.

Nothing is lost altogether: where every way down from a symbol ends, the symbol derives something
(`Ends.exists_derives`), so a grammar with a start symbol has a sentence.
-/

namespace EditableGrammar

/-- The second list is the first one with some occurrences erased, of symbols with the property
`P` only. -/
inductive Erased (P : Symbol → Prop) : List Symbol → List Symbol → Prop where
  | nil : Erased P [] []
  /-- an occurrence stays -/
  | keep {xs ys : List Symbol} (x : Symbol) (h : Erased P xs ys) : Erased P (x :: xs) (x :: ys)
  /-- an occurrence is erased -/
  | erase {xs ys : List Symbol} {x : Symbol} (hx : P x) (h : Erased P xs ys) :
      Erased P (x :: xs) ys

namespace Erased

variable {P : Symbol → Prop} {xs ys xs' ys' : List Symbol}

theorem refl (xs : List Symbol) : Erased P xs xs := by
  induction xs with
  | nil => exact .nil
  | cons x xs ih => exact .keep x ih

theorem append (h : Erased P xs ys) (h' : Erased P xs' ys') : Erased P (xs ++ xs') (ys ++ ys') := by
  induction h with
  | nil => exact h'
  | keep x _ ih => exact .keep x ih
  | erase hx _ ih => exact .erase hx ih

/-- A filter erases what it drops. -/
theorem of_filter {keep : Symbol → Bool} (h : ∀ x ∈ xs, keep x = false → P x) :
    Erased P xs (xs.filter keep) := by
  induction xs with
  | nil => exact .nil
  | cons x xs ih =>
    have hxs := ih fun y hy => h y (List.mem_cons_of_mem _ hy)
    cases hkeep : keep x with
    | true =>
      rw [List.filter_cons_of_pos hkeep]
      exact .keep x hxs
    | false =>
      rw [List.filter_cons_of_neg (by simp [hkeep])]
      exact .erase (h x List.mem_cons_self hkeep) hxs

theorem sublist (h : Erased P xs ys) : ys.Sublist xs := by
  induction h with
  | nil => exact .slnil
  | keep x _ ih => exact ih.cons_cons x
  | erase _ _ ih => exact ih.cons _

end Erased

namespace Grammar

/-- One occurrence of a left-hand side is replaced by its right-hand side. -/
def Rewrites (g : Grammar) (form form' : Sentence) : Prop :=
  ∃ r ∈ g.ruleSet, ∃ before after,
    form = before ++ r.lhs :: after ∧ form' = before ++ r.rhs ++ after

/-- A sentential form becomes another one by any number of replacements. -/
def Yields (g : Grammar) : Sentence → Sentence → Prop := Relation.ReflTransGen g.Rewrites

variable {g h : Grammar} {s a : Symbol} {w : Sentence} {P : Symbol → Prop}

theorem Yields.refl (form : Sentence) : g.Yields form form := Relation.ReflTransGen.refl

theorem Rewrites.congr {form form' : Sentence} (hstep : g.Rewrites form form')
    (left right : Sentence) : g.Rewrites (left ++ form ++ right) (left ++ form' ++ right) := by
  obtain ⟨r, hr, before, after, rfl, rfl⟩ := hstep
  exact ⟨r, hr, left ++ before, after ++ right, by simp, by simp⟩

theorem Yields.congr {form form' : Sentence} (hform : g.Yields form form') (left right : Sentence) :
    g.Yields (left ++ form ++ right) (left ++ form' ++ right) := by
  induction hform with
  | refl => exact Relation.ReflTransGen.refl
  | tail _ hstep ih => exact ih.tail (hstep.congr left right)

theorem Yields.append {form₁ form₁' form₂ form₂' : Sentence} (h₁ : g.Yields form₁ form₁')
    (h₂ : g.Yields form₂ form₂') : g.Yields (form₁ ++ form₂) (form₁' ++ form₂') := by
  have hleft : g.Yields (form₁ ++ form₂) (form₁' ++ form₂) := by simpa using h₁.congr [] form₂
  have hright : g.Yields (form₁' ++ form₂) (form₁' ++ form₂') := by simpa using h₂.congr form₁' []
  exact hleft.trans hright

/-- The right-hand side of a rule goes on for its left-hand side. -/
theorem Yields.rule {r : Rule} (hr : r ∈ g.ruleSet) {form : Sentence}
    (hform : g.Yields r.rhs form) : g.Yields [r.lhs] form :=
  Relation.ReflTransGen.head ⟨r, hr, [], [], by simp, by simp⟩ hform

/-- A form made of known symbols becomes a form made of known symbols. -/
theorem WellFormed.yields_known (hg : g.WellFormed) {form form' : Sentence}
    (hform : g.Yields form form') (hknown : ∀ x ∈ form, x ∈ g.index) :
    ∀ x ∈ form', x ∈ g.index := by
  induction hform with
  | refl => exact hknown
  | tail _ hstep ih =>
    obtain ⟨r, hr, before, after, rfl, rfl⟩ := hstep
    obtain ⟨id, hid⟩ := mem_ruleSet.1 hr
    intro x hx
    rw [List.append_assoc, List.mem_append, List.mem_append] at hx
    rcases hx with hx | hx | hx
    · exact ih x (by simp [hx])
    · exact hg.rhs_known hid x hx
    · exact ih x (by simp [hx])

/-! ## Derivations with occurrences erased -/

/-- A symbol becomes a form of which the sentence is left when some occurrences are erased. -/
def Covers (g : Grammar) (P : Symbol → Prop) (a : Symbol) (w : Sentence) : Prop :=
  ∃ form, g.Yields [a] form ∧ Erased P form w

/-- Symbols that were erased from a row are put back: they stand in the form as they are. -/
theorem Covers.row {xs ys : List Symbol} {ws : List Sentence} (hxs : Erased P xs ys)
    (hws : List.Forall₂ (g.Covers P) ys ws) :
    ∃ form, g.Yields xs form ∧ Erased P form ws.flatten := by
  induction hxs generalizing ws with
  | nil =>
    cases hws
    exact ⟨[], .refl [], .nil⟩
  | @keep xs ys x _ ih =>
    obtain ⟨u, us, ⟨form, hform, hu⟩, hus, rfl⟩ := List.forall₂_cons_left_iff.1 hws
    obtain ⟨forms, hforms, hrest⟩ := ih hus
    exact ⟨form ++ forms, hform.append hforms, hu.append hrest⟩
  | @erase xs ys x hx _ ih =>
    obtain ⟨forms, hforms, hrest⟩ := ih hws
    exact ⟨x :: forms, Yields.append (.refl [x]) hforms, .erase hx hrest⟩

/-- If every rule of `h` is a rule of `g` with some occurrences erased, then so is whatever `h`
derives. -/
theorem derives_of_erased
    (hrules : ∀ q ∈ h.ruleSet, ∃ r ∈ g.ruleSet, r.lhs = q.lhs ∧ Erased P r.rhs q.rhs)
    (hw : h.Derives a w) : g.Covers P a w := by
  induction hw using Derives.rec
    (motive_2 := fun xs ws _ => List.Forall₂ (g.Covers P) xs ws) with
  | itself _ => exact ⟨_, .refl _, .refl _⟩
  | rule hq _ ih =>
    obtain ⟨r, hr, hlhs, herased⟩ := hrules _ hq
    obtain ⟨form, hform, hw⟩ := Covers.row herased ih
    exact ⟨form, hlhs ▸ hform.rule hr, hw⟩
  | nil => exact .nil
  | cons _ _ ihhead ihtail => exact .cons ihhead ihtail

/-- The rules that sentences are taken from are those of the grammar, but for occurrences of symbols
that the start symbol reaches and that come back to themselves. -/
theorem WellFormed.erased_finiteView (hg : g.WellFormed) (hs : g.startSymbol = some s) :
    ∀ q ∈ g.finiteView.value.ruleSet, ∃ r ∈ g.ruleSet, r.lhs = q.lhs ∧
      Erased (fun x => g.Reaches s x ∧ g.Recursive x) r.rhs q.rhs := by
  rw [value_finiteView]
  split
  next =>
    intro q hq
    exact ⟨q, hq, rfl, .refl q.rhs⟩
  next =>
    rw [value_withoutLoops hs]
    have hleaves := (hg.startAt (hg.startSymbol_known hs)).cutLoops_leaves_paths s
    intro q hq
    obtain ⟨id, hid⟩ := mem_ruleSet.1 hq
    obtain ⟨r, hr, rfl⟩ := hleaves.rule_left hid
    refine ⟨r, mem_ruleSet.2 ⟨id, hr⟩, rfl, .of_filter fun x hx hcut => ?_⟩
    -- a symbol on the path of its rule reaches the rule, which leads back to it
    obtain ⟨hreached, hback⟩ := hleaves.path_reaches r.lhs x (by simpa using hcut)
    have hlead : g.Leads r.lhs x := Leads.of_rule hr hx
    exact ⟨Relation.ReflTransGen.tail hreached hlead, Relation.TransGen.tail' hback hlead⟩

/-! ## There is always a sentence -/

/-- A row of symbols that derive something derives something. -/
theorem exists_derives_row {xs : List Symbol} (h : ∀ x ∈ xs, ∃ w, g.Derives x w) :
    ∃ ws, List.Forall₂ g.Derives xs ws := by
  induction xs with
  | nil => exact ⟨[], .nil⟩
  | cons x xs ih =>
    obtain ⟨w, hw⟩ := h x List.mem_cons_self
    obtain ⟨ws, hws⟩ := ih fun y hy => h y (List.mem_cons_of_mem _ hy)
    exact ⟨w :: ws, .cons hw hws⟩

/-- Where every way down ends, something is derived. -/
theorem Ends.exists_derives (hends : g.Ends a) : ∃ w, g.Derives a w := by
  induction hends with
  | intro a _ ih =>
    by_cases hterminal : ∀ r ∈ g.ruleSet, r.lhs ≠ a
    · exact ⟨[a], .itself hterminal⟩
    · push Not at hterminal
      obtain ⟨r, hr, rfl⟩ := hterminal
      obtain ⟨ws, hws⟩ := exists_derives_row fun x hx => ih x ⟨r, hr, rfl, hx⟩
      exact ⟨ws.flatten, .rule hr hws⟩

/-- Just a grammar without a start symbol has no sentences. -/
theorem WellFormed.sentences_eq_empty_iff (hg : g.WellFormed) :
    g.sentences.value = ∅ ↔ g.startSymbol = none := by
  rw [Std.ExtTreeSet.eq_empty_iff_forall_not_mem]
  constructor
  · intro hnone
    cases hs : g.startSymbol with
    | none => rfl
    | some s =>
      obtain ⟨w, hw⟩ := (hg.ends_finiteView hs).exists_derives
      exact absurd (hg.mem_sentences_iff.2 ⟨s, hs, hw⟩) (hnone w)
  · intro hs w hw
    obtain ⟨s, hsome, -⟩ := hg.mem_sentences_iff.1 hw
    rw [hs] at hsome
    cases hsome

theorem mem_terminals {x : Symbol} :
    x ∈ g.terminals ↔ x ∈ g.index ∧ g.productions x = [] := by
  rw [terminals, Std.ExtTreeMap.mem_keys, Std.ExtTreeMap.mem_filter, productions]
  constructor
  · rintro ⟨hx, hempty⟩
    refine ⟨hx, ?_⟩
    rw [Std.ExtTreeMap.getElem?_eq_some_getElem hx]
    simpa [Std.ExtTreeSet.isEmpty_toList] using hempty
  · rintro ⟨hx, hnone⟩
    refine ⟨hx, ?_⟩
    rw [Std.ExtTreeMap.getElem?_eq_some_getElem hx] at hnone
    simpa using hnone

/-- Every sentence is a form that the start symbol yields in the grammar as it is, with some
occurrences erased of symbols that come back to themselves, and what remains of the form is made of
terminals.  There is such a sentence as soon as there is a start symbol. -/
theorem sentences_are_erased_forms (edits : List Edit) :
    ((ofHistory edits).sentences.value = ∅ ↔ (ofHistory edits).startSymbol = none) ∧
      ∀ w ∈ (ofHistory edits).sentences.value, ∃ s form,
        (ofHistory edits).startSymbol = some s ∧ (ofHistory edits).Yields [s] form ∧
          Erased (fun x => (ofHistory edits).Reaches s x ∧ (ofHistory edits).Recursive x) form w ∧
          ∀ x ∈ w, x ∈ (ofHistory edits).terminals := by
  have hg := ofHistory_wellFormed edits
  refine ⟨hg.sentences_eq_empty_iff, ?_⟩
  intro w hw
  obtain ⟨s, hs, hderives⟩ := hg.mem_sentences_iff.1 hw
  obtain ⟨form, hform, herased⟩ := derives_of_erased (hg.erased_finiteView hs) hderives
  refine ⟨s, form, hs, hform, herased, fun x hx => mem_terminals.2 ⟨?_, ?_⟩⟩
  · have hstart : ∀ y ∈ [s], y ∈ (ofHistory edits).index := by
      intro y hy
      rw [List.mem_singleton.1 hy]
      exact hg.startSymbol_known hs
    exact hg.yields_known hform hstart x (herased.sublist.subset hx)
  · rw [← hg.productions_finiteView hs, hg.finiteView.productions_eq_nil_iff]
    exact hderives.terminal x hx

/-- A loop through the start symbol, whose own language is infinite. -/
def nestedRules : List Rule :=
  [⟨"S", ["A", "x"]⟩, ⟨"A", ["S", "z"]⟩, ⟨"A", ["y"]⟩]

/-- `S` yields `S z x`, and the sentence `z x` is this form with `S` erased. -/
theorem sentences_are_erased_forms_nested :
    ["z", "x"] ∈ (ofHistory [.extend nestedRules]).sentences.value ∧
      ∃ s form, (ofHistory [.extend nestedRules]).startSymbol = some s ∧
        (ofHistory [.extend nestedRules]).Yields [s] form ∧
        Erased (fun x => (ofHistory [.extend nestedRules]).Reaches s x ∧
          (ofHistory [.extend nestedRules]).Recursive x) form ["z", "x"] ∧
        ∀ x ∈ ["z", "x"], x ∈ (ofHistory [.extend nestedRules]).terminals := by
  have hstart : (ofHistory [.extend nestedRules]).startSymbol = some "S" := by cbv
  have hfound : (Expanding.run (ofHistory [.extend nestedRules]).finiteView.value 12
      ⟨["S"], ∅⟩).known["S"]? = some [["y", "x"], ["z", "x"]] := by cbv
  have hw : ["z", "x"] ∈ (ofHistory [.extend nestedRules]).sentences.value :=
    ((ofHistory_wellFormed _).mem_sentences_iff_of_known hstart hfound).2 (by decide)
  exact ⟨hw, (sentences_are_erased_forms [.extend nestedRules]).2 _ hw⟩

end Grammar

end EditableGrammar
