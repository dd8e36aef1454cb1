import Mathlib.Data.List.Permutation
import EditableGrammar.Language.Sample
import EditableGrammar.Proofs.Language.Enumeration
import EditableGrammar.Proofs.Language.Period

set_option autoImplicit false

/-!
# Samples are sentences, and every sentence is a sample

A sample replaces the first open symbol again and again, and what is derived from it stands before
what is derived from the symbols after it.  So the derivation of a row of symbols is the derivation
of one after the other, each of which turns its symbol into a sentence that the symbol derives and
leaves the symbols after it as they are.

Whatever a sample ends with is a sentence, by fixed-point induction.  That it ends is by induction
on the symbols that a symbol leads to, from a supply on which the draws of the sample end: those
below one and below the numbers of productions to choose from.  Every word source is such a supply
unless a symbol has `2 ^ 32` productions or more.  That every sentence is a sample is by induction
on its derivation: the words of its choices are joined in the order in which the sample comes to
them.
-/

namespace EditableGrammar

namespace Grammar

variable {σ : Type} {next : Generator σ} {supply rest : σ}
variable {g : Grammar} {s : Symbol} {done later : List Symbol} {w : Sentence}

/-! ## The steps of a derivation -/

theorem derive_done : g.derive next done [] supply = some (done.reverse, supply) := by
  rw [derive]

theorem derive_terminal (h : g.productions s = []) :
    g.derive next done (s :: later) supply = g.derive next (s :: done) later supply := by
  rw [derive]
  simp only [h]

/-- A symbol is replaced by the right-hand side of the rule that was chosen. -/
theorem derive_rule {id : RuleId} {r : Rule} (hr : g.rules[id]? = some r)
    (hid : id ∈ g.productions s) (hchosen : choose next (g.productions s) supply = some (id, rest)) :
    g.derive next done (s :: later) supply = g.derive next done (r.rhs ++ later) rest := by
  rw [derive]
  split
  next hnone =>
    rw [hnone] at hid
    cases hid
  next => simp only [hchosen, getD_rhs? hr]

/-! ## Every sample that ends is a sentence -/

/-- What is derived from the symbols of two rows, one behind the other. -/
theorem exists_row_append {xs ys : List Symbol} {ws : List Sentence}
    (h : List.Forall₂ g.Derives (xs ++ ys) ws) :
    ∃ us vs, List.Forall₂ g.Derives xs us ∧ List.Forall₂ g.Derives ys vs ∧ ws = us ++ vs := by
  induction xs generalizing ws with
  | nil => exact ⟨[], ws, .nil, h, rfl⟩
  | cons x xs ih =>
    cases h with
    | cons hx hrow =>
      obtain ⟨us, vs, hus, hvs, rfl⟩ := ih hrow
      exact ⟨_ :: us, vs, .cons hx hus, hvs, rfl⟩

/-- Where a derivation ends, the symbols of the row have been replaced by sentences that they
derive. -/
theorem derive_sound (hg : g.Indexed) {pending : List Symbol}
    (h : g.derive next done pending supply = some (w, rest)) :
    ∃ ws, List.Forall₂ g.Derives pending ws ∧ w = done.reverse ++ ws.flatten := by
  refine derive.partial_correctness g next
    (fun done pending _ drawn => ∃ ws, List.Forall₂ g.Derives pending ws ∧
      drawn.1 = done.reverse ++ ws.flatten) ?_ _ _ _ _ h
  -- what the derivation goes on with is sound for the row that it goes on from
  intro derive ih done pending supply drawn hdrawn
  match pending with
  | [] =>
    cases hdrawn
    exact ⟨[], .nil, by simp⟩
  | s :: later =>
    simp only at hdrawn
    split at hdrawn
    next hnone =>
      obtain ⟨ws, hws, hflat⟩ := ih _ _ _ _ hdrawn
      have hs : g.Derives s [s] := .itself (hg.productions_eq_nil_iff.1 hnone)
      exact ⟨[s] :: ws, .cons hs hws, by simp [hflat]⟩
    next =>
      split at hdrawn
      next => cases hdrawn
      next id _ hchosen =>
        obtain ⟨r, hr, rfl⟩ := hg.mem_productions_iff.1 (mem_of_choose hchosen)
        rw [getD_rhs? hr] at hdrawn
        obtain ⟨ws, hws, hflat⟩ := ih _ _ _ _ hdrawn
        obtain ⟨us, vs, hus, hvs, rfl⟩ := exists_row_append hws
        have hs : g.Derives r.lhs us.flatten := .rule (mem_ruleSet.2 ⟨id, hr⟩) hus
        exact ⟨us.flatten :: vs, .cons hs hvs, by simp [hflat]⟩

/-! ## Every sample ends -/

/-- The numbers that a sample draws below: one, and the numbers of productions to choose from. -/
def DrawsBelow (g : Grammar) (n : Nat) : Prop :=
  n = 1 ∨ ∃ s, g.productions s ≠ [] ∧ n = (g.productions s).length

/-- Every draw of a sample is accepted after finitely many words, wherever it begins. -/
def DrawsEnd (g : Grammar) (next : Generator σ) (supply : σ) : Prop :=
  ∀ n, g.DrawsBelow n → Accepting next n supply

theorem DrawsEnd.after (h : g.DrawsEnd next supply) (count : Nat) :
    g.DrawsEnd next (afterWords next count supply) :=
  fun n hn => (h n hn).later count

/-- A production is chosen for every symbol that has any. -/
theorem DrawsEnd.choose (h : g.DrawsEnd next supply) (hs : g.productions s ≠ []) :
    ∃ id ∈ g.productions s, ∃ count,
      choose next (g.productions s) supply = some (id, afterWords next count supply) :=
  (h 1 (Or.inl rfl)).choose (h _ (Or.inr ⟨s, hs, rfl⟩)) hs

/-- On every word source the draws end unless a symbol has as many productions as there are
words. -/
theorem drawsEnd_wordSource (hsmall : ∀ s, (g.productions s).length < 2 ^ 32)
    (source : WordSource) : g.DrawsEnd WordSource.next source := by
  rintro n (rfl | ⟨s, -, rfl⟩)
  · exact WordSource.accepting (by decide) source
  · exact WordSource.accepting (hsmall s) source

/-- A derivation replaces the symbol by terminals, whatever was derived before it and stands after
it, and goes on with what stands after it. -/
def Replaced (g : Grammar) (next : Generator σ) (s : Symbol) : Prop :=
  ∀ supply, g.DrawsEnd next supply → ∀ done later, ∃ done' count,
    g.derive next done (s :: later) supply =
      g.derive next done' later (afterWords next count supply)

/-- The symbols of a row are replaced one after the other. -/
theorem Replaced.row {xs : List Symbol} (hxs : ∀ x ∈ xs, g.Replaced next x)
    (hsupply : g.DrawsEnd next supply) (done later : List Symbol) :
    ∃ done' count, g.derive next done (xs ++ later) supply =
      g.derive next done' later (afterWords next count supply) := by
  induction xs generalizing supply done with
  | nil => exact ⟨done, 0, rfl⟩
  | cons x xs ih =>
    obtain ⟨done', first, hstep⟩ := hxs x List.mem_cons_self supply hsupply done (xs ++ later)
    obtain ⟨done'', others, hsteps⟩ :=
      ih (fun y hy => hxs y (List.mem_cons_of_mem _ hy)) (hsupply.after first) done'
    refine ⟨done'', first + others, ?_⟩
    rw [List.cons_append, hstep, hsteps, afterWords_add]

/-- Where every way down ends, so does every derivation whose draws end. -/
theorem Ends.replaced (hends : g.Ends s) (hg : g.Indexed) (next : Generator σ) :
    g.Replaced next s := by
  induction hends with
  | intro s _ ih =>
    intro supply hsupply done later
    by_cases hnone : g.productions s = []
    · exact ⟨s :: done, 0, derive_terminal hnone⟩
    · obtain ⟨id, hid, first, hchosen⟩ := hsupply.choose hnone
      obtain ⟨r, hr, rfl⟩ := hg.mem_productions_iff.1 hid
      obtain ⟨done', others, hsteps⟩ := Replaced.row
        (fun x hx => ih x ⟨r, mem_ruleSet.2 ⟨id, hr⟩, rfl, hx⟩) (hsupply.after first) done later
      refine ⟨done', first + others, ?_⟩
      rw [derive_rule hr hid hchosen, hsteps, afterWords_add]

/-! ## Every sentence is a sample -/

/-- Some words at hand make a sample replace a symbol by a sentence. -/
def ReplacedBy (g : Grammar) (s : Symbol) (w : Sentence) : Prop :=
  ∃ words : List Word, ∀ done later more seed,
    g.derive WordSource.next done (s :: later) ⟨words ++ more, seed⟩ =
      g.derive WordSource.next (w.reverse ++ done) later ⟨more, seed⟩

/-- The words for the symbols of a row, joined, make a sample replace the row. -/
theorem ReplacedBy.row {xs : List Symbol} {ws : List Sentence}
    (h : List.Forall₂ g.ReplacedBy xs ws) :
    ∃ words : List Word, ∀ done later more seed,
      g.derive WordSource.next done (xs ++ later) ⟨words ++ more, seed⟩ =
        g.derive WordSource.next (ws.flatten.reverse ++ done) later ⟨more, seed⟩ := by
  induction h with
  | nil => exact ⟨[], fun _ _ _ _ => rfl⟩
  | cons hx _ ih =>
    obtain ⟨first, hfirst⟩ := hx
    obtain ⟨others, hothers⟩ := ih
    refine ⟨first ++ others, fun done later more seed => ?_⟩
    rw [List.append_assoc, List.cons_append, hfirst, hothers]
    simp

/-- Whatever a symbol derives, some words make a sample replace the symbol by it. -/
theorem Derives.replacedBy (hg : g.Indexed) (hw : g.Derives s w) : g.ReplacedBy s w := by
  induction hw using Derives.rec
    (motive_2 := fun xs ws _ => List.Forall₂ g.ReplacedBy xs ws) with
  | itself hterminal =>
    exact ⟨[], fun _ _ _ _ => derive_terminal (hg.productions_eq_nil_iff.2 hterminal)⟩
  | rule hr _ ih =>
    obtain ⟨id, hid⟩ := mem_ruleSet.1 hr
    have hmem := hg.mem_productions_iff.2 ⟨_, hid, rfl⟩
    obtain ⟨choice, hchoice⟩ := WordSource.exists_choose hmem
    obtain ⟨words, hwords⟩ := ReplacedBy.row ih
    refine ⟨choice ++ words, fun done later more seed => ?_⟩
    rw [List.append_assoc, derive_rule hid hmem (hchoice _ _), hwords]
  | nil => exact .nil
  | cons _ _ ihhead ihtail => exact .cons ihhead ihtail

/-! ## Samples of a grammar with a history -/

/-- With a start symbol, a sample is what the derivation from it gives. -/
theorem value_sample (hs : g.startSymbol = some s) :
    (g.sample next supply).value =
      (g.finiteView.value.derive next [] [s] supply).map fun (w, supply) => (some w, supply) := by
  simp only [sample, hs, Logged.value_map]

/-- A sample is missing just where there is no start symbol. -/
theorem sample_eq_none_iff :
    (∃ rest, (g.sample next supply).value = some (none, rest)) ↔ g.startSymbol = none := by
  cases hs : g.startSymbol with
  | none => simp [sample, hs]
  | some s => simp [value_sample hs]

/-- Whatever is sampled is a sentence. -/
theorem WellFormed.mem_sentences_of_sample (hg : g.WellFormed)
    (h : (g.sample next supply).value = some (some w, rest)) : w ∈ g.sentences.value := by
  cases hs : g.startSymbol with
  | none => simp [sample, hs] at h
  | some s =>
    rw [value_sample hs] at h
    obtain ⟨⟨u, _⟩, hderived, hu⟩ := Option.map_eq_some_iff.1 h
    cases hu
    obtain ⟨ws, hws, rfl⟩ := derive_sound hg.finiteView.toIndexed hderived
    cases hws with
    | cons hw hnil =>
      cases hnil
      exact hg.mem_sentences_iff.2 ⟨s, hs, by simpa using hw⟩

/-- A sample whose draws end is a sentence if there is a start symbol. -/
theorem WellFormed.exists_sample (hg : g.WellFormed) (hs : g.startSymbol = some s)
    (hdraws : g.finiteView.value.DrawsEnd next supply) :
    ∃ w ∈ g.sentences.value, ∃ rest, (g.sample next supply).value = some (some w, rest) := by
  obtain ⟨done, count, hstep⟩ :=
    (hg.ends_finiteView hs).replaced hg.finiteView.toIndexed next supply hdraws [] []
  have hsample : (g.sample next supply).value =
      some (some done.reverse, afterWords next count supply) := by
    rw [value_sample hs, hstep, derive_done, Option.map_some]
  exact ⟨done.reverse, hg.mem_sentences_of_sample hsample, _, hsample⟩

/-- Several samples are sentences too. -/
theorem WellFormed.mem_sentences_of_samples (hg : g.WellFormed) {count : Nat}
    {source : WordSource} (h : w ∈ (g.samples count source).value.1) :
    w ∈ g.sentences.value := by
  induction count generalizing source with
  | zero =>
    unfold samples at h
    split at h <;> cases h
  | succ count ih =>
    rw [samples_succ, Logged.value_bind] at h
    split at h
    next u source hu =>
      rcases List.mem_cons.1 h with rfl | h
      · exact hg.mem_sentences_of_sample hu
      · exact ih h
    next => cases h

/-- There are as many samples as are asked for, from every word source, unless a symbol has as many
productions as there are words. -/
theorem WellFormed.length_samples (hg : g.WellFormed) (hs : g.startSymbol = some s)
    (hsmall : ∀ s, (g.finiteView.value.productions s).length < 2 ^ 32) (count : Nat)
    (source : WordSource) : (g.samples count source).value.1.length = count := by
  induction count generalizing source with
  | zero => simp [samples, hs, deriveMany]
  | succ count ih =>
    obtain ⟨w, -, rest, hw⟩ := hg.exists_sample hs (drawsEnd_wordSource hsmall source)
    rw [samples_succ, Logged.value_bind, hw]
    exact congrArg (· + 1) (ih rest)

/-- A sample is a sentence, and it is missing only if there is no start symbol; it ends where the
draws that it makes are accepted after finitely many words.  They are on every word source unless a
symbol has as many productions as there are words, and as many samples as are asked for can be taken
from it.  Every sentence is drawn from some words, and no word after these is taken. -/
theorem sample_iff_sentence (edits : List Edit) :
    (∀ (σ : Type) (next : Generator σ) (supply : σ),
      ((∃ rest, ((ofHistory edits).sample next supply).value = some (none, rest)) ↔
        (ofHistory edits).startSymbol = none) ∧
      (∀ w rest, ((ofHistory edits).sample next supply).value = some (some w, rest) →
        w ∈ (ofHistory edits).sentences.value) ∧
      ((ofHistory edits).finiteView.value.DrawsEnd next supply → ∃ result rest,
        ((ofHistory edits).sample next supply).value = some (result, rest) ∧
          ∀ s, (ofHistory edits).startSymbol = some s →
            ∃ w ∈ (ofHistory edits).sentences.value, result = some w)) ∧
    (∀ count source,
      (∀ w ∈ ((ofHistory edits).samples count source).value.1,
        w ∈ (ofHistory edits).sentences.value) ∧
      ((∀ s, ((ofHistory edits).finiteView.value.productions s).length < 2 ^ 32) →
        (ofHistory edits).finiteView.value.DrawsEnd WordSource.next source ∧
          ((ofHistory edits).startSymbol ≠ none →
            ((ofHistory edits).samples count source).value.1.length = count))) ∧
    ∀ w ∈ (ofHistory edits).sentences.value, ∃ words : List Word, ∀ more seed,
      ((ofHistory edits).sample WordSource.next ⟨words ++ more, seed⟩).value =
        some (some w, ⟨more, seed⟩) := by
  have hg := ofHistory_wellFormed edits
  refine ⟨fun σ next supply => ⟨sample_eq_none_iff, fun w rest => hg.mem_sentences_of_sample,
    fun hdraws => ?_⟩, fun count source => ⟨fun w => hg.mem_sentences_of_samples,
    fun hsmall => ⟨drawsEnd_wordSource hsmall source, fun hstart => ?_⟩⟩, fun w hw => ?_⟩
  · cases hs : (ofHistory edits).startSymbol with
    | none =>
      refine ⟨none, supply, by simp [sample, hs], ?_⟩
      intro s hsome
      cases hsome
    | some s =>
      obtain ⟨w, hw, rest, hsample⟩ := hg.exists_sample hs hdraws
      exact ⟨some w, rest, hsample, fun _ _ => ⟨w, hw, rfl⟩⟩
  · obtain ⟨s, hs⟩ := Option.ne_none_iff_exists'.1 hstart
    exact hg.length_samples hs hsmall count source
  · obtain ⟨s, hs, hderives⟩ := hg.mem_sentences_iff.1 hw
    obtain ⟨words, hwords⟩ := hderives.replacedBy hg.finiteView.toIndexed
    refine ⟨words, fun more seed => ?_⟩
    rw [value_sample hs, hwords, derive_done]
    simp

/-- Lists of one kind of item, which may go on after a comma. -/
def listRules : List Rule := [⟨"L", ["x", ",", "L"]⟩, ⟨"L", ["x"]⟩]

theorem sample_iff_sentence_list :
    (∀ s, ((ofHistory [.extend listRules]).finiteView.value.productions s).length < 2 ^ 32) ∧
      (ofHistory [.extend listRules]).finiteView.value.DrawsEnd WordSource.next
        ⟨[7, 4294967295], 42⟩ ∧
      (∃ w ∈ (ofHistory [.extend listRules]).sentences.value, ∃ rest,
        ((ofHistory [.extend listRules]).sample WordSource.next ⟨[7, 4294967295], 42⟩).value =
          some (some w, rest)) ∧
      ((ofHistory [.extend listRules]).samples 3 ⟨[7, 4294967295], 42⟩).value.1.length = 3 ∧
      ["x", ","] ∈ (ofHistory [.extend listRules]).sentences.value ∧
      ∃ words : List Word, ∀ more seed,
        ((ofHistory [.extend listRules]).sample WordSource.next ⟨words ++ more, seed⟩).value =
          some (some ["x", ","], ⟨more, seed⟩) := by
  have hstart : (ofHistory [.extend listRules]).startSymbol = some "L" := by cbv
  have hfound : (Expanding.run (ofHistory [.extend listRules]).finiteView.value 12
      ⟨["L"], ∅⟩).known["L"]? = some [["x"], ["x", ","]] := by cbv
  have hw : ["x", ","] ∈ (ofHistory [.extend listRules]).sentences.value :=
    ((ofHistory_wellFormed _).mem_sentences_iff_of_known hstart hfound).2 (by decide)
  have hsmall : ∀ s,
      ((ofHistory [.extend listRules]).finiteView.value.productions s).length < 2 ^ 32 := by
    have hview := (ofHistory_wellFormed [.extend listRules]).finiteView.toIndexed
    have hsize : (ofHistory [.extend listRules]).finiteView.value.size = 2 := by cbv
    exact fun s => Nat.lt_of_le_of_lt (hview.length_productions_le s) (by rw [hsize]; decide)
  obtain ⟨hends, hmany, hdrawn⟩ := sample_iff_sentence [.extend listRules]
  obtain ⟨hdraws, hlength⟩ := (hmany 3 ⟨[7, 4294967295], 42⟩).2 hsmall
  obtain ⟨result, rest, hresult, hsentence⟩ := (hends WordSource _ _).2.2 hdraws
  obtain ⟨w, hmem, rfl⟩ := hsentence "L" hstart
  refine ⟨hsmall, hdraws, ⟨w, hmem, rest, hresult⟩, hlength ?_, hw, hdrawn _ hw⟩
  rw [hstart]
  exact Option.some_ne_none "L"

end Grammar

end EditableGrammar
