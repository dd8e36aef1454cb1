import Mathlib.Data.List.Permutation
import EditableGrammar.Proofs.Language.Independence
import EditableGrammar.Proofs.Recursion.Ways

set_option autoImplicit false

/-!
# Derivations that come to no symbol twice

A derivation is straight if no symbol comes twice on a way down its tree.  Straight derivations have
nothing to do with loops, and cutting loops is meant to keep them.  It does where every loop has one
entry: no rule of a straight derivation is cut then (`OneEntry.derives_cutLoops`).

A loop with two entries is cut where the survey comes back to the entry that it met first.  A
derivation that comes in at the other entry then finds the way through the loop cut, although it has
not been at the first, and so a straight derivation can be lost.
-/

namespace EditableGrammar

namespace Grammar

/-- The symbols `xs` derive `w` in a row, with trees on whose ways down no symbol comes twice, nor
one of the symbols `above` these trees. -/
inductive Straight (g : Grammar) : List Symbol → List Symbol → Sentence → Prop where
  | nil {above : List Symbol} : Straight g above [] []
  /-- a symbol without productions stands for itself -/
  | itself {above xs : List Symbol} {s : Symbol} {w : Sentence}
      (hterminal : ∀ r ∈ g.ruleSet, r.lhs ≠ s) (hnew : s ∉ above) (hxs : Straight g above xs w) :
      Straight g above (s :: xs) (s :: w)
  /-- the left-hand side of a rule stands above what its right-hand side derives -/
  | rule {above xs : List Symbol} {r : Rule} {u w : Sentence} (hr : r ∈ g.ruleSet)
      (hnew : r.lhs ∉ above) (hrhs : Straight g (r.lhs :: above) r.rhs u)
      (hxs : Straight g above xs w) : Straight g above (r.lhs :: xs) (u ++ w)

variable {g h : Grammar} {above xs : List Symbol} {s : Symbol} {w : Sentence}

namespace Straight

theorem not_mem_above (hw : g.Straight above xs w) : ∀ x ∈ xs, x ∉ above := by
  induction hw with
  | nil =>
    intro x hx
    cases hx
  | itself _ hnew _ ih =>
    intro x hx
    rcases List.mem_cons.1 hx with rfl | hx
    · exact hnew
    · exact ih x hx
  | rule _ hnew _ _ _ ih =>
    intro x hx
    rcases List.mem_cons.1 hx with rfl | hx
    · exact hnew
    · exact ih x hx

/-- A grammar that holds every rule of a straight derivation still derives the sentence.  Below
`root`, these are the rules that mention no symbol of a way to them. -/
theorem derives_of_kept {root : Symbol} (hw : g.Straight above xs w)
    (hways : ∀ x ∈ xs, g.Way root x (x :: above))
    (hterminal : ∀ r ∈ h.ruleSet, ∃ q ∈ g.ruleSet, q.lhs = r.lhs)
    (hkept : ∀ r ∈ g.ruleSet, ∀ way, g.Way root r.lhs way → (∀ x ∈ r.rhs, x ∉ way) →
      r ∈ h.ruleSet) :
    ∃ ws, List.Forall₂ h.Derives xs ws ∧ w = ws.flatten := by
  induction hw with
  | nil => exact ⟨[], .nil, rfl⟩
  | @itself above xs s w hnone _ _ ih =>
    obtain ⟨ws, hws, rfl⟩ := ih fun x hx => hways x (List.mem_cons_of_mem _ hx)
    refine ⟨[s] :: ws, .cons (.itself fun r hr hl => ?_) hws, rfl⟩
    obtain ⟨q, hq, hlhs⟩ := hterminal r hr
    exact hnone q hq (hlhs.trans hl)
  | @rule above xs r u w hr _ hrhs _ ihrhs ih =>
    have hway := hways r.lhs List.mem_cons_self
    obtain ⟨us, hus, rfl⟩ := ihrhs fun x hx => hway.down ⟨r, hr, rfl, hx⟩
    obtain ⟨ws, hws, rfl⟩ := ih fun x hx => hways x (List.mem_cons_of_mem _ hx)
    have hstays : r ∈ h.ruleSet := hkept r hr _ hway hrhs.not_mem_above
    exact ⟨us.flatten :: ws, .cons (.rule hstays hus) hws, rfl⟩

theorem derives_of_single (hw : g.Straight [] [s] w)
    (hterminal : ∀ r ∈ h.ruleSet, ∃ q ∈ g.ruleSet, q.lhs = r.lhs)
    (hkept : ∀ r ∈ g.ruleSet, ∀ way, g.Way s r.lhs way → (∀ x ∈ r.rhs, x ∉ way) →
      r ∈ h.ruleSet) : h.Derives s w := by
  have hways : ∀ x ∈ [s], g.Way s x [x] := by
    intro x hx
    rw [List.mem_singleton.1 hx]
    exact .here
  obtain ⟨ws, hws, rfl⟩ := hw.derives_of_kept hways hterminal hkept
  obtain ⟨u, us, hu, hus, rfl⟩ := List.forall₂_cons_left_iff.1 hws
  obtain rfl := List.forall₂_nil_left_iff.1 hus
  simpa using hu

/-- A straight derivation is a derivation. -/
theorem derives (hw : g.Straight [] [s] w) : g.Derives s w :=
  hw.derives_of_single (fun r hr => ⟨r, hr, rfl⟩) fun _ hr _ _ _ => hr

end Straight

/-- Where every loop has one entry, cutting loops keeps the straight derivations. -/
theorem OneEntry.derives_cutLoops (hone : g.OneEntry s) (hg : g.WellFormed)
    (hw : g.Straight [] [s] w) : (g.cutLoops s).value.Derives s w := by
  have hleaves := hg.cutLoops_leaves_paths s
  refine hw.derives_of_single ?_ ?_
  · intro q hq
    obtain ⟨id, hq⟩ := mem_ruleSet.1 hq
    obtain ⟨r, hr, rfl⟩ := hleaves.rule_left hq
    exact ⟨r, mem_ruleSet.2 ⟨id, hr⟩, rfl⟩
  · intro r hr way hway hoff
    obtain ⟨id, hid⟩ := mem_ruleSet.1 hr
    obtain ⟨k, hk⟩ := hleaves.rule_found hid
    have hnothing : Recursion.Survey.trim (Recursion.Survey.paths g s) r = r.rhs := by
      refine Recursion.Survey.trim_eq_self fun x hx hcut => hoff x hx ?_
      exact hone.mem_way hg hcut ⟨r, hr, rfl, hx⟩ hway
    rw [Recursion.Survey.trimmed_eq_self_iff.2 hnothing] at hk
    exact mem_ruleSet.2 ⟨k, hk⟩

/-- Where every loop has one entry, a straight derivation is found: its sentence is listed, and the
grammar without loops derives it. -/
theorem straight_mem_sentences (edits : List Edit) {s : Symbol} {w : Sentence}
    (hs : (ofHistory edits).startSymbol = some s) (hone : (ofHistory edits).OneEntry s)
    (hw : (ofHistory edits).Straight [] [s] w) :
    w ∈ (ofHistory edits).sentences.value ∧ (ofHistory edits).withoutLoops.value.Derives s w := by
  have hg := ofHistory_wellFormed edits
  have hstart := hg.startAt (hg.startSymbol_known hs)
  have hcut : (ofHistory edits).withoutLoops.value.Derives s w := by
    rw [value_withoutLoops hs]
    have hsame := SameBelow.of_ruleSet_eq (ruleSet_cutLoops_eq hg hstart rfl s) s
    exact hsame.derives_iff.1 (hone.derives_cutLoops hg hw)
  refine ⟨hg.mem_sentences_iff.2 ⟨s, hs, ?_⟩, hcut⟩
  rw [value_finiteView]
  split
  next => exact hw.derives
  next => exact hcut

/-- Sums of two terms, where a term is a digit or a sum in brackets. -/
def sumRules : List Rule :=
  [⟨"E", ["T", "+", "T"]⟩, ⟨"T", ["(", "E", ")"]⟩, ⟨"T", ["0"]⟩]

/-- Every loop of the sums goes through `E`. -/
theorem oneEntry_sumRules : (ofHistory [.extend sumRules]).OneEntry "E" := by
  have hlhs : ∀ r ∈ sumRules, r.lhs = "E" ∨ r.lhs = "T" := by decide
  have hrhs : ∀ r ∈ sumRules, r.lhs = "E" ∨ "T" ∉ r.rhs := by decide
  refine .of_start fun {a b loop} hloop hback => ?_
  obtain ⟨r, hr, rfl, ha⟩ := hback
  rw [mem_ruleSet_ofHistory_extend] at hr
  rcases hrhs r hr with hb | hb
  · exact hb ▸ hloop.mem_last
  -- the loop goes on from its first symbol, so this has a rule
  rcases hloop.reaches.cases_head with hstay | ⟨c, ⟨q, hq, rfl, -⟩, -⟩
  · rcases hlhs r hr with hE | hT
    · exact hE ▸ hloop.mem_last
    · exact absurd (hT ▸ hstay ▸ ha) hb
  · rcases hlhs q (mem_ruleSet_ofHistory_extend.1 hq) with hE | hT
    · exact hE ▸ hloop.mem_first
    · exact absurd (hT ▸ ha) hb

theorem straight_mem_sentences_sum :
    (ofHistory [.extend sumRules]).isFinite = false ∧
      (ofHistory [.extend sumRules]).OneEntry "E" ∧
      (ofHistory [.extend sumRules]).Straight [] ["E"] ["0", "+", "0"] ∧
      ["0", "+", "0"] ∈ (ofHistory [.extend sumRules]).sentences.value := by
  have hstart : (ofHistory [.extend sumRules]).startSymbol = some "E" := by cbv
  have hrecursive : (ofHistory [.extend sumRules]).isFinite = false := by cbv
  have hrule : ∀ r ∈ sumRules, r ∈ (ofHistory [.extend sumRules]).ruleSet := fun r hr =>
    mem_ruleSet_ofHistory_extend.2 hr
  have hterminal : ∀ x ∈ ["0", "+"], ∀ r ∈ (ofHistory [.extend sumRules]).ruleSet, r.lhs ≠ x := by
    have hnone : ∀ x ∈ ["0", "+"], ∀ r ∈ sumRules, r.lhs ≠ x := by decide
    exact fun x hx r hr => hnone x hx r (mem_ruleSet_ofHistory_extend.1 hr)
  have hdigit : (ofHistory [.extend sumRules]).Straight ["T", "E"] ["0"] ["0"] :=
    .itself (hterminal "0" (by decide)) (by decide) .nil
  have hterm : (ofHistory [.extend sumRules]).Straight ["E"] ["T"] ["0"] :=
    .rule (u := ["0"]) (w := []) (hrule ⟨"T", ["0"]⟩ (by decide)) (by decide) hdigit .nil
  have hterms : (ofHistory [.extend sumRules]).Straight ["E"] ["T", "+", "T"] ["0", "+", "0"] :=
    .rule (u := ["0"]) (w := ["+", "0"]) (hrule ⟨"T", ["0"]⟩ (by decide)) (by decide) hdigit
      (.itself (hterminal "+" (by decide)) (by decide) hterm)
  have hw : (ofHistory [.extend sumRules]).Straight [] ["E"] ["0", "+", "0"] :=
    .rule (u := ["0", "+", "0"]) (w := []) (hrule ⟨"E", ["T", "+", "T"]⟩ (by decide)) (by decide)
      hterms .nil
  have hfound := straight_mem_sentences [.extend sumRules] hstart oneEntry_sumRules hw
  exact ⟨hrecursive, oneEntry_sumRules, hw, hfound.1⟩

/-- Two symbols that lead to each other, both entered from the start symbol. -/
def twoEntryRules : List Rule :=
  [⟨"S", ["A", "B"]⟩, ⟨"A", ["B"]⟩, ⟨"A", ["a"]⟩, ⟨"B", ["A"]⟩]

/-- A straight derivation that is lost: the survey opens `B` under `A` and cuts `A` from it, though
the start symbol leads to `B` past `A` as well. -/
theorem straight_lost :
    (ofHistory [.extend twoEntryRules]).startSymbol = some "S" ∧
      (ofHistory [.extend twoEntryRules]).Straight [] ["S"] ["a", "a"] ∧
      ["a", "a"] ∉ (ofHistory [.extend twoEntryRules]).sentences.value ∧
      ¬ (ofHistory [.extend twoEntryRules]).withoutLoops.value.Derives "S" ["a", "a"] := by
  have hstart : (ofHistory [.extend twoEntryRules]).startSymbol = some "S" := by cbv
  have hrecursive : (ofHistory [.extend twoEntryRules]).isFinite = false := by cbv
  have hfound : (Expanding.run (ofHistory [.extend twoEntryRules]).finiteView.value 12
      ⟨["S"], ∅⟩).known["S"]? = some [[], ["a"]] := by cbv
  have hmissing : ["a", "a"] ∉ (ofHistory [.extend twoEntryRules]).sentences.value := by
    rw [(ofHistory_wellFormed _).mem_sentences_iff_of_known hstart hfound]
    decide
  have hrule : ∀ r ∈ twoEntryRules, r ∈ (ofHistory [.extend twoEntryRules]).ruleSet := fun r hr =>
    mem_ruleSet_ofHistory_extend.2 hr
  have hterminal : ∀ r ∈ (ofHistory [.extend twoEntryRules]).ruleSet, r.lhs ≠ "a" := by
    have hnone : ∀ r ∈ twoEntryRules, r.lhs ≠ "a" := by decide
    exact fun r hr => hnone r (mem_ruleSet_ofHistory_extend.1 hr)
  have hA : ∀ above, "a" ∉ above → "A" ∉ above →
      (ofHistory [.extend twoEntryRules]).Straight above ["A"] ["a"] := by
    intro above ha hA
    have hnew : "a" ∉ "A" :: above := by simpa using ha
    exact .rule (u := ["a"]) (w := []) (hrule ⟨"A", ["a"]⟩ (by decide)) hA
      (.itself hterminal hnew .nil) .nil
  have hB : (ofHistory [.extend twoEntryRules]).Straight ["S"] ["B"] ["a"] :=
    .rule (u := ["a"]) (w := []) (hrule ⟨"B", ["A"]⟩ (by decide)) (by decide)
      (hA ["B", "S"] (by decide) (by decide)) .nil
  have hAB : (ofHistory [.extend twoEntryRules]).Straight ["S"] ["A", "B"] ["a", "a"] := by
    have hnew : "a" ∉ ["A", "S"] := by decide
    exact .rule (u := ["a"]) (w := ["a"]) (hrule ⟨"A", ["a"]⟩ (by decide)) (by decide)
      (.itself hterminal hnew .nil) hB
  have hS : (ofHistory [.extend twoEntryRules]).Straight [] ["S"] ["a", "a"] :=
    .rule (u := ["a", "a"]) (w := []) (hrule ⟨"S", ["A", "B"]⟩ (by decide)) (by decide) hAB .nil
  refine ⟨hstart, hS, hmissing, fun hderives => hmissing ?_⟩
  rw [(ofHistory_wellFormed _).mem_sentences_iff, value_finiteView, hrecursive]
  exact ⟨"S", hstart, hderives⟩

end Grammar

end EditableGrammar
