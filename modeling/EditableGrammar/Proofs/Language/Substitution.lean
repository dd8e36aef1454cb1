import EditableGrammar.Proofs.Grammar.StartSymbol
import EditableGrammar.Proofs.Language.Independence
import EditableGrammar.Proofs.Language.Rewriting

set_option autoImplicit false

/-!
# Symbols taken for terminals

When a symbol loses its productions, the sentences mention it as it stands.  Nothing is lost by
this: put for every occurrence, each on its own, something that the symbol derived, and what the
grammar derived with the productions is found again (`Frozen.exists_substituted`,
`Frozen.derives_of_substituted`).  When the symbol is removed altogether, it is left out of
everything that is derived, and nothing else changes (`Struck.exists_of_derives`,
`Struck.derives_filter`).

All of this is by induction on derivations and does not ask whether they end.  That the grammar is
finite is used only where sentences are compared with what is derived.
-/

namespace EditableGrammar

/-- The second sentence is the first one with a sentence of `L` put for every occurrence of `s`, for
each on its own. -/
inductive Substituted (s : Symbol) (L : Sentence → Prop) : Sentence → Sentence → Prop where
  | nil : Substituted s L [] []
  /-- another symbol stays -/
  | keep {u w : Sentence} {x : Symbol} (hx : x ≠ s) (h : Substituted s L u w) :
      Substituted s L (x :: u) (x :: w)
  /-- an occurrence is replaced -/
  | replace {u v w : Sentence} (hv : L v) (h : Substituted s L u w) :
      Substituted s L (s :: u) (v ++ w)

namespace Substituted

variable {s x : Symbol} {L L' : Sentence → Prop} {u u' w w' : Sentence}

theorem append (h : Substituted s L u w) (h' : Substituted s L u' w') :
    Substituted s L (u ++ u') (w ++ w') := by
  induction h with
  | nil => exact h'
  | keep hx _ ih => exact .keep hx ih
  | replace hv _ ih =>
    rw [List.append_assoc]
    exact .replace hv ih

/-- What is put for two parts is put for one and for the other. -/
theorem of_append (h : Substituted s L (u ++ u') w) :
    ∃ v v', Substituted s L u v ∧ Substituted s L u' v' ∧ w = v ++ v' := by
  induction u generalizing w with
  | nil => exact ⟨[], w, .nil, h, rfl⟩
  | cons x u ih =>
    cases h with
    | keep hx h =>
      obtain ⟨v, v', hv, hv', rfl⟩ := ih h
      exact ⟨_, v', .keep hx hv, hv', rfl⟩
    | replace hfirst h =>
      obtain ⟨v, v', hv, hv', rfl⟩ := ih h
      exact ⟨_, v', .replace hfirst hv, hv', (List.append_assoc _ _ _).symm⟩

theorem singleton_self (hw : L w) : Substituted s L [s] w := by
  simpa using Substituted.replace hw .nil

theorem of_singleton_self (h : Substituted s L [s] w) : L w := by
  cases h with
  | keep hx _ => exact absurd rfl hx
  | replace hv h =>
    cases h
    rwa [List.append_nil]

theorem of_singleton (hx : x ≠ s) (h : Substituted s L [x] w) : w = [x] := by
  cases h with
  | keep _ h =>
    cases h
    rfl
  | replace _ _ => exact absurd rfl hx

/-- What may be put for `s` matters only if `s` occurs. -/
theorem mono (hL : s ∈ u → ∀ v, L v → L' v) (h : Substituted s L u w) :
    Substituted s L' u w := by
  induction h with
  | nil => exact .nil
  | keep hx _ ih => exact .keep hx (ih fun hs => hL (List.mem_cons_of_mem _ hs))
  | replace hv _ ih =>
    have hall := hL List.mem_cons_self
    exact .replace (hall _ hv) (ih fun _ => hall)

end Substituted

namespace Grammar

variable {g h : Grammar} {s t x : Symbol} {u w : Sentence}

/-- A symbol reaches the symbols of what it derives. -/
theorem Derives.reaches (hw : g.Derives x w) : ∀ y ∈ w, g.Reaches x y := by
  induction hw using Derives.rec
    (motive_2 := fun xs ws _ => ∀ y ∈ ws.flatten, ∃ x ∈ xs, g.Reaches x y) with
  | itself _ =>
    intro y hy
    rw [List.mem_singleton.1 hy]
    exact Relation.ReflTransGen.refl
  | rule hr _ ih =>
    intro y hy
    obtain ⟨x, hx, hxy⟩ := ih y hy
    exact Relation.ReflTransGen.head ⟨_, hr, rfl, hx⟩ hxy
  | nil y hy => cases hy
  | cons _ _ ihhead ihtail y hy =>
    rw [List.flatten_cons, List.mem_append] at hy
    rcases hy with hy | hy
    · exact ⟨_, List.mem_cons_self, ihhead y hy⟩
    · obtain ⟨x, hx, hxy⟩ := ihtail y hy
      exact ⟨x, List.mem_cons_of_mem _ hx, hxy⟩

/-! ## Without the productions of a symbol -/

/-- `h` holds the rules of `g` but for the productions of `s`. -/
def Frozen (g : Grammar) (s : Symbol) (h : Grammar) : Prop :=
  ∀ r, r ∈ h.ruleSet ↔ r ∈ g.ruleSet ∧ r.lhs ≠ s

namespace Frozen

variable (hfrozen : Frozen g s h)

include hfrozen

/-- The frozen symbol stands for itself. -/
theorem derives_self : h.Derives s [s] :=
  .itself fun _ hr => ((hfrozen _).1 hr).2

/-- What a symbol derives, it derives with the frozen symbol left standing. -/
theorem exists_substituted (hw : g.Derives x w) :
    ∃ u, h.Derives x u ∧ Substituted s (g.Derives s) u w := by
  induction hw using Derives.rec
    (motive_2 := fun xs ws _ => ∃ us, List.Forall₂ h.Derives xs us ∧
      Substituted s (g.Derives s) us.flatten ws.flatten) with
  | @itself x hterminal =>
    by_cases hx : x = s
    · subst hx
      exact ⟨[x], hfrozen.derives_self, .singleton_self (.itself hterminal)⟩
    · exact ⟨[x], .itself fun r hr => hterminal r ((hfrozen r).1 hr).1, .keep hx .nil⟩
  | @rule r ws hr hws ih =>
    by_cases hx : r.lhs = s
    · -- the derivation below is put for the symbol as a whole
      subst hx
      exact ⟨[r.lhs], hfrozen.derives_self, .singleton_self (.rule hr hws)⟩
    · obtain ⟨us, hus, hw⟩ := ih
      exact ⟨us.flatten, .rule ((hfrozen r).2 ⟨hr, hx⟩) hus, hw⟩
  | nil => exact ⟨[], .nil, .nil⟩
  | cons _ _ ihhead ihtail =>
    obtain ⟨u, hu, hw⟩ := ihhead
    obtain ⟨us, hus, hws⟩ := ihtail
    exact ⟨u :: us, .cons hu hus, hw.append hws⟩

/-- Whatever the frozen symbol derived may be put in its place. -/
theorem derives_of_substituted (hu : h.Derives x u) (hw : Substituted s (g.Derives s) u w) :
    g.Derives x w := by
  induction hu using Derives.rec
    (motive_2 := fun xs us _ => ∀ w, Substituted s (g.Derives s) us.flatten w →
      ∃ ws, List.Forall₂ g.Derives xs ws ∧ w = ws.flatten) generalizing w with
  | @itself x hterminal =>
    by_cases hx : x = s
    · subst hx
      exact hw.of_singleton_self
    · rw [hw.of_singleton hx]
      exact .itself fun r hr hlhs => hterminal r ((hfrozen r).2 ⟨hr, hlhs ▸ hx⟩) hlhs
  | @rule r us hr _ ih =>
    obtain ⟨ws, hws, rfl⟩ := ih w hw
    exact .rule ((hfrozen r).1 hr).1 hws
  | nil w hw =>
    cases hw
    exact ⟨[], .nil, rfl⟩
  | cons _ _ ihhead ihtail w hw =>
    obtain ⟨v, v', hv, hv', rfl⟩ := hw.of_append
    obtain ⟨ws, hws, rfl⟩ := ihtail v' hv'
    exact ⟨v :: ws, .cons (ihhead hv) hws, rfl⟩

theorem leads {a b : Symbol} (hab : h.Leads a b) : g.Leads a b := by
  obtain ⟨r, hr, hlhs, hb⟩ := hab
  exact ⟨r, ((hfrozen r).1 hr).1, hlhs, hb⟩

/-- Where the frozen symbol is left standing, it can be reached. -/
theorem reaches (hu : h.Derives x u) (hs : s ∈ u) : g.Reaches x s :=
  Relation.ReflTransGen.mono (fun _ _ => hfrozen.leads) _ _ (hu.reaches s hs)

end Frozen

/-! ## Without the symbol itself -/

/-- `h` holds the rules of `g` without `s`, which is a symbol without productions. -/
structure Struck (g : Grammar) (s : Symbol) (h : Grammar) : Prop where
  terminal : ∀ r ∈ g.ruleSet, r.lhs ≠ s
  mem_ruleSet_iff : ∀ q, q ∈ h.ruleSet ↔ ∃ r ∈ g.ruleSet, r.without s = q

namespace Struck

variable (hstruck : Struck g s h)

include hstruck

theorem eq_of_derives (hw : g.Derives s w) : w = [s] := by
  rcases derives_iff.1 hw with ⟨-, rfl⟩ | ⟨r, hr, hlhs, -⟩
  · rfl
  · exact absurd hlhs (hstruck.terminal r hr)

/-- A row derives what it derives without the struck symbol, if this is put back where it stood. -/
theorem exists_row {xs : List Symbol} {ws : List Sentence}
    (hrow : List.Forall₂ (fun x w => ∃ u, g.Derives x u ∧ w = u.filter (· != s))
      (xs.filter (· != s)) ws) :
    ∃ us, List.Forall₂ g.Derives xs us ∧ ws.flatten = us.flatten.filter (· != s) := by
  induction xs generalizing ws with
  | nil =>
    cases hrow
    exact ⟨[], .nil, rfl⟩
  | cons x xs ih =>
    by_cases hx : x = s
    · subst hx
      rw [List.filter_cons_of_neg (by simp)] at hrow
      obtain ⟨us, hus, hrest⟩ := ih hrow
      exact ⟨[x] :: us, .cons (.itself hstruck.terminal) hus, by simpa using hrest⟩
    · rw [List.filter_cons_of_pos (by simpa using hx)] at hrow
      obtain ⟨_, ws, ⟨u, hu, rfl⟩, hws, rfl⟩ := List.forall₂_cons_left_iff.1 hrow
      obtain ⟨us, hus, hrest⟩ := ih hws
      exact ⟨u :: us, .cons hu hus, by
        rw [List.flatten_cons, List.flatten_cons, List.filter_append, hrest]⟩

/-- What is derived without the symbol is what was derived with it, the symbol left out. -/
theorem exists_of_derives (hw : h.Derives x w) :
    x ≠ s → ∃ u, g.Derives x u ∧ w = u.filter (· != s) := by
  induction hw using Derives.rec
    (motive_2 := fun xs ws _ => (∀ x ∈ xs, x ≠ s) →
      List.Forall₂ (fun x w => ∃ u, g.Derives x u ∧ w = u.filter (· != s)) xs ws) with
  | @itself x hterminal =>
    intro hx
    refine ⟨[x], .itself fun r hr => ?_, by simp [hx]⟩
    exact hterminal (r.without s) ((hstruck.mem_ruleSet_iff _).2 ⟨r, hr, rfl⟩)
  | @rule q ws hq _ ih =>
    intro _
    obtain ⟨r, hr, rfl⟩ := (hstruck.mem_ruleSet_iff q).1 hq
    obtain ⟨us, hus, hw⟩ := hstruck.exists_row (ih fun x hx => (Rule.mem_rhs_without.1 hx).2)
    have hderives : g.Derives r.lhs us.flatten := .rule hr hus
    exact ⟨us.flatten, hderives, hw⟩
  | nil => exact .nil
  | cons _ _ ihhead ihtail hne =>
    exact .cons (ihhead (hne _ List.mem_cons_self))
      (ihtail fun x hx => hne x (List.mem_cons_of_mem _ hx))

/-- What was derived with the symbol is derived without it, the symbol left out. -/
theorem derives_filter (hu : g.Derives x u) : x ≠ s → h.Derives x (u.filter (· != s)) := by
  induction hu using Derives.rec
    (motive_2 := fun xs us _ => ∃ ws, List.Forall₂ h.Derives (xs.filter (· != s)) ws ∧
      ws.flatten = us.flatten.filter (· != s)) with
  | @itself x hterminal =>
    intro hx
    rw [List.filter_cons_of_pos (by simpa using hx)]
    refine .itself fun q hq hlhs => ?_
    obtain ⟨r, hr, rfl⟩ := (hstruck.mem_ruleSet_iff q).1 hq
    exact hterminal r hr hlhs
  | @rule r us hr _ ih =>
    intro _
    obtain ⟨ws, hws, hw⟩ := ih
    rw [← hw]
    exact .rule (r := r.without s) ((hstruck.mem_ruleSet_iff _).2 ⟨r, hr, rfl⟩) hws
  | nil => exact ⟨[], .nil, rfl⟩
  | @cons x u xs us hu _ ihhead ihtail =>
    obtain ⟨ws, hws, hrest⟩ := ihtail
    by_cases hx : x = s
    · -- the struck symbol derives itself alone, which is left out on both sides
      subst hx
      rw [hstruck.eq_of_derives hu]
      exact ⟨ws, by simpa using hws, by simpa using hrest⟩
    · refine ⟨u.filter (· != s) :: ws, ?_, by simp [hrest]⟩
      rw [List.filter_cons_of_pos (by simpa using hx)]
      exact .cons (ihhead hx) hws

theorem leads {a b : Symbol} (hab : h.Leads a b) : g.Leads a b := by
  obtain ⟨q, hq, hlhs, hb⟩ := hab
  obtain ⟨r, hr, rfl⟩ := (hstruck.mem_ruleSet_iff q).1 hq
  exact ⟨r, hr, hlhs, (Rule.mem_rhs_without.1 hb).1⟩

end Struck

/-! ## Sentences -/

theorem Indexed.frozen_eraseProductions (hg : g.Indexed) (s : Symbol) :
    Frozen g s (g.eraseRules (g.productions s)).value :=
  fun _ => hg.mem_ruleSet_eraseProductions

theorem WellFormed.struck_removeSymbol (hg : g.WellFormed) {l : Logged Grammar}
    (hl : g.removeSymbol s = .ok l) :
    Struck (g.eraseRules (g.productions s)).value s l.value := by
  have hfrozen := hg.frozen_eraseProductions s
  refine ⟨fun r hr => ((hfrozen r).1 hr).2, fun q => ?_⟩
  rw [hg.mem_ruleSet_removeSymbol hl]
  simp only [hfrozen _, and_assoc]

/-- The sentences of a finite grammar without the productions of a symbol are what is derived
without them. -/
theorem WellFormed.mem_sentences_eraseProductions (hg : g.WellFormed) (hfinite : g.isFinite = true)
    (hstart : g.startSymbol ≠ some s) :
    w ∈ (g.eraseRules (g.productions s)).value.sentences.value ↔
      ∃ t, g.startSymbol = some t ∧ (g.eraseRules (g.productions s)).value.Derives t w := by
  have hcleared := hg.eraseRules (g.productions s)
  have hsame := hg.startSymbol_eraseProductions hstart
  have hfinite' := hg.isFinite_mono hcleared.toIndexed hsame
    (fun _ _ => (hg.frozen_eraseProductions s).leads) hfinite
  rw [hcleared.mem_sentences_of_isFinite hfinite', hsame]

/-- With a symbol that a finite grammar can come to as the start, the sentences are what this symbol
derives. -/
theorem WellFormed.mem_sentences_startAt (hg : g.WellFormed) (hfinite : g.isFinite = true)
    (ht : g.startSymbol = some t) (hreached : g.Reaches t s) (hs : s ∈ g.index) :
    w ∈ ({ g with explicitStart := some s } : Grammar).sentences.value ↔ g.Derives s w := by
  have hrooted := hg.startAt hs
  have hbelow : SameBelow g { g with explicitStart := some s } s := .of_ruleSet_eq rfl s
  have hstart : ({ g with explicitStart := some s } : Grammar).startSymbol = some s := by
    rw [hrooted.startSymbol_eq]
    rfl
  have hfinite' : ({ g with explicitStart := some s } : Grammar).isFinite = true := by
    rw [isFinite, ht] at hfinite
    rw [isFinite, hstart]
    have hends := (hg.isFiniteFrom_iff_ends.1 hfinite).of_reaches hreached
    exact hrooted.isFiniteFrom_iff_ends.2 (hbelow.ends hends)
  rw [hrooted.mem_sentences_of_isFinite hfinite', hbelow.derives_iff]
  simp [hstart]

/-- The sentences of a finite grammar are those of the grammar where a symbol other than the start
has lost its productions, with sentences of the symbol put for its occurrences, for each on its own.
The start symbol is the same. -/
theorem ofHistory_sentences_substituted (edits : List Edit) (s : Symbol)
    (hfinite : (ofHistory edits).isFinite = true) (hs : s ∈ (ofHistory edits).symbols)
    (hstart : (ofHistory edits).startSymbol ≠ some s) :
    ∃ frozen rooted, (ofHistory edits).perform (.makeTerminal s) = .ok frozen ∧
      (ofHistory edits).perform (.setStart s) = .ok rooted ∧
      frozen.startSymbol = (ofHistory edits).startSymbol ∧
      ∀ w, w ∈ (ofHistory edits).sentences.value ↔
        ∃ u ∈ frozen.sentences.value, Substituted s (· ∈ rooted.sentences.value) u w := by
  have hg := ofHistory_wellFormed edits
  have hfrozen := hg.frozen_eraseProductions s
  have hknown := mem_symbols.1 hs
  refine ⟨_, _, perform_makeTerminal hs, perform_setStart hs,
    hg.startSymbol_eraseProductions hstart, fun w => ?_⟩
  rw [hg.mem_sentences_of_isFinite hfinite]
  simp only [hg.mem_sentences_eraseProductions hfinite hstart]
  constructor
  · rintro ⟨t, ht, hw⟩
    obtain ⟨u, hu, huw⟩ := hfrozen.exists_substituted hw
    refine ⟨u, ⟨t, ht, hu⟩, huw.mono fun hsu v hv => ?_⟩
    exact (hg.mem_sentences_startAt hfinite ht (hfrozen.reaches hu hsu) hknown).2 hv
  · rintro ⟨u, ⟨t, ht, hu⟩, huw⟩
    refine ⟨t, ht, hfrozen.derives_of_substituted hu (huw.mono fun hsu v hv => ?_)⟩
    exact (hg.mem_sentences_startAt hfinite ht (hfrozen.reaches hu hsu) hknown).1 hv

/-- `A` stands twice in one rule; without it this rule becomes equal to another one, and two rules
become empty. -/
def sharedEdits : List Edit :=
  [.extend [⟨"S", ["A", "x", "A"]⟩, ⟨"S", ["x"]⟩, ⟨"S", ["A"]⟩, ⟨"S", ["A", "A"]⟩, ⟨"A", ["p"]⟩,
    ⟨"A", []⟩]]

/-- What the grammar is found to be, all evaluated at once. -/
theorem values_sharedEdits :
    ((ofHistory sharedEdits).isFinite, (ofHistory sharedEdits).startSymbol,
        (ofHistory sharedEdits).symbols,
        (Expanding.run (ofHistory sharedEdits).finiteView.value 12 ⟨["S"], ∅⟩).known["S"]?) =
      (true, some "S", ["A", "S", "p", "x"],
        some [[], ["p"], ["p", "p"], ["p", "x"], ["p", "x", "p"], ["x"], ["x", "p"]]) := by
  cbv

theorem sharedEdits_admitted :
    (ofHistory sharedEdits).isFinite = true ∧ "A" ∈ (ofHistory sharedEdits).symbols ∧
      (ofHistory sharedEdits).startSymbol ≠ some "A" := by
  have hvalues := values_sharedEdits
  simp only [Prod.mk.injEq] at hvalues
  obtain ⟨hfinite, hstart, hsymbols, -⟩ := hvalues
  refine ⟨hfinite, ?_, ?_⟩
  · rw [hsymbols]
    decide
  · rw [hstart]
    decide

/-- In `A x A` one occurrence of `A` is replaced by `p` and the other one by nothing. -/
theorem ofHistory_sentences_substituted_shared :
    (ofHistory sharedEdits).isFinite = true ∧ "A" ∈ (ofHistory sharedEdits).symbols ∧
      (ofHistory sharedEdits).startSymbol ≠ some "A" ∧
      ∃ frozen rooted, (ofHistory sharedEdits).perform (.makeTerminal "A") = .ok frozen ∧
        (ofHistory sharedEdits).perform (.setStart "A") = .ok rooted ∧
        frozen.startSymbol = (ofHistory sharedEdits).startSymbol ∧
        ∃ u ∈ frozen.sentences.value,
          Substituted "A" (· ∈ rooted.sentences.value) u ["p", "x"] := by
  obtain ⟨hfinite, hknown, hstart⟩ := sharedEdits_admitted
  have hw : ["p", "x"] ∈ (ofHistory sharedEdits).sentences.value := by
    have hvalues := values_sharedEdits
    simp only [Prod.mk.injEq] at hvalues
    obtain ⟨-, hstart', -, hfound⟩ := hvalues
    exact ((ofHistory_wellFormed _).mem_sentences_iff_of_known hstart' hfound).2 (by decide)
  obtain ⟨frozen, rooted, hfrozen, hrooted, hsame, hsentence⟩ :=
    ofHistory_sentences_substituted sharedEdits "A" hfinite hknown hstart
  exact ⟨hfinite, hknown, hstart, frozen, rooted, hfrozen, hrooted, hsame, (hsentence _).1 hw⟩

/-- Removing a symbol other than the start from a finite grammar leaves it out of every sentence that
the grammar has when the symbol has lost its productions; if it is a terminal, these are the
sentences there were.  The grammar stays finite, and its start symbol is the same. -/
theorem ofHistory_sentences_struck (edits : List Edit) (s : Symbol)
    (hfinite : (ofHistory edits).isFinite = true) (hs : s ∈ (ofHistory edits).symbols)
    (hstart : (ofHistory edits).startSymbol ≠ some s) :
    ∃ removed frozen, (ofHistory edits).perform (.removeSymbol s) = .ok removed ∧
      (ofHistory edits).perform (.makeTerminal s) = .ok frozen ∧
      removed.isFinite = true ∧ removed.startSymbol = (ofHistory edits).startSymbol ∧
      (∀ w, w ∈ removed.sentences.value ↔
        ∃ u ∈ frozen.sentences.value, w = u.filter (· != s)) ∧
      (s ∈ (ofHistory edits).terminals → ∀ w, w ∈ removed.sentences.value ↔
        ∃ u ∈ (ofHistory edits).sentences.value, w = u.filter (· != s)) := by
  have hg := ofHistory_wellFormed edits
  obtain ⟨l, hl, hperform⟩ := perform_removeSymbol hs
  have hremoved := hg.removeSymbol hl
  have hstruck := hg.struck_removeSymbol hl
  have hsame := hg.startSymbol_removeSymbol hl hstart
  have hfinite' := hg.isFinite_mono hremoved.toIndexed hsame
    (fun _ _ hab => (hg.frozen_eraseProductions s).leads (hstruck.leads hab)) hfinite
  have hsentences : ∀ w, w ∈ l.value.sentences.value ↔
      ∃ u ∈ ((ofHistory edits).eraseRules ((ofHistory edits).productions s)).value.sentences.value,
        w = u.filter (· != s) := by
    intro w
    rw [hremoved.mem_sentences_of_isFinite hfinite', hsame]
    simp only [hg.mem_sentences_eraseProductions hfinite hstart]
    constructor
    · rintro ⟨t, ht, hw⟩
      have hts : t ≠ s := fun hts => hstart (hts ▸ ht)
      obtain ⟨u, hu, huw⟩ := hstruck.exists_of_derives hw hts
      exact ⟨u, ⟨t, ht, hu⟩, huw⟩
    · rintro ⟨u, ⟨t, ht, hu⟩, rfl⟩
      have hts : t ≠ s := fun hts => hstart (hts ▸ ht)
      exact ⟨t, ht, hstruck.derives_filter hu hts⟩
  refine ⟨_, _, hperform, perform_makeTerminal hs, hfinite', hsame, hsentences, ?_⟩
  -- a terminal has no productions to lose
  intro hterminal
  have hnone : (ofHistory edits).productions s = [] := (mem_terminals.1 hterminal).2
  rw [hnone] at hsentences
  exact hsentences

/-- The first two rules become equal, and so do the next two, whose right-hand sides become empty. -/
theorem ofHistory_sentences_struck_shared :
    (ofHistory sharedEdits).isFinite = true ∧ "A" ∈ (ofHistory sharedEdits).symbols ∧
      (ofHistory sharedEdits).startSymbol ≠ some "A" ∧
      ∃ removed frozen, (ofHistory sharedEdits).perform (.removeSymbol "A") = .ok removed ∧
        (ofHistory sharedEdits).perform (.makeTerminal "A") = .ok frozen ∧
        removed.isFinite = true ∧
        removed.startSymbol = (ofHistory sharedEdits).startSymbol ∧
        ∀ w, w ∈ removed.sentences.value ↔
          ∃ u ∈ frozen.sentences.value, w = u.filter (· != "A") := by
  obtain ⟨hfinite, hknown, hstart⟩ := sharedEdits_admitted
  obtain ⟨removed, frozen, hremoved, hfrozen, hfinite', hsame, hsentences, -⟩ :=
    ofHistory_sentences_struck sharedEdits "A" hfinite hknown hstart
  exact ⟨hfinite, hknown, hstart, removed, frozen, hremoved, hfrozen, hfinite', hsame, hsentences⟩

end Grammar

end EditableGrammar
