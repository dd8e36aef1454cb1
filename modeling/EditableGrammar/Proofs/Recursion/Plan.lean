import EditableGrammar.Proofs.Recursion.Reach
import EditableGrammar.Recursion.Cut

set_option autoImplicit false

/-!
# What the survey plans

The survey opens every symbol that can be reached, once, and what it cuts from the productions of a
symbol are the occurrences of the symbols on the path on which the symbol was opened.  So there is a
path for every symbol, and the cuts can be read off from the paths: that is a `Plan`.

Two things are kept at every step.  `Search` is about the order in which symbols are opened and
closed: a way that is not cut leads to a symbol closed before, so the ways that are left end, and
they still lead to every opened symbol.  `Ledger` is about the cuts listed so far.  The paths are
not part of the survey; each is fixed when its symbol is opened, and `record` notes it then.
-/

namespace EditableGrammar

namespace Recursion.Survey

variable {g : Grammar} {root : Symbol}

/-- A path for every symbol. -/
abbrev Paths := Symbol → Std.ExtTreeSet Symbol

/-- The way from `a` to `b` is not cut: `a` mentions `b`, and `b` is not on the path of `a`. -/
def Spares (g : Grammar) (path : Paths) (a b : Symbol) : Prop := g.Leads a b ∧ b ∉ path a

/-- What is left of a right-hand side when the path of its symbol is cut from it. -/
def trim (path : Paths) (r : Rule) : List Symbol := keep (path r.lhs) r.rhs

/-- The cut that brings a rule to what is left of it. -/
def cutOf (path : Paths) (id : RuleId) (r : Rule) : Cut :=
  ⟨id, trim path r, r.rhs.length - (trim path r).length⟩

/-- Nothing need be cut from a rule, or its cut is listed. -/
def Settled (path : Paths) (cuts : List Cut) (id : RuleId) (r : Rule) : Prop :=
  trim path r = r.rhs ∨ cutOf path id r ∈ cuts

/-- A plan for the loops that can be reached from `root`: a path for every symbol, such that the
cuts are the occurrences on the paths, the ways left end, and they lead to whatever could be
reached. -/
structure Plan (g : Grammar) (root : Symbol) (path : Paths) (cuts : List Cut) : Prop where
  sound : ∀ c ∈ cuts, ∃ r, g.rules[c.id]? = some r ∧ g.Reaches root r.lhs ∧
    c = cutOf path c.id r ∧ trim path r ≠ r.rhs
  complete : ∀ {id : RuleId} {r : Rule}, g.rules[id]? = some r → Settled path cuts id r
  path_reaches : ∀ a, ∀ x ∈ path a, g.Reaches root a ∧ g.Reaches x a
  spared_reaches : ∀ a, g.Reaches root a → Relation.ReflTransGen (Spares g path) root a
  spared_ends : Acc (fun b a => Spares g path a b) root

/-! ## What there is to do in a symbol -/

theorem off_path_iff {onPath : Std.ExtTreeSet Symbol} {x : Symbol} :
    (!onPath.contains x) = true ↔ x ∉ onPath := by
  rw [Bool.not_eq_true', ← Bool.not_eq_true, Std.ExtTreeSet.contains_iff_mem]

/-- What is left of a right-hand side is what is not on the path. -/
theorem mem_trim {path : Paths} {r : Rule} {x : Symbol} :
    x ∈ trim path r ↔ x ∈ r.rhs ∧ x ∉ path r.lhs := by
  rw [trim, keep, List.mem_filter, off_path_iff]

/-- Nothing is cut from a right-hand side that is off the path. -/
theorem trim_eq_self {path : Paths} {r : Rule} (h : ∀ x ∈ r.rhs, x ∉ path r.lhs) :
    trim path r = r.rhs :=
  List.filter_eq_self.2 fun x hx => off_path_iff.2 (h x hx)

theorem mem_productionsByContent (hg : g.Indexed) {s : Symbol} {id : RuleId} {rhs : List Symbol} :
    (id, rhs) ∈ productionsByContent g s ↔ g.rules[id]? = some ⟨s, rhs⟩ := by
  rw [productionsByContent, List.mem_mergeSort, List.mem_filterMap]
  constructor
  · rintro ⟨i, hi, heq⟩
    obtain ⟨rhs', hrhs, hpair⟩ := Option.map_eq_some_iff.1 heq
    cases hpair
    obtain ⟨r, hr, rfl⟩ := hg.mem_productions_iff.1 hi
    obtain ⟨r', hr', rfl⟩ := Grammar.rhs?_eq_some_iff.1 hrhs
    rw [hr, Option.some.injEq] at hr'
    subst hr'
    exact hr
  · intro h
    refine ⟨id, hg.mem_productions_iff.2 ⟨_, h, rfl⟩, ?_⟩
    simp [Grammar.rhs?, h]

theorem nodup_productionsByContent (hg : g.Indexed) (s : Symbol) :
    ((productionsByContent g s).map Prod.fst).Nodup := by
  have hpairs : (productionsByContent g s).Nodup := by
    refine (List.mergeSort_perm _ _).nodup_iff.2 ?_
    refine List.Nodup.filterMap ?_ ((Grammar.pairwise_productions g s).imp Nat.ne_of_lt)
    intro a b q ha hb
    obtain ⟨_, -, rfl⟩ := Option.map_eq_some_iff.1 ha
    obtain ⟨_, -, heq⟩ := Option.map_eq_some_iff.1 hb
    exact (congrArg Prod.fst heq).symm
  refine List.Nodup.map_on ?_ hpairs
  intro a ha b hb hab
  have ha := (mem_productionsByContent hg).1 ha
  have hb := (mem_productionsByContent hg).1 hb
  rw [hab, hb] at ha
  exact Prod.ext hab (congrArg Rule.rhs (Option.some.inj ha)).symm

/-- The occurrences to look at in a symbol are the symbols it leads to. -/
theorem occurrence_mem_visits (hg : g.Indexed) {s x : Symbol} :
    .occurrence x ∈ visits g s ↔ g.Leads s x := by
  rw [visits, List.mem_flatMap, Grammar.leads_iff]
  constructor
  · rintro ⟨⟨id, rhs⟩, hmem, hx⟩
    refine ⟨id, ⟨s, rhs⟩, (mem_productionsByContent hg).1 hmem, rfl, ?_⟩
    simpa using hx
  · rintro ⟨id, r, hr, rfl, hx⟩
    refine ⟨(id, r.rhs), (mem_productionsByContent hg).2 hr, ?_⟩
    simpa using hx

/-- The productions to settle in a symbol are its rules. -/
theorem settle_mem_visits (hg : g.Indexed) {s : Symbol} {id : RuleId} {rhs : List Symbol} :
    .settle id rhs ∈ visits g s ↔ g.rules[id]? = some ⟨s, rhs⟩ := by
  rw [visits, List.mem_flatMap]
  constructor
  · rintro ⟨⟨i, rhs'⟩, hmem, hx⟩
    have hsame : id = i ∧ rhs = rhs' := by simpa using hx
    obtain ⟨rfl, rfl⟩ := hsame
    exact (mem_productionsByContent hg).1 hmem
  · intro h
    exact ⟨(id, rhs), (mem_productionsByContent hg).2 h, by simp⟩

/-! ## What a step does -/

/-- A symbol was opened, be it still open or closed again. -/
def Entered (onPath finished : Std.ExtTreeSet Symbol) (x : Symbol) : Prop :=
  x ∈ onPath ∨ x ∈ finished

theorem entered_iff {onPath finished : Std.ExtTreeSet Symbol} {x : Symbol} :
    entered onPath finished x = true ↔ Entered onPath finished x := by
  simp [entered, Entered]

/-- Opening a symbol and closing it again leaves the path as it was. -/
theorem erase_insert_of_not_mem {onPath : Std.ExtTreeSet Symbol} {x : Symbol} (hx : x ∉ onPath) :
    (onPath.insert x).erase x = onPath := by
  apply Std.ExtTreeSet.ext_mem
  intro k
  grind

/-- The four kinds of steps. -/
inductive Move (g : Grammar) : Survey → Survey → Prop where
  /-- close a symbol in which nothing is left to do -/
  | close {t : Symbol} {outer : List Opened} {onPath finished : Std.ExtTreeSet Symbol}
      {cuts : List Cut} :
      Move g ⟨⟨t, []⟩ :: outer, onPath, finished, cuts⟩
        ⟨outer, onPath.erase t, finished.insert t, cuts⟩
  /-- settle a production -/
  | settle {t : Symbol} {id : RuleId} {rhs : List Symbol} {pending : List Visit}
      {outer : List Opened} {onPath finished : Std.ExtTreeSet Symbol} {cuts cuts' : List Cut}
      (hcuts : cuts' = if (keep onPath rhs).length = rhs.length then cuts
        else ⟨id, keep onPath rhs, rhs.length - (keep onPath rhs).length⟩ :: cuts) :
      Move g ⟨⟨t, .settle id rhs :: pending⟩ :: outer, onPath, finished, cuts⟩
        ⟨⟨t, pending⟩ :: outer, onPath, finished, cuts'⟩
  /-- look at an occurrence of a symbol that need not be opened -/
  | look {t x : Symbol} {pending : List Visit} {outer : List Opened}
      {onPath finished : Std.ExtTreeSet Symbol} {cuts : List Cut}
      (hx : Entered onPath finished x ∨ x ∉ g.index) :
      Move g ⟨⟨t, .occurrence x :: pending⟩ :: outer, onPath, finished, cuts⟩
        ⟨⟨t, pending⟩ :: outer, onPath, finished, cuts⟩
  /-- open a symbol -/
  | enter {t x : Symbol} {pending : List Visit} {outer : List Opened}
      {onPath finished : Std.ExtTreeSet Symbol} {cuts : List Cut}
      (hon : x ∉ onPath) (hfinished : x ∉ finished) :
      Move g ⟨⟨t, .occurrence x :: pending⟩ :: outer, onPath, finished, cuts⟩
        ⟨Survey.enter g x :: ⟨t, pending⟩ :: outer, onPath.insert x, finished, cuts⟩

theorem Move.of_step {w w' : Survey} (h : step g w = some w') : Move g w w' := by
  obtain ⟨stack, onPath, finished, cuts⟩ := w
  unfold step at h
  split at h
  next => cases h
  next t outer heq =>
    cases h
    dsimp only at heq
    subst heq
    exact .close
  next t id rhs pending outer heq =>
    dsimp only at heq
    subst heq
    dsimp only at h
    split at h
    next hlen =>
      cases h
      exact .settle (if_pos hlen).symm
    next hlen =>
      cases h
      exact .settle (if_neg hlen).symm
  next t x pending outer heq =>
    dsimp only at heq
    subst heq
    have hknown : g.containsSymbol x = true ↔ x ∈ g.index :=
      Grammar.containsSymbol_iff.trans Grammar.mem_symbols
    split at h
    next hskip =>
      cases h
      rw [Bool.or_eq_true, Bool.not_eq_true', ← Bool.not_eq_true, entered_iff, hknown] at hskip
      exact .look hskip
    next hnew =>
      cases h
      rw [Bool.or_eq_true, Bool.not_eq_true', ← Bool.not_eq_true, entered_iff, hknown] at hnew
      exact .enter (fun hon => hnew (Or.inl (Or.inl hon)))
        (fun hfinished => hnew (Or.inl (Or.inr hfinished)))

theorem stack_of_step_eq_none {w : Survey} (h : step g w = none) : w.stack = [] := by
  unfold step at h
  split at h
  next heq => exact heq
  next => cases h
  next =>
    dsimp only at h
    split at h <;> cases h
  next => split at h <;> cases h

theorem step_eq_none_iff {w : Survey} : step g w = none ↔ w.stack = [] := by
  constructor
  · exact stack_of_step_eq_none
  · intro h
    unfold step
    rw [h]

theorem run_of_step_eq_none {w : Survey} (h : step g w = none) : run g w = w := by
  rw [run]
  split <;> simp_all

theorem run_of_step_eq_some {w w' : Survey} (h : step g w = some w') : run g w = run g w' := by
  rw [run]
  split <;> simp_all

/-! ## What every step keeps -/

/-- The path of every open symbol holds it and the open symbols under it. -/
def StackPath (path : Paths) (onPath : Std.ExtTreeSet Symbol) : List Opened → Prop
  | [] => onPath = ∅
  | f :: outer =>
    path f.symbol = onPath ∧ f.symbol ∈ onPath ∧ StackPath path (onPath.erase f.symbol) outer

/-- What every step keeps about the order in which symbols are opened and closed. -/
structure Search (g : Grammar) (root : Symbol) (path : Paths) (w : Survey) : Prop where
  stack_path : StackPath path w.onPath w.stack
  to_look : ∀ f ∈ w.stack, ∀ x, .occurrence x ∈ f.pending → g.Leads f.symbol x
  looked : ∀ f ∈ w.stack, ∀ x, g.Leads f.symbol x →
    .occurrence x ∈ f.pending ∨ Entered w.onPath w.finished x
  closed : ∀ a ∈ w.finished, ∀ x, g.Leads a x →
    (x ∈ path a ∧ Entered w.onPath w.finished x) ∨ x ∈ w.finished
  ends : ∀ a ∈ w.finished, Acc (fun b a => Spares g path a b) a
  path_reaches : ∀ a, ∀ x ∈ path a, Entered w.onPath w.finished a ∧ g.Reaches x a
  tree : ∀ a, Entered w.onPath w.finished a →
    Relation.ReflTransGen (fun a b => Entered w.onPath w.finished a ∧ Spares g path a b) root a
  root_entered : Entered w.onPath w.finished root

/-- What every step keeps about the cuts. -/
structure Ledger (g : Grammar) (path : Paths) (w : Survey) : Prop where
  to_settle : ∀ f ∈ w.stack, ∀ id rhs, .settle id rhs ∈ f.pending →
    g.rules[id]? = some ⟨f.symbol, rhs⟩
  settled : ∀ f ∈ w.stack, ∀ (id : RuleId) rhs, g.rules[id]? = some ⟨f.symbol, rhs⟩ →
    .settle id rhs ∈ f.pending ∨ Settled path w.cuts id ⟨f.symbol, rhs⟩
  finished_settled : ∀ a ∈ w.finished, ∀ (id : RuleId) rhs, g.rules[id]? = some ⟨a, rhs⟩ →
    Settled path w.cuts id ⟨a, rhs⟩
  cuts_sound : ∀ c ∈ w.cuts, ∃ r, g.rules[c.id]? = some r ∧ Entered w.onPath w.finished r.lhs ∧
    c = cutOf path c.id r ∧ trim path r ≠ r.rhs

/-! ## Paths and cuts -/

section Paths

variable {path path' : Paths} {onPath : Std.ExtTreeSet Symbol}

/-- An open symbol is on the path. -/
theorem StackPath.mem {stack : List Opened} (h : StackPath path onPath stack) :
    ∀ f ∈ stack, f.symbol ∈ onPath := by
  induction stack generalizing onPath with
  | nil =>
    intro f hf
    cases hf
  | cons first outer ih =>
    obtain ⟨-, hfirst, houter⟩ := h
    intro f hf
    rcases List.mem_cons.1 hf with rfl | hf
    · exact hfirst
    · exact Std.ExtTreeSet.mem_of_mem_erase (ih houter f hf)

/-- The paths of the open symbols are all that counts. -/
theorem StackPath.congr {stack : List Opened} (h : StackPath path onPath stack)
    (hsame : ∀ a ∈ onPath, path' a = path a) : StackPath path' onPath stack := by
  induction stack generalizing onPath with
  | nil => exact h
  | cons first outer ih =>
    obtain ⟨hpath, hfirst, houter⟩ := h
    refine ⟨(hsame _ hfirst).trans hpath, hfirst, ih houter ?_⟩
    intro a ha
    exact hsame a (Std.ExtTreeSet.mem_of_mem_erase ha)

theorem Settled.mono {cuts cuts' : List Cut} {id : RuleId} {r : Rule}
    (h : Settled path cuts id r) (hcuts : ∀ c ∈ cuts, c ∈ cuts') : Settled path cuts' id r :=
  h.imp_right fun hc => hcuts _ hc

theorem Settled.congr {cuts : List Cut} {id : RuleId} {r : Rule} (h : Settled path cuts id r)
    (hsame : path' r.lhs = path r.lhs) : Settled path' cuts id r := by
  unfold Settled cutOf trim at h ⊢
  rwa [hsame]

/-- A way that ends keeps ending when the paths change elsewhere only. -/
theorem acc_spares_congr (closed : Symbol → Prop) (hsame : ∀ a, closed a → path' a = path a)
    (hstay : ∀ a b, closed a → Spares g path a b → closed b) {a : Symbol} (ha : closed a)
    (h : Acc (fun b a => Spares g path a b) a) : Acc (fun b a => Spares g path' a b) a := by
  induction h with
  | intro a _ ih =>
    refine Acc.intro a fun b hab => ?_
    obtain ⟨hleads, hpath⟩ := hab
    have hspared : Spares g path a b := ⟨hleads, hsame a ha ▸ hpath⟩
    exact ih b hspared (hstay a b ha hspared)

end Paths

/-! ## Closing a symbol -/

section Step

variable {path : Paths} {t : Symbol} {v : Visit} {pending : List Visit} {outer : List Opened}
  {onPath finished : Std.ExtTreeSet Symbol} {cuts cuts' : List Cut}

/-- Closing an open symbol leaves the same symbols opened. -/
theorem entered_close_iff (ht : t ∈ onPath) {x : Symbol} :
    Entered (onPath.erase t) (finished.insert t) x ↔ Entered onPath finished x := by
  by_cases hx : t = x
  · subst hx
    simp [Entered, ht]
  · simp [Entered, hx]

theorem Search.close (hw : Search g root path ⟨⟨t, []⟩ :: outer, onPath, finished, cuts⟩) :
    Search g root path ⟨outer, onPath.erase t, finished.insert t, cuts⟩ := by
  obtain ⟨hpath, ht, houter⟩ := hw.stack_path
  dsimp only at hpath ht houter
  have hentered : ∀ {x}, Entered (onPath.erase t) (finished.insert t) x ↔
      Entered onPath finished x := entered_close_iff ht
  -- every occurrence was looked at, so what is not on the path was closed before
  have hlooked : ∀ x, g.Leads t x → x ∈ onPath ∨ x ∈ finished := by
    intro x hx
    rcases hw.looked _ List.mem_cons_self x hx with hx | hx
    · cases hx
    · exact hx
  refine ⟨houter, ?_, ?_, ?_, ?_, ?_, ?_, hentered.2 hw.root_entered⟩
  · intro f hf
    exact hw.to_look f (List.mem_cons_of_mem _ hf)
  · intro f hf x hx
    exact (hw.looked f (List.mem_cons_of_mem _ hf) x hx).imp_right hentered.2
  · intro a ha x hx
    rcases Std.ExtTreeSet.mem_insert.1 ha with ha | ha
    · rw [Std.compare_eq_iff_eq] at ha
      subst ha
      rcases hlooked x hx with hx | hx
      · exact Or.inl ⟨hpath ▸ hx, hentered.2 (Or.inl hx)⟩
      · exact Or.inr (Std.ExtTreeSet.mem_insert.2 (Or.inr hx))
    · rcases hw.closed a ha x hx with ⟨hx, hx'⟩ | hx
      · exact Or.inl ⟨hx, hentered.2 hx'⟩
      · exact Or.inr (Std.ExtTreeSet.mem_insert.2 (Or.inr hx))
  · intro a ha
    rcases Std.ExtTreeSet.mem_insert.1 ha with ha | ha
    · rw [Std.compare_eq_iff_eq] at ha
      subst ha
      refine Acc.intro t fun b hb => ?_
      obtain ⟨hleads, hoff⟩ := hb
      rcases hlooked b hleads with hb | hb
      · exact absurd (hpath ▸ hb) hoff
      · exact hw.ends b hb
    · exact hw.ends a ha
  · intro a x hx
    exact (hw.path_reaches a x hx).imp_left hentered.2
  · intro a ha
    refine Relation.ReflTransGen.mono ?_ _ _ (hw.tree a (hentered.1 ha))
    intro b c h
    exact ⟨hentered.2 h.1, h.2⟩

theorem Ledger.close (hw : Ledger g path ⟨⟨t, []⟩ :: outer, onPath, finished, cuts⟩)
    (ht : t ∈ onPath) : Ledger g path ⟨outer, onPath.erase t, finished.insert t, cuts⟩ := by
  refine ⟨?_, ?_, ?_, ?_⟩
  · intro f hf
    exact hw.to_settle f (List.mem_cons_of_mem _ hf)
  · intro f hf
    exact hw.settled f (List.mem_cons_of_mem _ hf)
  · intro a ha id rhs hr
    rcases Std.ExtTreeSet.mem_insert.1 ha with ha | ha
    · rw [Std.compare_eq_iff_eq] at ha
      subst ha
      rcases hw.settled _ List.mem_cons_self id rhs hr with h | h
      · cases h
      · exact h
    · exact hw.finished_settled a ha id rhs hr
  · intro c hc
    obtain ⟨r, hr, hlhs, hcut⟩ := hw.cuts_sound c hc
    exact ⟨r, hr, (entered_close_iff ht).2 hlhs, hcut⟩

/-! ## Going on in a symbol -/

/-- The search goes on when the next thing to do is done and no symbol need be opened for it. -/
theorem Search.next (hw : Search g root path ⟨⟨t, v :: pending⟩ :: outer, onPath, finished, cuts⟩)
    (hv : ∀ x, v = .occurrence x → x ∈ onPath ∨ x ∈ finished) :
    Search g root path ⟨⟨t, pending⟩ :: outer, onPath, finished, cuts'⟩ := by
  refine ⟨hw.stack_path, ?_, ?_, hw.closed, hw.ends, hw.path_reaches, hw.tree, hw.root_entered⟩
  · intro f hf x hx
    rcases List.mem_cons.1 hf with rfl | hf
    · exact hw.to_look ⟨t, v :: pending⟩ List.mem_cons_self x (List.mem_cons_of_mem _ hx)
    · exact hw.to_look f (List.mem_cons_of_mem _ hf) x hx
  · intro f hf x hx
    rcases List.mem_cons.1 hf with rfl | hf
    · rcases hw.looked ⟨t, v :: pending⟩ List.mem_cons_self x hx with h | h
      · rcases List.mem_cons.1 h with h | h
        · exact Or.inr (hv x h.symm)
        · exact Or.inl h
      · exact Or.inr h
    · exact hw.looked f (List.mem_cons_of_mem _ hf) x hx

theorem Ledger.look {x : Symbol}
    (hw : Ledger g path ⟨⟨t, .occurrence x :: pending⟩ :: outer, onPath, finished, cuts⟩) :
    Ledger g path ⟨⟨t, pending⟩ :: outer, onPath, finished, cuts⟩ := by
  refine ⟨?_, ?_, hw.finished_settled, hw.cuts_sound⟩
  · intro f hf id rhs h
    rcases List.mem_cons.1 hf with rfl | hf
    · exact hw.to_settle ⟨t, .occurrence x :: pending⟩ List.mem_cons_self id rhs
        (List.mem_cons_of_mem _ h)
    · exact hw.to_settle f (List.mem_cons_of_mem _ hf) id rhs h
  · intro f hf id rhs hr
    rcases List.mem_cons.1 hf with rfl | hf
    · rcases hw.settled ⟨t, .occurrence x :: pending⟩ List.mem_cons_self id rhs hr with h | h
      · exact Or.inl (List.mem_of_ne_of_mem (by simp) h)
      · exact Or.inr h
    · exact hw.settled f (List.mem_cons_of_mem _ hf) id rhs hr

/-- Settling a production, with its cut listed if it has one. -/
theorem Ledger.settle {id : RuleId} {rhs : List Symbol}
    (hw : Ledger g path ⟨⟨t, .settle id rhs :: pending⟩ :: outer, onPath, finished, cuts⟩)
    (hpath : path t = onPath) (ht : t ∈ onPath)
    (hcuts : cuts' = if (keep onPath rhs).length = rhs.length then cuts
      else ⟨id, keep onPath rhs, rhs.length - (keep onPath rhs).length⟩ :: cuts) :
    Ledger g path ⟨⟨t, pending⟩ :: outer, onPath, finished, cuts'⟩ := by
  have hrule : g.rules[id]? = some ⟨t, rhs⟩ :=
    hw.to_settle _ List.mem_cons_self id rhs List.mem_cons_self
  have htrim : trim path ⟨t, rhs⟩ = keep onPath rhs := by rw [trim, hpath]
  have hmore : ∀ c ∈ cuts, c ∈ cuts' := by
    intro c hc
    rw [hcuts]
    split
    · exact hc
    · exact List.mem_cons_of_mem _ hc
  have hself : Settled path cuts' id ⟨t, rhs⟩ := by
    rw [Settled, cutOf, htrim, hcuts]
    split
    next hlen => exact Or.inl (List.filter_sublist.eq_of_length hlen)
    next => exact Or.inr List.mem_cons_self
  refine ⟨?_, ?_, ?_, ?_⟩
  · intro f hf i rhs' h
    rcases List.mem_cons.1 hf with rfl | hf
    · exact hw.to_settle ⟨t, .settle id rhs :: pending⟩ List.mem_cons_self i rhs'
        (List.mem_cons_of_mem _ h)
    · exact hw.to_settle f (List.mem_cons_of_mem _ hf) i rhs' h
  · intro f hf i rhs' hr
    rcases List.mem_cons.1 hf with rfl | hf
    · rcases hw.settled ⟨t, .settle id rhs :: pending⟩ List.mem_cons_self i rhs' hr with h | h
      · rcases List.mem_cons.1 h with h | h
        · cases h
          exact Or.inr hself
        · exact Or.inl h
      · exact Or.inr (h.mono hmore)
    · exact (hw.settled f (List.mem_cons_of_mem _ hf) i rhs' hr).imp_right (·.mono hmore)
  · intro a ha i rhs' hr
    exact (hw.finished_settled a ha i rhs' hr).mono hmore
  · intro c hc
    rw [hcuts] at hc
    split at hc
    next => exact hw.cuts_sound c hc
    next hlen =>
      rcases List.mem_cons.1 hc with rfl | hc
      · refine ⟨⟨t, rhs⟩, hrule, Or.inl ht, ?_, ?_⟩
        · rw [cutOf, htrim]
        · rw [htrim]
          intro heq
          exact hlen (congrArg List.length heq)
      · exact hw.cuts_sound c hc

/-! ## Opening a symbol -/

/-- The paths after `x` was opened on `onPath`. -/
def openPath (path : Paths) (onPath : Std.ExtTreeSet Symbol) (x : Symbol) : Paths := fun a =>
  if a = x then onPath.insert x else path a

theorem openPath_self (x : Symbol) : openPath path onPath x x = onPath.insert x := if_pos rfl

theorem openPath_of_ne {x a : Symbol} (h : a ≠ x) : openPath path onPath x a = path a := if_neg h

theorem entered_enter_iff {x a : Symbol} :
    Entered (onPath.insert x) finished a ↔ a = x ∨ Entered onPath finished a := by
  simp [Entered, or_assoc, eq_comm (a := a)]

theorem Search.enter (hg : g.Indexed) {x : Symbol}
    (hw : Search g root path ⟨⟨t, .occurrence x :: pending⟩ :: outer, onPath, finished, cuts⟩)
    (hpath : x ∉ onPath) (hfinished : x ∉ finished) :
    Search g root (openPath path onPath x)
      ⟨Survey.enter g x :: ⟨t, pending⟩ :: outer, onPath.insert x, finished, cuts⟩ := by
  have hleads : g.Leads t x := hw.to_look _ List.mem_cons_self x List.mem_cons_self
  have htop : path t = onPath := hw.stack_path.1
  have ht : t ∈ onPath := hw.stack_path.2.1
  have hentered : ∀ {a}, Entered (onPath.insert x) finished a ↔
      a = x ∨ Entered onPath finished a := entered_enter_iff
  have hnew : ∀ a, Entered onPath finished a → openPath path onPath x a = path a := by
    intro a ha
    apply openPath_of_ne
    rintro rfl
    exact ha.elim hpath hfinished
  refine ⟨⟨openPath_self x, ?_, ?_⟩, ?_, ?_, ?_, ?_, ?_, ?_, ?_⟩
  · simp [Survey.enter]
  · have hstack : StackPath path onPath (⟨t, pending⟩ :: outer) := hw.stack_path
    show StackPath _ ((onPath.insert x).erase x) _
    rw [erase_insert_of_not_mem hpath]
    exact hstack.congr fun a ha => hnew a (Or.inl ha)
  · intro f hf y hy
    rcases List.mem_cons.1 hf with rfl | hf
    · exact (occurrence_mem_visits hg).1 hy
    · rcases List.mem_cons.1 hf with rfl | hf
      · exact hw.to_look _ List.mem_cons_self y (List.mem_cons_of_mem _ hy)
      · exact hw.to_look f (List.mem_cons_of_mem _ hf) y hy
  · intro f hf y hy
    rcases List.mem_cons.1 hf with rfl | hf
    · exact Or.inl ((occurrence_mem_visits hg).2 hy)
    · rcases List.mem_cons.1 hf with rfl | hf
      · rcases hw.looked _ List.mem_cons_self y hy with h | h
        · rcases List.mem_cons.1 h with h | h
          · cases h
            exact Or.inr (hentered.2 (Or.inl rfl))
          · exact Or.inl h
        · exact Or.inr (hentered.2 (Or.inr h))
      · exact (hw.looked f (List.mem_cons_of_mem _ hf) y hy).imp_right
          fun h => hentered.2 (Or.inr h)
  · intro a ha y hy
    rw [hnew a (Or.inr ha)]
    rcases hw.closed a ha y hy with ⟨hy, hy'⟩ | hy
    · exact Or.inl ⟨hy, hentered.2 (Or.inr hy')⟩
    · exact Or.inr hy
  · intro a ha
    refine acc_spares_congr (· ∈ finished) (fun b hb => hnew b (Or.inr hb)) ?_ ha (hw.ends a ha)
    intro b c hb hbc
    rcases hw.closed b hb c hbc.1 with ⟨hc, -⟩ | hc
    · exact absurd hc hbc.2
    · exact hc
  · intro a y hy
    by_cases hax : a = x
    · subst hax
      refine ⟨hentered.2 (Or.inl rfl), ?_⟩
      rw [openPath_self] at hy
      rcases Std.ExtTreeSet.mem_insert.1 hy with hy | hy
      · rw [Std.compare_eq_iff_eq.1 hy]
        exact Relation.ReflTransGen.refl
      · exact (hw.path_reaches t y (htop ▸ hy)).2.tail hleads
    · rw [openPath_of_ne hax] at hy
      exact (hw.path_reaches a y hy).imp_left fun ha => hentered.2 (Or.inr ha)
  · have hgrow : ∀ a, Entered onPath finished a →
        Relation.ReflTransGen
          (fun a b => Entered (onPath.insert x) finished a ∧
            Spares g (openPath path onPath x) a b) root a := by
      intro a ha
      refine Relation.ReflTransGen.mono ?_ _ _ (hw.tree a ha)
      intro b c h
      exact ⟨hentered.2 (Or.inr h.1), h.2.1, by rw [hnew b h.1]; exact h.2.2⟩
    intro a ha
    rcases hentered.1 ha with rfl | ha
    · refine (hgrow t (Or.inl ht)).tail ⟨hentered.2 (Or.inr (Or.inl ht)), hleads, ?_⟩
      rw [hnew t (Or.inl ht), htop]
      exact hpath
    · exact hgrow a ha
  · exact hentered.2 (Or.inr hw.root_entered)

theorem Ledger.enter (hg : g.Indexed) {x : Symbol}
    (hw : Ledger g path ⟨⟨t, .occurrence x :: pending⟩ :: outer, onPath, finished, cuts⟩)
    (hopen : ∀ f ∈ outer, f.symbol ∈ onPath) (ht : t ∈ onPath)
    (hpath : x ∉ onPath) (hfinished : x ∉ finished) :
    Ledger g (openPath path onPath x)
      ⟨Survey.enter g x :: ⟨t, pending⟩ :: outer, onPath.insert x, finished, cuts⟩ := by
  have hnew : ∀ a, Entered onPath finished a → openPath path onPath x a = path a := by
    intro a ha
    apply openPath_of_ne
    rintro rfl
    exact ha.elim hpath hfinished
  obtain ⟨hto, hsettled, hclosed, hsound⟩ := hw.look
  refine ⟨?_, ?_, ?_, ?_⟩
  · intro f hf id rhs h
    rcases List.mem_cons.1 hf with rfl | hf
    · exact (settle_mem_visits hg).1 h
    · exact hto f hf id rhs h
  · intro f hf id rhs hr
    rcases List.mem_cons.1 hf with rfl | hf
    · exact Or.inl ((settle_mem_visits hg).2 hr)
    · have hf' : f.symbol ∈ onPath := by
        rcases List.mem_cons.1 hf with rfl | hf
        · exact ht
        · exact hopen f hf
      exact (hsettled f hf id rhs hr).imp_right (·.congr (hnew _ (Or.inl hf')))
  · intro a ha id rhs hr
    exact (hclosed a ha id rhs hr).congr (hnew a (Or.inr ha))
  · intro c hc
    obtain ⟨r, hr, hlhs, hcut, htrim⟩ := hsound c hc
    have hsame := hnew r.lhs hlhs
    refine ⟨r, hr, entered_enter_iff.2 (Or.inr hlhs), ?_, ?_⟩
    · unfold cutOf trim at hcut ⊢
      rwa [hsame]
    · unfold trim at htrim ⊢
      rwa [hsame]

end Step

/-! ## The whole survey -/

theorem Search.start (hg : g.Indexed) (root : Symbol) :
    Search g root (openPath (fun _ => ∅) ∅ root) (start g root) := by
  have hroot : root ∈ ({root} : Std.ExtTreeSet Symbol) := by simp
  refine ⟨⟨openPath_self root, hroot, ?_⟩, ?_, ?_, ?_, ?_, ?_, ?_, Or.inl hroot⟩
  · show (({root} : Std.ExtTreeSet Symbol).erase root) = ∅
    apply Std.ExtTreeSet.ext_mem
    simp
  · intro f hf x hx
    rw [List.mem_singleton.1 hf] at hx ⊢
    exact (occurrence_mem_visits hg).1 hx
  · intro f hf x hx
    rw [List.mem_singleton.1 hf] at hx ⊢
    exact Or.inl ((occurrence_mem_visits hg).2 hx)
  · intro a ha
    simp [Survey.start] at ha
  · intro a ha
    simp [Survey.start] at ha
  · intro a x hx
    by_cases ha : a = root
    · subst ha
      have hax : a = x := by simpa [openPath_self] using hx
      rw [← hax]
      exact ⟨Or.inl hroot, Relation.ReflTransGen.refl⟩
    · simp [openPath_of_ne ha] at hx
  · intro a ha
    have hra : root = a := by simpa [Survey.start, Entered] using ha
    rw [hra]

theorem Ledger.start (hg : g.Indexed) (root : Symbol) :
    Ledger g (openPath (fun _ => ∅) ∅ root) (start g root) := by
  refine ⟨?_, ?_, ?_, ?_⟩
  · intro f hf id rhs h
    rw [List.mem_singleton.1 hf] at h ⊢
    exact (settle_mem_visits hg).1 h
  · intro f hf id rhs hr
    rw [List.mem_singleton.1 hf] at hr ⊢
    exact Or.inl ((settle_mem_visits hg).2 hr)
  · intro a ha
    simp [Survey.start] at ha
  · intro c hc
    simp [Survey.start] at hc

/-- The paths after the innermost open symbol was noted with the path it stands on. -/
def noted (path : Paths) (w : Survey) : Paths :=
  match w.stack with
  | [] => path
  | f :: _ => fun a => if a = f.symbol then w.onPath else path a

/-- The paths that a survey leaves, each noted when its symbol is opened. -/
def record (g : Grammar) (w : Survey) (path : Paths) : Paths :=
  match _h : step g w with
  | none => path
  | some w' => record g w' (noted path w')
termination_by work g w
decreasing_by exact work_step_lt _h

/-- The path on which each symbol is opened in the survey that starts at `root`. -/
def paths (g : Grammar) (root : Symbol) : Paths :=
  record g (start g root) (openPath (fun _ => ∅) ∅ root)

theorem record_of_step_eq_none {path : Paths} {w : Survey} (h : step g w = none) :
    record g w path = path := by
  rw [record]
  split <;> simp_all

theorem record_of_step_eq_some {path : Paths} {w w' : Survey} (h : step g w = some w') :
    record g w path = record g w' (noted path w') := by
  rw [record]
  split <;> simp_all

/-- Noting the innermost open symbol again changes nothing. -/
theorem StackPath.noted_eq {path : Paths} {w : Survey} (h : StackPath path w.onPath w.stack) :
    noted path w = path := by
  obtain ⟨stack, onPath, finished, cuts⟩ := w
  cases stack with
  | nil => rfl
  | cons f outer =>
    have htop : path f.symbol = onPath := h.1
    funext a
    show (if a = f.symbol then onPath else path a) = path a
    split
    next ha => rw [ha, htop]
    next => rfl

/-- Every step keeps the order of the search and the ledger of the cuts, with the symbol noted that
it opens. -/
theorem step_keeps (hg : g.WellFormed) {path : Paths} {w w' : Survey}
    (hsearch : Search g root path w) (hledger : Ledger g path w) (h : step g w = some w') :
    Search g root (noted path w') w' ∧ Ledger g (noted path w') w' := by
  cases Move.of_step h with
  | close =>
    have hsearch' := hsearch.close
    rw [hsearch'.stack_path.noted_eq]
    exact ⟨hsearch', hledger.close hsearch.stack_path.2.1⟩
  | @settle t id rhs pending outer onPath finished cuts cuts' hcuts =>
    obtain ⟨htop, ht, -⟩ := hsearch.stack_path
    have hsearch' : Search g root path ⟨⟨t, pending⟩ :: outer, onPath, finished, cuts'⟩ :=
      hsearch.next (by simp)
    rw [hsearch'.stack_path.noted_eq]
    exact ⟨hsearch', hledger.settle htop ht hcuts⟩
  | @look t x pending outer onPath finished cuts hx =>
    have hleads : g.Leads t x := hsearch.to_look _ List.mem_cons_self x List.mem_cons_self
    have hsearch' : Search g root path ⟨⟨t, pending⟩ :: outer, onPath, finished, cuts⟩ := by
      apply hsearch.next
      intro y hy
      cases hy
      exact hx.resolve_right fun hunknown => hunknown (hg.leads_known hleads)
    rw [hsearch'.stack_path.noted_eq]
    exact ⟨hsearch', hledger.look⟩
  | @enter t x pending outer onPath finished cuts hon hfinished =>
    refine ⟨hsearch.enter hg.toIndexed hon hfinished, ?_⟩
    refine hledger.enter hg.toIndexed ?_ hsearch.stack_path.2.1 hon hfinished
    intro f hf
    exact hsearch.stack_path.mem f (List.mem_cons_of_mem _ hf)

/-- What every step keeps, with the symbol noted that it opens, holds of the paths recorded. -/
theorem record_keeps {P : Paths → Survey → Prop}
    (hstep : ∀ {path : Paths} {w w' : Survey}, P path w → step g w = some w' →
      P (noted path w') w') (w : Survey) :
    ∀ path, P path w → P (record g w path) (run g w) := by
  induction w using run.induct g with
  | case1 w h =>
    intro path hpath
    rwa [run_of_step_eq_none h, record_of_step_eq_none h]
  | case2 w w' h ih =>
    intro path hpath
    rw [run_of_step_eq_some h, record_of_step_eq_some h]
    exact ih _ (hstep hpath h)

/-- The survey ends with no symbol open. -/
theorem stack_run (w : Survey) : (run g w).stack = [] := by
  induction w using run.induct g with
  | case1 w h =>
    rw [run_of_step_eq_none h]
    exact stack_of_step_eq_none h
  | case2 w w' h ih =>
    rw [run_of_step_eq_some h]
    exact ih

/-- An opened symbol can be reached. -/
theorem Search.reaches {path : Paths} {w : Survey} (hw : Search g root path w) {a : Symbol}
    (ha : Entered w.onPath w.finished a) : g.Reaches root a := by
  refine Relation.ReflTransGen.mono ?_ _ _ (hw.tree a ha)
  intro b c h
  exact h.2.1

/-- A survey that kept its order and its ledger to the end has made a plan. -/
theorem Search.plan {path : Paths} {w : Survey} (hsearch : Search g root path w)
    (hledger : Ledger g path w) (hstack : w.stack = []) :
    Plan g root path w.cuts.reverse := by
  have hempty : w.onPath = ∅ := by
    have := hsearch.stack_path
    rwa [hstack] at this
  have hentered : ∀ a, Entered w.onPath w.finished a ↔ a ∈ w.finished := by
    simp [Entered, hempty]
  -- what was opened is what can be reached
  have hreached : ∀ a, g.Reaches root a ↔ a ∈ w.finished := by
    intro a
    constructor
    · intro ha
      induction ha with
      | refl => exact (hentered root).1 hsearch.root_entered
      | tail _ hbc ih =>
        rcases hsearch.closed _ ih _ hbc with ⟨-, hc⟩ | hc
        · exact (hentered _).1 hc
        · exact hc
    · intro ha
      exact hsearch.reaches ((hentered a).2 ha)
  refine ⟨?_, ?_, ?_, ?_, ?_⟩
  · intro c hc
    obtain ⟨r, hr, hlhs, hcut⟩ := hledger.cuts_sound c (List.mem_reverse.1 hc)
    exact ⟨r, hr, (hreached _).2 ((hentered _).1 hlhs), hcut⟩
  · intro id r hr
    by_cases hlhs : r.lhs ∈ w.finished
    · refine (hledger.finished_settled _ hlhs id r.rhs hr).mono ?_
      intro c hc
      exact List.mem_reverse.2 hc
    · refine Or.inl (trim_eq_self fun x _ hx => hlhs ?_)
      exact (hentered _).1 (hsearch.path_reaches r.lhs x hx).1
  · intro a x hx
    exact (hsearch.path_reaches a x hx).imp_left fun ha => (hreached a).2 ((hentered a).1 ha)
  · intro a ha
    refine Relation.ReflTransGen.mono ?_ _ _ (hsearch.tree a ((hentered a).2 ((hreached a).1 ha)))
    intro b c h
    exact h.2
  · exact hsearch.ends root ((hentered root).1 hsearch.root_entered)

end Recursion.Survey

/-- The cuts of a grammar's loops follow the plan that its survey makes. -/
theorem Grammar.WellFormed.plan {g : Grammar} (hg : g.WellFormed) (root : Symbol) :
    Recursion.Survey.Plan g root (Recursion.Survey.paths g root) (g.loopCuts root) := by
  obtain ⟨hsearch, hledger⟩ := Recursion.Survey.record_keeps
    (P := fun path w => Recursion.Survey.Search g root path w ∧ Recursion.Survey.Ledger g path w)
    (fun hkept hstep => Recursion.Survey.step_keeps hg hkept.1 hkept.2 hstep)
    (Recursion.Survey.start g root) _ ⟨.start hg.toIndexed root, .start hg.toIndexed root⟩
  exact hsearch.plan hledger (Recursion.Survey.stack_run _)

end EditableGrammar
