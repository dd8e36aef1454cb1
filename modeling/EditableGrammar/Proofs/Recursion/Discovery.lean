import EditableGrammar.Proofs.Grammar.History
import EditableGrammar.Proofs.Grammar.Merging
import EditableGrammar.Proofs.Recursion.Content

set_option autoImplicit false

/-!
# Cutting loops, said by recursion

Which occurrences are cut can be said without a survey and without a grammar that changes: a
depth-first discovery of the symbols, by recursion, that reads nothing but the rules there were.  A
discovered symbol is given a path when it is discovered, the path of the symbol that mentions it and
itself; in a symbol everything that its rules mention is looked at, the rules in the order of their
right-hand sides.  A rule then loses the symbols on the path of its left-hand side.

The survey goes the same way (`record_explore`): what the recursion does below a symbol is what the
survey does until it closes that symbol.  The rules are brought one after the other to what the
discovery leaves of them, so what remains of rules that become equal is known from `Merged`.
-/

namespace EditableGrammar

namespace Recursion

/-- The discovered symbols, each with its path. -/
abbrev Discovery := Std.ExtTreeMap Symbol (Std.ExtTreeSet Symbol)

namespace Discovery

/-- The path of a symbol; the path of an undiscovered symbol is empty. -/
def pathOf (found : Discovery) (s : Symbol) : Std.ExtTreeSet Symbol := found[s]?.getD ∅

/-- What is left of a rule: a rule of a discovered symbol loses the symbols on its path. -/
def prune (found : Discovery) (r : Rule) : Rule :=
  match found[r.lhs]? with
  | none => r
  | some path => ⟨r.lhs, r.rhs.filter fun x => !path.contains x⟩

/-- The symbols that the rules of `s` mention, in the order of the right-hand sides, each from left
to right. -/
def mentioned (g : Grammar) (s : Symbol) : List Symbol :=
  (g.ruleSet.toList.filter (·.lhs == s)).flatMap Rule.rhs

/-! ## The discovery -/

/-- Everything that was discovered before is discovered, on the same path. -/
def Grown (found found' : Discovery) : Prop :=
  ∀ (a : Symbol) (path : Std.ExtTreeSet Symbol), found[a]? = some path → found'[a]? = some path

/-- What there is to look at, at most, in the symbols that are not discovered. -/
def undiscovered (g : Grammar) (found : Discovery) : Nat :=
  unseen (fun s => (mentioned g s).length) (g.ruleSet.toList.map Rule.lhs) found.contains

section Grown

variable {found found' found'' : Discovery}

theorem Grown.refl : Grown found found := fun _ _ ha => ha

theorem Grown.trans (h : Grown found found') (h' : Grown found' found'') : Grown found found'' :=
  fun a path ha => h' a path (h a path ha)

theorem Grown.insert {x : Symbol} (hx : x ∉ found) (path : Std.ExtTreeSet Symbol) :
    Grown found (found.insert x path) := by
  intro a path' ha
  rw [Std.ExtTreeMap.getElem?_insert, if_neg, ha]
  intro hxa
  rw [Std.compare_eq_iff_eq] at hxa
  subst hxa
  rw [Std.ExtTreeMap.getElem?_eq_none hx] at ha
  cases ha

theorem Grown.contains (h : Grown found found') (a : Symbol) (ha : found.contains a = true) :
    found'.contains a = true := by
  rw [Std.ExtTreeMap.contains_eq_isSome_getElem?, Option.isSome_iff_exists] at ha ⊢
  obtain ⟨path, hpath⟩ := ha
  exact ⟨path, h a path hpath⟩

theorem Grown.undiscovered_le (g : Grammar) (h : Grown found found') :
    undiscovered g found' ≤ undiscovered g found :=
  unseen_le _ _ h.contains

/-- Discovering a symbol pays for looking at everything that its rules mention. -/
theorem undiscovered_insert_add_le (g : Grammar) {x : Symbol} (hx : x ∉ found)
    (path : Std.ExtTreeSet Symbol) :
    undiscovered g (found.insert x path) + (mentioned g x).length ≤ undiscovered g found := by
  have hgrown : Grown found (found.insert x path) := .insert hx path
  by_cases hrules : x ∈ g.ruleSet.toList.map Rule.lhs
  · have hbefore : found.contains x = false := by
      rwa [← Bool.not_eq_true, Std.ExtTreeMap.contains_iff_mem]
    exact unseen_add_le (fun s => (mentioned g s).length) hgrown.contains hrules hbefore
      Std.ExtTreeMap.contains_insert_self
  · have hnone : g.ruleSet.toList.filter (·.lhs == x) = [] := by
      rw [List.filter_eq_nil_iff]
      intro r hr hlhs
      exact hrules (List.mem_map.2 ⟨r, hr, beq_iff_eq.1 hlhs⟩)
    rw [mentioned, hnone]
    exact hgrown.undiscovered_le g

end Grown

/-- Look at symbols one after the other.  A symbol that is on the path or was discovered before is
passed over.  Any other symbol is discovered on the path that it prolongs, and everything that its
rules mention is looked at before the next symbol is. -/
def explore (g : Grammar) (path : Std.ExtTreeSet Symbol) (found : Discovery) :
    List Symbol → { found' : Discovery // Grown found found' }
  | [] => ⟨found, .refl⟩
  | x :: rest =>
    if h : x ∈ path ∨ x ∈ found then explore g path found rest
    else
      let ⟨below, hbelow⟩ :=
        explore g (path.insert x) (found.insert x (path.insert x)) (mentioned g x)
      let ⟨all, hall⟩ := explore g path below rest
      ⟨all, ((Grown.insert (not_or.1 h).2 _).trans hbelow).trans hall⟩
termination_by symbols => undiscovered g found + symbols.length
decreasing_by
  · simp
  · have := undiscovered_insert_add_le g (not_or.1 h).2 (path.insert x)
    simp only [List.length_cons]
    omega
  · have := ((Grown.insert (not_or.1 h).2 _).trans hbelow).undiscovered_le g
    simp only [List.length_cons]
    omega

/-- What is discovered from `s`, which stands on its own path. -/
def discovery (g : Grammar) (s : Symbol) : Discovery :=
  (explore g {s} ((∅ : Discovery).insert s {s}) (mentioned g s)).1

section Explore

variable {g : Grammar} {path : Std.ExtTreeSet Symbol} {found : Discovery} {x : Symbol}
  {rest : List Symbol}

theorem explore_nil : (explore g path found []).1 = found := by
  rw [explore]

theorem explore_passed (h : x ∈ path ∨ x ∈ found) :
    (explore g path found (x :: rest)).1 = (explore g path found rest).1 := by
  rw [explore, dif_pos h]

theorem explore_new (h : ¬(x ∈ path ∨ x ∈ found)) :
    (explore g path found (x :: rest)).1 =
      (explore g path
        (explore g (path.insert x) (found.insert x (path.insert x)) (mentioned g x)).1 rest).1 := by
  rw [explore, dif_neg h]

end Explore

/-! ## The survey goes the same way -/

section Survey

open Survey

variable {g : Grammar} {t x : Symbol} {pending : List Visit} {outer : List Opened}
  {onPath finished : Std.ExtTreeSet Symbol} {cuts : List Cut} {found : Discovery}
  {rest : List Symbol}

/-- The occurrences among the things to do in a symbol. -/
def occurrences (pending : List Visit) : List Symbol :=
  pending.filterMap fun
    | .occurrence x => some x
    | .settle _ _ => none

/-- The right-hand sides of a symbol are looked at in the order of its rules. -/
theorem contents_eq_rules (hg : g.Indexed) (s : Symbol) :
    (productionsByContent g s).map Prod.snd =
      (g.ruleSet.toList.filter (·.lhs == s)).map Rule.rhs := by
  refine eq_of_strictly_ordered (ordered_contents hg s) ?_ ?_
  · rw [List.pairwise_map]
    refine ((Std.ExtTreeSet.ordered_toList (t := g.ruleSet)).filter _).imp_of_mem ?_
    intro a b ha hb hab
    have hlhs : a.lhs = b.lhs :=
      (beq_iff_eq.1 (List.mem_filter.1 ha).2).trans (beq_iff_eq.1 (List.mem_filter.1 hb).2).symm
    have hself : compare b.lhs b.lhs = .eq := Std.ReflCmp.compare_self
    rwa [Rule.compare_eq, hlhs, hself] at hab
  · intro rhs
    rw [mem_contents hg, List.mem_map]
    constructor
    · intro hr
      exact ⟨⟨s, rhs⟩, List.mem_filter.2 ⟨Std.ExtTreeSet.mem_toList.2 hr, by simp⟩, rfl⟩
    · rintro ⟨⟨lhs, rhs'⟩, hr, rfl⟩
      obtain ⟨hr, hlhs⟩ := List.mem_filter.1 hr
      rw [← beq_iff_eq.1 hlhs]
      exact Std.ExtTreeSet.mem_toList.1 hr

/-- What is looked at in a symbol is what its rules mention. -/
theorem occurrences_visits (hg : g.Indexed) (s : Symbol) :
    occurrences (visits g s) = mentioned g s := by
  have hvisit : ∀ production : RuleId × List Symbol,
      occurrences (production.2.map .occurrence ++ [.settle production.1 production.2]) =
        production.2 := by
    intro production
    simp [occurrences, List.filterMap_map]
  calc occurrences (visits g s)
      = (productionsByContent g s).flatMap Prod.snd := by
        rw [visits, occurrences, List.filterMap_flatMap]
        exact List.flatMap_congr fun production _ => hvisit production
    _ = ((productionsByContent g s).map Prod.snd).flatten := List.flatMap_def ..
    _ = mentioned g s := by rw [contents_eq_rules hg, mentioned, List.flatMap_def]

theorem pathOf_of_getElem? {path : Std.ExtTreeSet Symbol} (h : found[t]? = some path) :
    found.pathOf t = path := by
  rw [pathOf, h]
  rfl

/-- Noting a path that was noted before changes nothing. -/
theorem noted_pathOf (h : found[t]? = some onPath) :
    noted found.pathOf ⟨⟨t, pending⟩ :: outer, onPath, finished, cuts⟩ = found.pathOf := by
  funext a
  show (if a = t then onPath else found.pathOf a) = found.pathOf a
  split
  next ha => rw [ha, pathOf_of_getElem? h]
  next => rfl

/-- Settling a production notes nothing. -/
theorem record_settle (h : found[t]? = some onPath) (id : RuleId) (rhs : List Symbol) :
    ∃ cuts', record g ⟨⟨t, .settle id rhs :: pending⟩ :: outer, onPath, finished, cuts⟩
        found.pathOf =
      record g ⟨⟨t, pending⟩ :: outer, onPath, finished, cuts'⟩ found.pathOf := by
  by_cases hlen : (keep onPath rhs).length = rhs.length
  · have hstep : step g ⟨⟨t, .settle id rhs :: pending⟩ :: outer, onPath, finished, cuts⟩ =
        some ⟨⟨t, pending⟩ :: outer, onPath, finished, cuts⟩ := by
      simp [step, hlen]
    exact ⟨cuts, by rw [record_of_step_eq_some hstep, noted_pathOf h]⟩
  · have hstep : step g ⟨⟨t, .settle id rhs :: pending⟩ :: outer, onPath, finished, cuts⟩ =
        some ⟨⟨t, pending⟩ :: outer, onPath, finished,
          ⟨id, keep onPath rhs, rhs.length - (keep onPath rhs).length⟩ :: cuts⟩ := by
      simp [step, hlen]
    exact ⟨_, by rw [record_of_step_eq_some hstep, noted_pathOf h]⟩

/-- Productions are settled until there is nothing left to look at. -/
theorem record_settle_all (h : found[t]? = some onPath) (hpending : occurrences pending = []) :
    ∃ cuts', record g ⟨⟨t, pending⟩ :: outer, onPath, finished, cuts⟩ found.pathOf =
      record g ⟨⟨t, []⟩ :: outer, onPath, finished, cuts'⟩ found.pathOf := by
  induction pending generalizing cuts with
  | nil => exact ⟨cuts, rfl⟩
  | cons v pending ih =>
    cases v with
    | occurrence x => cases hpending
    | settle id rhs =>
      obtain ⟨cuts₁, hsettled⟩ := record_settle h id rhs
      obtain ⟨cuts₂, hall⟩ := ih hpending
      exact ⟨cuts₂, hsettled.trans hall⟩

/-- Productions are settled until the next symbol is looked at. -/
theorem record_settle_until (h : found[t]? = some onPath)
    (hpending : occurrences pending = x :: rest) :
    ∃ pending' cuts', occurrences pending' = rest ∧
      record g ⟨⟨t, pending⟩ :: outer, onPath, finished, cuts⟩ found.pathOf =
        record g ⟨⟨t, .occurrence x :: pending'⟩ :: outer, onPath, finished, cuts'⟩
          found.pathOf := by
  induction pending generalizing cuts with
  | nil => cases hpending
  | cons v pending ih =>
    cases v with
    | occurrence y =>
      obtain ⟨rfl, hrest⟩ := List.cons.inj hpending
      exact ⟨pending, cuts, hrest, rfl⟩
    | settle id rhs =>
      obtain ⟨cuts₁, hsettled⟩ := record_settle h id rhs
      obtain ⟨pending', cuts₂, hrest, hnext⟩ := ih hpending
      exact ⟨pending', cuts₂, hrest, hsettled.trans hnext⟩

/-- Looking at a symbol that was opened before notes nothing. -/
theorem record_look (h : found[t]? = some onPath) (hx : Entered onPath finished x) :
    record g ⟨⟨t, .occurrence x :: pending⟩ :: outer, onPath, finished, cuts⟩ found.pathOf =
      record g ⟨⟨t, pending⟩ :: outer, onPath, finished, cuts⟩ found.pathOf := by
  have hstep : step g ⟨⟨t, .occurrence x :: pending⟩ :: outer, onPath, finished, cuts⟩ =
      some ⟨⟨t, pending⟩ :: outer, onPath, finished, cuts⟩ := by
    simp [step, entered_iff.2 hx]
  rw [record_of_step_eq_some hstep, noted_pathOf h]

/-- Opening a symbol notes the path on which it is discovered. -/
theorem record_enter (hx : ¬Entered onPath finished x) (hknown : x ∈ g.index) :
    record g ⟨⟨t, .occurrence x :: pending⟩ :: outer, onPath, finished, cuts⟩ found.pathOf =
      record g ⟨enter g x :: ⟨t, pending⟩ :: outer, onPath.insert x, finished, cuts⟩
        (pathOf (found.insert x (onPath.insert x))) := by
  have hstep : step g ⟨⟨t, .occurrence x :: pending⟩ :: outer, onPath, finished, cuts⟩ =
      some ⟨enter g x :: ⟨t, pending⟩ :: outer, onPath.insert x, finished, cuts⟩ := by
    have hentered : entered onPath finished x = false := by
      rwa [← Bool.not_eq_true, entered_iff]
    have hcontains : g.containsSymbol x = true :=
      Grammar.containsSymbol_iff.2 (Grammar.mem_symbols.2 hknown)
    simp [step, hentered, hcontains]
  rw [record_of_step_eq_some hstep]
  congr 1
  funext a
  show (if a = x then onPath.insert x else found.pathOf a) = _
  rw [pathOf, pathOf, Std.ExtTreeMap.getElem?_insert]
  by_cases ha : x = a
  · simp [ha]
  · simp [ha, Ne.symm ha]

/-- Closing a symbol notes nothing, and then the path is that of the symbol that led to it. -/
theorem record_close (h : found[t]? = some onPath) (hx : x ∉ onPath) :
    record g ⟨⟨x, []⟩ :: ⟨t, pending⟩ :: outer, onPath.insert x, finished, cuts⟩ found.pathOf =
      record g ⟨⟨t, pending⟩ :: outer, onPath, finished.insert x, cuts⟩ found.pathOf := by
  have hstep : step g ⟨⟨x, []⟩ :: ⟨t, pending⟩ :: outer, onPath.insert x, finished, cuts⟩ =
      some ⟨⟨t, pending⟩ :: outer, onPath, finished.insert x, cuts⟩ := by
    simp [step, erase_insert_of_not_mem hx]
  rw [record_of_step_eq_some hstep, noted_pathOf h]

theorem mentioned_known (hg : g.WellFormed) (s : Symbol) : ∀ x ∈ mentioned g s, x ∈ g.index := by
  intro x hx
  obtain ⟨r, hr, hx⟩ := List.mem_flatMap.1 hx
  obtain ⟨id, hid⟩ := Grammar.mem_ruleSet.1 (Std.ExtTreeSet.mem_toList.1 (List.mem_filter.1 hr).1)
  exact hg.rhs_known hid x hx

/-- While the discovery looks at some symbols, the survey does what there is to do in an open
symbol, opens what is discovered and closes it again, and has noted the same paths in the end. -/
theorem record_explore (hg : g.WellFormed) (path : Std.ExtTreeSet Symbol) (found : Discovery)
    (symbols : List Symbol) :
    ∀ (t : Symbol) (pending : List Visit) (outer : List Opened) (finished : Std.ExtTreeSet Symbol)
      (cuts : List Cut), occurrences pending = symbols → found[t]? = some path →
      (∀ a, Entered path finished a ↔ a ∈ found) → (∀ x ∈ symbols, x ∈ g.index) →
      ∃ finished' cuts',
        (∀ a, Entered path finished' a ↔ a ∈ (explore g path found symbols).1) ∧
        record g ⟨⟨t, pending⟩ :: outer, path, finished, cuts⟩ found.pathOf =
          record g ⟨⟨t, []⟩ :: outer, path, finished', cuts'⟩
            (pathOf (explore g path found symbols).1) := by
  induction path, found, symbols using explore.induct g with
  | case1 path found =>
    intro t pending outer finished cuts hpending ht hentered _
    obtain ⟨cuts', hsettled⟩ := record_settle_all ht hpending
    rw [explore_nil]
    exact ⟨finished, cuts', hentered, hsettled⟩
  | case2 path found x rest hpassed ih =>
    intro t pending outer finished cuts hpending ht hentered hknown
    obtain ⟨pending', cuts₁, hrest, hsettled⟩ := record_settle_until ht hpending
    have hx : Entered path finished x := by
      rcases hpassed with hx | hx
      · exact Or.inl hx
      · exact (hentered x).2 hx
    obtain ⟨finished', cuts', hall, hrecord⟩ :=
      ih t pending' outer finished cuts₁ hrest ht hentered
        fun y hy => hknown y (List.mem_cons_of_mem _ hy)
    rw [explore_passed hpassed]
    exact ⟨finished', cuts', hall, hsettled.trans ((record_look ht hx).trans hrecord)⟩
  | case3 path found x rest hnew below hbelow hexplored all hall hexplored' ihbelow ihrest =>
    intro t pending outer finished cuts hpending ht hentered hknown
    obtain ⟨pending', cuts₁, hrest, hsettled⟩ := record_settle_until ht hpending
    obtain ⟨hon, hfound⟩ := not_or.1 hnew
    have hx : ¬Entered path finished x := fun hx => hfound ((hentered x).1 hx)
    rw [explore_new hnew]
    rw [hexplored] at ihbelow ⊢
    -- below `x` the survey does what the discovery does on the prolonged path
    have hgrown : Grown found below := (Grown.insert hfound _).trans hbelow
    have hopened : ∀ a, Entered (path.insert x) finished a ↔
        a ∈ found.insert x (path.insert x) := by
      intro a
      rw [entered_enter_iff, hentered, Std.ExtTreeMap.mem_insert, Std.compare_eq_iff_eq,
        @eq_comm _ a]
    obtain ⟨finished₁, cuts₂, hentered₁, hrecord₁⟩ :=
      ihbelow x (visits g x) (⟨t, pending'⟩ :: outer) finished cuts₁
        (occurrences_visits hg.toIndexed x) Std.ExtTreeMap.getElem?_insert_self hopened
        (mentioned_known hg x)
    -- and when it has closed `x`, it goes on where it was
    have hentered₂ : ∀ a, Entered path (finished₁.insert x) a ↔ a ∈ below := by
      intro a
      have hclosed : Entered ((path.insert x).erase x) (finished₁.insert x) a ↔
          Entered (path.insert x) finished₁ a := entered_close_iff Std.ExtTreeSet.mem_insert_self
      rw [erase_insert_of_not_mem hon] at hclosed
      exact hclosed.trans (hentered₁ a)
    obtain ⟨finished', cuts', hall', hrecord₂⟩ :=
      ihrest t pending' outer (finished₁.insert x) cuts₂ hrest (hgrown _ _ ht) hentered₂
        fun y hy => hknown y (List.mem_cons_of_mem _ hy)
    refine ⟨finished', cuts', hall', ?_⟩
    calc record g ⟨⟨t, pending⟩ :: outer, path, finished, cuts⟩ found.pathOf
        = record g ⟨⟨t, .occurrence x :: pending'⟩ :: outer, path, finished, cuts₁⟩
            found.pathOf := hsettled
      _ = record g ⟨enter g x :: ⟨t, pending'⟩ :: outer, path.insert x, finished, cuts₁⟩
            (pathOf (found.insert x (path.insert x))) :=
          record_enter hx (hknown x List.mem_cons_self)
      _ = record g ⟨⟨x, []⟩ :: ⟨t, pending'⟩ :: outer, path.insert x, finished₁, cuts₂⟩
            below.pathOf := hrecord₁
      _ = record g ⟨⟨t, pending'⟩ :: outer, path, finished₁.insert x, cuts₂⟩ below.pathOf :=
          record_close (hgrown _ _ ht) hon
      _ = record g ⟨⟨t, []⟩ :: outer, path, finished', cuts'⟩
            (pathOf (explore g path below rest).1) := hrecord₂

/-- The survey opens every symbol on the path on which it is discovered. -/
theorem paths_eq_pathOf (hg : g.WellFormed) (root : Symbol) :
    paths g root = (discovery g root).pathOf := by
  have hroot : ((∅ : Discovery).insert root {root})[root]? = some {root} :=
    Std.ExtTreeMap.getElem?_insert_self
  have hfirst : openPath (fun _ => ∅) ∅ root = pathOf ((∅ : Discovery).insert root {root}) := by
    funext a
    by_cases ha : a = root
    · subst ha
      rw [openPath_self, pathOf_of_getElem? hroot]
      rfl
    · simp [openPath_of_ne ha, pathOf, Ne.symm ha]
  have hentered : ∀ a, Entered {root} ∅ a ↔ a ∈ (∅ : Discovery).insert root {root} := by
    simp [Entered]
  obtain ⟨finished, cuts, -, hrecord⟩ :=
    record_explore hg {root} ((∅ : Discovery).insert root {root}) (mentioned g root) root
      (visits g root) [] ∅ [] (occurrences_visits hg.toIndexed root) hroot hentered
      (mentioned_known hg root)
  rw [paths, start, hfirst]
  refine hrecord.trans ?_
  -- the root is closed, and no symbol is open any more
  have hclose : step g ⟨[⟨root, []⟩], {root}, finished, cuts⟩ =
      some ⟨[], ({root} : Std.ExtTreeSet Symbol).erase root, finished.insert root, cuts⟩ := rfl
  rw [record_of_step_eq_some hclose]
  exact record_of_step_eq_none rfl

end Survey

/-! ## What is left of the rules -/

section Prune

open Survey

variable {g h : Grammar} {path : Paths} {found : Discovery}

/-- What the paths of a discovery leave of a rule. -/
theorem trimmed_pathOf (found : Discovery) (r : Rule) : trimmed found.pathOf r = found.prune r := by
  unfold trimmed Survey.trim keep pathOf prune
  cases found[r.lhs]? with
  | none => simp
  | some path => rfl

theorem prune_of_not_mem {r : Rule} (h : r.lhs ∉ found) : found.prune r = r := by
  rw [prune, Std.ExtTreeMap.getElem?_eq_none h]

theorem prune_of_getElem? {r : Rule} {path : Std.ExtTreeSet Symbol}
    (h : found[r.lhs]? = some path) :
    found.prune r = ⟨r.lhs, r.rhs.filter fun x => !path.contains x⟩ := by
  rw [prune, h]

/-- The cuts of a plan bring the rules to what the plan leaves of them, one after the other. -/
theorem merged_cuts (hg : g.WellFormed) {made left : List Cut} (hh : Trimming g path made h)
    (hmerged : Grammar.Merged (trimmed path) g h)
    (hleft : ∀ c ∈ left, ∃ r, g.rules[c.id]? = some r ∧ c.kept = Survey.trim path r) :
    Grammar.Merged (trimmed path) g
      (left.foldl (fun h c => (h.changeRhs c.id c.kept).value) h) := by
  induction left generalizing made h with
  | nil => exact hmerged
  | cons c left ih =>
    obtain ⟨r, hr, hkept⟩ := hleft c List.mem_cons_self
    refine ih (hh.cut hg hr hkept) ?_ fun c' hc' => hleft c' (List.mem_cons_of_mem _ hc')
    refine hmerged.changeRhs hh.wellFormed.toIndexed trimmed_trimmed ?_
    intro p hp
    obtain ⟨r', hr', hsame⟩ := hmerged.origin hp
    rw [hr, Option.some.injEq] at hr'
    subst hr'
    have hlhs : (trimmed path p).lhs = (trimmed path r).lhs := congrArg Rule.lhs hsame
    rw [hsame, hkept]
    exact congrArg (Rule.mk · (Survey.trim path r)) hlhs.symm

end Prune

end Discovery

end Recursion

namespace Grammar

open Recursion Recursion.Discovery

variable {g : Grammar}

/-- The rules after cutting loops are those that the discovery leaves. -/
theorem WellFormed.mem_ruleSet_cutLoops (hg : g.WellFormed) (root : Symbol) {q : Rule} :
    q ∈ (g.cutLoops root).value.ruleSet ↔
      ∃ r ∈ g.ruleSet, q = (discovery g root).prune r := by
  rw [(hg.cutLoops_leaves_paths root).mem_ruleSet_iff, paths_eq_pathOf hg]
  simp only [trimmed_pathOf]

/-- Each is stored under the smallest number of the rules that come to it. -/
theorem WellFormed.rules_cutLoops_iff (hg : g.WellFormed) (root : Symbol) {id : RuleId} {q : Rule} :
    (g.cutLoops root).value.rules[id]? = some q ↔
      (∃ r, g.rules[id]? = some r ∧ (discovery g root).prune r = q) ∧
        ∀ {j : RuleId} {r : Rule}, g.rules[j]? = some r → (discovery g root).prune r = q →
          id ≤ j := by
  have hleaves := hg.cutLoops_leaves_paths root
  have hmerged := merged_cuts hg (.start hg) (.refl g) (hg.plan root).kept_eq
  rw [← value_cutLoops] at hmerged
  have hdone : ∀ {k : RuleId} {q : Rule}, (g.cutLoops root).value.rules[k]? = some q →
      Survey.trimmed (Survey.paths g root) q = q := by
    intro k q hq
    obtain ⟨r, -, rfl⟩ := hleaves.rule_left hq
    exact Survey.trimmed_trimmed r
  have hprune : ∀ r, (discovery g root).prune r = Survey.trimmed (Survey.paths g root) r := by
    intro r
    rw [paths_eq_pathOf hg, trimmed_pathOf]
  simp only [hprune]
  exact hmerged.rules_iff hleaves.wellFormed.toIndexed hdone

/-- Cutting loops on the way ends with a grammar that the discovery describes: the rules of
undiscovered symbols are unchanged, every rule of a discovered symbol has lost the symbols on its
path, and there are no others.  Of rules that become equal the one with the smallest number is
left. -/
theorem ofHistory_cutLoops_prunes_discovered (edits : List Edit) (root : Symbol) :
    ∃ p, InPlace.Steps (InPlace.start (ofHistory edits) root) p ∧ p.step = none ∧
      p.grammar = ((ofHistory edits).cutLoops root).value ∧
      (∀ q : Rule, q ∈ p.grammar.ruleSet ↔
        (q ∈ (ofHistory edits).ruleSet ∧ q.lhs ∉ discovery (ofHistory edits) root) ∨
        ∃ r ∈ (ofHistory edits).ruleSet, ∃ path,
          (discovery (ofHistory edits) root)[r.lhs]? = some path ∧
          q = ⟨r.lhs, r.rhs.filter fun x => !path.contains x⟩) ∧
      ∀ (id : RuleId) (q : Rule), p.grammar.rules[id]? = some q ↔
        (∃ r, (ofHistory edits).rules[id]? = some r ∧
          (discovery (ofHistory edits) root).prune r = q) ∧
        ∀ (j : RuleId) (r : Rule), (ofHistory edits).rules[j]? = some r →
          (discovery (ofHistory edits) root).prune r = q → id ≤ j := by
  have hg := ofHistory_wellFormed edits
  obtain ⟨p, hsteps, hend, hgrammar⟩ := hg.cutLoops_eq_inPlace root
  refine ⟨p, hsteps, hend, hgrammar, ?_, ?_⟩
  · intro q
    rw [hgrammar, hg.mem_ruleSet_cutLoops root]
    constructor
    · rintro ⟨r, hr, rfl⟩
      by_cases hfound : r.lhs ∈ discovery (ofHistory edits) root
      · rw [Std.ExtTreeMap.mem_iff_isSome_getElem?, Option.isSome_iff_exists] at hfound
        obtain ⟨path, hpath⟩ := hfound
        exact Or.inr ⟨r, hr, path, hpath, prune_of_getElem? hpath⟩
      · rw [prune_of_not_mem hfound]
        exact Or.inl ⟨hr, hfound⟩
    · rintro (⟨hq, hfound⟩ | ⟨r, hr, path, hpath, rfl⟩)
      · exact ⟨q, hq, (prune_of_not_mem hfound).symm⟩
      · exact ⟨r, hr, (prune_of_getElem? hpath).symm⟩
  · intro id q
    rw [hgrammar]
    exact hg.rules_cutLoops_iff root

end Grammar

end EditableGrammar
