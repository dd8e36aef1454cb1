import EditableGrammar.Proofs.Recursion.CutLoops

set_option autoImplicit false

/-!
# Cutting loops on the way

The cuts of a survey may as well be made while the survey is under way, each production being
rewritten as soon as its last occurrence has been looked at.  `InPlace` is that walk: it reads the
grammar it has rewritten so far, and a production that was merged away is passed over.  It ends, and
it ends with the same grammar (`WellFormed.cutLoops_eq_inPlace`).

The reason is that the walk never comes back to what it has rewritten.  The productions of a symbol
that was not opened are those of the original grammar; a production still to be visited is untouched
or was merged with one visited already, and then it holds nothing but closed symbols off the path,
so that the survey has nothing to cut from it.
-/

namespace EditableGrammar

namespace Recursion

/-- A production whose occurrences are being looked at. -/
structure Underway where
  id : RuleId
  rhs : List Symbol
  /-- the occurrences still to be looked at -/
  rest : List Symbol
  /-- what is kept of the occurrences looked at -/
  kept : List Symbol

/-- An open symbol with its productions still to be visited. -/
structure Visiting where
  symbol : Symbol
  pending : List RuleId
  current : Option Underway

/-- The state of a walk that cuts on its way. -/
structure InPlace where
  /-- the grammar as rewritten so far -/
  grammar : Grammar
  /-- the open symbols, innermost first -/
  stack : List Visiting
  onPath : Std.ExtTreeSet Symbol
  finished : Std.ExtTreeSet Symbol

namespace InPlace

open Survey

/-- Open a symbol. -/
def enter (h : Grammar) (s : Symbol) : Visiting :=
  ⟨s, (productionsByContent h s).map Prod.fst, none⟩

/-- The walk that starts at a symbol. -/
def start (g : Grammar) (s : Symbol) : InPlace := ⟨g, [enter g s], {s}, ∅⟩

/-- One step: look at an occurrence, rewrite a production all of whose occurrences were looked at,
turn to the next production unless it was merged away, or close a symbol. -/
def step (p : InPlace) : Option InPlace :=
  match p.stack with
  | [] => none
  | ⟨s, ids, some ⟨id, rhs, x :: rest, kept⟩⟩ :: outer =>
    if p.onPath.contains x then
      some { p with stack := ⟨s, ids, some ⟨id, rhs, rest, kept⟩⟩ :: outer }
    else if p.finished.contains x then
      some { p with stack := ⟨s, ids, some ⟨id, rhs, rest, kept ++ [x]⟩⟩ :: outer }
    else
      some { p with
        stack := enter p.grammar x :: ⟨s, ids, some ⟨id, rhs, rest, kept ++ [x]⟩⟩ :: outer
        onPath := p.onPath.insert x }
  | ⟨s, ids, some ⟨id, rhs, [], kept⟩⟩ :: outer =>
    if kept.length = rhs.length then some { p with stack := ⟨s, ids, none⟩ :: outer }
    else
      some { p with
        stack := ⟨s, ids, none⟩ :: outer
        grammar := (p.grammar.changeRhs id kept).value }
  | ⟨s, id :: ids, none⟩ :: outer =>
    match p.grammar.rhs? id with
    | some rhs => some { p with stack := ⟨s, ids, some ⟨id, rhs, rhs, []⟩⟩ :: outer }
    | none => some { p with stack := ⟨s, ids, none⟩ :: outer }
  | ⟨s, [], none⟩ :: outer =>
    some { p with stack := outer, onPath := p.onPath.erase s, finished := p.finished.insert s }

/-- One state leads to another in any number of steps. -/
def Steps : InPlace → InPlace → Prop := Relation.ReflTransGen fun p p' => step p = some p'

/-- The eight kinds of steps. -/
inductive Action : InPlace → InPlace → Prop where
  /-- drop an occurrence on the path -/
  | drop {h : Grammar} {s : Symbol} {ids : List RuleId} {id : RuleId} {rhs : List Symbol}
      {x : Symbol} {rest kept : List Symbol} {outer : List Visiting}
      {onPath finished : Std.ExtTreeSet Symbol} (hx : x ∈ onPath) :
      Action ⟨h, ⟨s, ids, some ⟨id, rhs, x :: rest, kept⟩⟩ :: outer, onPath, finished⟩
        ⟨h, ⟨s, ids, some ⟨id, rhs, rest, kept⟩⟩ :: outer, onPath, finished⟩
  /-- keep an occurrence of a finished symbol -/
  | keep {h : Grammar} {s : Symbol} {ids : List RuleId} {id : RuleId} {rhs : List Symbol}
      {x : Symbol} {rest kept : List Symbol} {outer : List Visiting}
      {onPath finished : Std.ExtTreeSet Symbol} (hx : x ∈ finished) :
      Action ⟨h, ⟨s, ids, some ⟨id, rhs, x :: rest, kept⟩⟩ :: outer, onPath, finished⟩
        ⟨h, ⟨s, ids, some ⟨id, rhs, rest, kept ++ [x]⟩⟩ :: outer, onPath, finished⟩
  /-- keep an occurrence and open its symbol -/
  | enter {h : Grammar} {s : Symbol} {ids : List RuleId} {id : RuleId} {rhs : List Symbol}
      {x : Symbol} {rest kept : List Symbol} {outer : List Visiting}
      {onPath finished : Std.ExtTreeSet Symbol} (hnew : ¬ Entered onPath finished x) :
      Action ⟨h, ⟨s, ids, some ⟨id, rhs, x :: rest, kept⟩⟩ :: outer, onPath, finished⟩
        ⟨h, InPlace.enter h x :: ⟨s, ids, some ⟨id, rhs, rest, kept ++ [x]⟩⟩ :: outer,
          onPath.insert x, finished⟩
  /-- leave a production of which all was kept -/
  | settle {h : Grammar} {s : Symbol} {ids : List RuleId} {id : RuleId} {rhs kept : List Symbol}
      {outer : List Visiting} {onPath finished : Std.ExtTreeSet Symbol} :
      Action ⟨h, ⟨s, ids, some ⟨id, rhs, [], kept⟩⟩ :: outer, onPath, finished⟩
        ⟨h, ⟨s, ids, none⟩ :: outer, onPath, finished⟩
  /-- rewrite a production -/
  | rewrite {h : Grammar} {s : Symbol} {ids : List RuleId} {id : RuleId} {rhs kept : List Symbol}
      {outer : List Visiting} {onPath finished : Std.ExtTreeSet Symbol} :
      Action ⟨h, ⟨s, ids, some ⟨id, rhs, [], kept⟩⟩ :: outer, onPath, finished⟩
        ⟨(h.changeRhs id kept).value, ⟨s, ids, none⟩ :: outer, onPath, finished⟩
  /-- turn to a production -/
  | turn {h : Grammar} {s : Symbol} {id : RuleId} {ids : List RuleId} {rhs : List Symbol}
      {outer : List Visiting} {onPath finished : Std.ExtTreeSet Symbol}
      (hrhs : h.rhs? id = some rhs) :
      Action ⟨h, ⟨s, id :: ids, none⟩ :: outer, onPath, finished⟩
        ⟨h, ⟨s, ids, some ⟨id, rhs, rhs, []⟩⟩ :: outer, onPath, finished⟩
  /-- pass over a production that was merged away -/
  | pass {h : Grammar} {s : Symbol} {id : RuleId} {ids : List RuleId} {outer : List Visiting}
      {onPath finished : Std.ExtTreeSet Symbol} :
      Action ⟨h, ⟨s, id :: ids, none⟩ :: outer, onPath, finished⟩
        ⟨h, ⟨s, ids, none⟩ :: outer, onPath, finished⟩
  /-- close a symbol -/
  | close {h : Grammar} {s : Symbol} {outer : List Visiting}
      {onPath finished : Std.ExtTreeSet Symbol} :
      Action ⟨h, ⟨s, [], none⟩ :: outer, onPath, finished⟩
        ⟨h, outer, onPath.erase s, finished.insert s⟩

theorem Action.of_step {p p' : InPlace} (h : p.step = some p') : Action p p' := by
  obtain ⟨g, stack, onPath, finished⟩ := p
  unfold InPlace.step at h
  split at h
  next => cases h
  next s ids id rhs x rest kept outer heq =>
    dsimp only at heq h
    subst heq
    split at h
    next hpath =>
      cases h
      exact .drop (Std.ExtTreeSet.mem_iff_contains.2 hpath)
    next hpath =>
      split at h
      next hfinished =>
        cases h
        exact .keep (Std.ExtTreeSet.mem_iff_contains.2 hfinished)
      next hfinished =>
        cases h
        refine .enter ?_
        rintro (hx | hx)
        · exact hpath (Std.ExtTreeSet.mem_iff_contains.1 hx)
        · exact hfinished (Std.ExtTreeSet.mem_iff_contains.1 hx)
  next s ids id rhs kept outer heq =>
    dsimp only at heq h
    subst heq
    split at h
    next =>
      cases h
      exact .settle
    next =>
      cases h
      exact .rewrite
  next s id ids outer heq =>
    dsimp only at heq h
    subst heq
    split at h
    next rhs hrhs =>
      cases h
      exact .turn hrhs
    next =>
      cases h
      exact .pass
  next s outer heq =>
    dsimp only at heq h
    subst heq
    cases h
    exact .close

/-! ## What the walk reads -/

/-- The symbols that the walk still has in hand for an open symbol are known. -/
def Visiting.Known (h : Grammar) (q : Visiting) : Prop :=
  ∀ u, q.current = some u → ∀ x, x ∈ u.rest ∨ x ∈ u.kept → x ∈ h.index

/-- The grammar is well formed on the way, and knows all symbols that the walk has in hand. -/
structure Sound (p : InPlace) : Prop where
  wellFormed : p.grammar.WellFormed
  known : ∀ q ∈ p.stack, Visiting.Known p.grammar q

theorem Visiting.known_none {h : Grammar} {s : Symbol} {ids : List RuleId} :
    Visiting.Known h ⟨s, ids, none⟩ := by
  intro u hu
  cases hu

section Known

variable {h : Grammar} {s x : Symbol} {ids : List RuleId} {id : RuleId}
  {rhs rest kept : List Symbol}

theorem Visiting.Known.drop (hknown : Visiting.Known h ⟨s, ids, some ⟨id, rhs, x :: rest, kept⟩⟩) :
    Visiting.Known h ⟨s, ids, some ⟨id, rhs, rest, kept⟩⟩ := by
  intro u hu y hy
  cases hu
  exact hknown _ rfl y (hy.imp_left (List.mem_cons_of_mem _))

theorem Visiting.Known.keep (hknown : Visiting.Known h ⟨s, ids, some ⟨id, rhs, x :: rest, kept⟩⟩) :
    Visiting.Known h ⟨s, ids, some ⟨id, rhs, rest, kept ++ [x]⟩⟩ := by
  intro u hu y hy
  cases hu
  apply hknown _ rfl y
  simp only [List.mem_append, List.mem_cons, List.not_mem_nil, or_false] at hy ⊢
  tauto

end Known

theorem Sound.start {g : Grammar} (hg : g.WellFormed) (root : Symbol) : (start g root).Sound :=
  ⟨hg, List.forall_mem_singleton.2 Visiting.known_none⟩

/-- The walk goes on with other symbols on top, and what is known stays known. -/
theorem Sound.replace {h h' : Grammar} {q : Visiting} {outer : List Visiting}
    {onPath finished onPath' finished' : Std.ExtTreeSet Symbol}
    (hp : Sound ⟨h, q :: outer, onPath, finished⟩) (inner : List Visiting) (hh : h'.WellFormed)
    (hindex : ∀ x, x ∈ h.index → x ∈ h'.index) (hinner : ∀ a ∈ inner, Visiting.Known h' a) :
    Sound ⟨h', inner ++ outer, onPath', finished'⟩ := by
  refine ⟨hh, ?_⟩
  intro a ha
  rcases List.mem_append.1 ha with ha | ha
  · exact hinner a ha
  · intro u hu x hx
    exact hindex x (hp.known a (List.mem_cons_of_mem _ ha) u hu x hx)

/-- Every step reads a well formed grammar. -/
theorem Sound.step {p p' : InPlace} (hp : p.Sound) (h : p.step = some p') : p'.Sound := by
  have hwf : p.grammar.WellFormed := hp.wellFormed
  cases Action.of_step h with
  | drop =>
    have htop := hp.known _ List.mem_cons_self
    exact hp.replace [_] hwf (fun _ hx => hx) (List.forall_mem_singleton.2 htop.drop)
  | keep =>
    have htop := hp.known _ List.mem_cons_self
    exact hp.replace [_] hwf (fun _ hx => hx) (List.forall_mem_singleton.2 htop.keep)
  | enter =>
    have htop := hp.known _ List.mem_cons_self
    exact hp.replace [_, _] hwf (fun _ hx => hx)
      (List.forall_mem_cons.2 ⟨Visiting.known_none, List.forall_mem_singleton.2 htop.keep⟩)
  | settle =>
    exact hp.replace [_] hwf (fun _ hx => hx) (List.forall_mem_singleton.2 Visiting.known_none)
  | @rewrite g s ids id rhs kept outer onPath finished =>
    have hkept : ∀ x ∈ kept, x ∈ g.index := fun x hx =>
      hp.known _ List.mem_cons_self _ rfl x (Or.inr hx)
    exact hp.replace [_] (hwf.changeRhs id hkept) (fun _ hx => (hwf.mem_index_changeRhs hkept).2 hx)
      (List.forall_mem_singleton.2 Visiting.known_none)
  | turn hrhs =>
    obtain ⟨r, hr, rfl⟩ := Grammar.rhs?_eq_some_iff.1 hrhs
    refine hp.replace [_] hwf (fun _ hx => hx) (List.forall_mem_singleton.2 ?_)
    intro u hu x hx
    cases hu
    rcases hx with hx | hx
    · exact hwf.rhs_known hr x hx
    · cases hx
  | pass =>
    exact hp.replace [_] hwf (fun _ hx => hx) (List.forall_mem_singleton.2 Visiting.known_none)
  | close => exact hp.replace [] hwf (fun _ hx => hx) (List.forall_mem_nil _)

theorem Sound.steps {p p' : InPlace} (hp : p.Sound) (h : Steps p p') : p'.Sound := by
  induction h with
  | refl => exact hp
  | tail _ hstep ih => exact ih.step hstep

/-! ## How the walk follows the survey -/

section Follows

variable {g h : Grammar} {s : Symbol} {path finished : Std.ExtTreeSet Symbol}
  {entered : Symbol → Prop}

/-- What the survey has to do for a production. -/
def visitsOf (production : RuleId × List Symbol) : List Visit :=
  production.2.map .occurrence ++ [.settle production.1 production.2]

/-- A production still to be visited is untouched, or it was merged with a production that holds
nothing but closed symbols off the path. -/
def Awaits (h : Grammar) (s : Symbol) (path finished : Std.ExtTreeSet Symbol)
    (production : RuleId × List Symbol) : Prop :=
  h.rules[production.1]? = some ⟨s, production.2⟩ ∨
    h.rules[production.1]? = none ∧ ∀ x ∈ production.2, x ∈ finished ∧ x ∉ path

/-- What the survey has left of one production, and where the walk is in it. -/
inductive Head (g h : Grammar) (s : Symbol) (path finished : Std.ExtTreeSet Symbol)
    (entered : Symbol → Prop) : List Visit → Option Underway → Prop where
  /-- both are between two productions -/
  | between : Head g h s path finished entered [] none
  /-- both are in the same production -/
  | inside {id : RuleId} {rhs seen rest kept : List Symbol}
      (horiginal : g.rules[id]? = some ⟨s, rhs⟩) (hstored : h.rules[id]? = some ⟨s, rhs⟩)
      (hrhs : rhs = seen ++ rest) (hkept : kept = keep path seen)
      (hentered : ∀ x ∈ kept, entered x) :
      Head g h s path finished entered (rest.map .occurrence ++ [.settle id rhs])
        (some ⟨id, rhs, rest, kept⟩)
  /-- the survey is in a production that the walk has passed over -/
  | merged {id : RuleId} {rhs rest : List Symbol} (hrest : ∀ x ∈ rest, x ∈ rhs)
      (hclosed : ∀ x ∈ rhs, x ∈ finished ∧ x ∉ path) :
      Head g h s path finished entered (rest.map .occurrence ++ [.settle id rhs]) none

/-- What the survey has left in an open symbol, and where the walk is in it: `head` is left of one
production, and `productions` are still to be visited. -/
structure Follows (g h : Grammar) (path finished : Std.ExtTreeSet Symbol)
    (entered : Symbol → Prop) (f : Opened) (q : Visiting) (head : List Visit)
    (productions : List (RuleId × List Symbol)) : Prop where
  symbol_eq : q.symbol = f.symbol
  left : f.pending = head ++ productions.flatMap visitsOf
  pending_eq : q.pending = productions.map Prod.fst
  in_head : Head g h f.symbol path finished entered head q.current
  original : ∀ r ∈ productions, g.rules[r.1]? = some ⟨f.symbol, r.2⟩
  awaits : ∀ r ∈ productions, Awaits h f.symbol path finished r
  nodup : ((q.current.map Underway.id).toList ++ productions.map Prod.fst).Nodup

/-- The open symbols of survey and walk, innermost first.  The path of a symbol is what is left of
the whole path when the symbols above it are closed. -/
inductive Frames (g h : Grammar) (finished : Std.ExtTreeSet Symbol) (entered : Symbol → Prop) :
    Std.ExtTreeSet Symbol → List Opened → List Visiting → Prop where
  | nil {path : Std.ExtTreeSet Symbol} : Frames g h finished entered path [] []
  | cons {path : Std.ExtTreeSet Symbol} {f : Opened} {q : Visiting} {outer : List Opened}
      {outer' : List Visiting} {head : List Visit} {productions : List (RuleId × List Symbol)}
      (hpath : f.symbol ∈ path) (htop : Follows g h path finished entered f q head productions)
      (hrest : Frames g h finished entered (path.erase f.symbol) outer outer') :
      Frames g h finished entered path (f :: outer) (q :: outer')

/-- How a walk and a survey stand to each other. -/
structure Mirrors (g : Grammar) (w : Survey) (p : InPlace) : Prop where
  made : p.grammar = w.cuts.foldr (fun c h => (h.changeRhs c.id c.kept).value) g
  wellFormed : p.grammar.WellFormed
  untouched : ∀ {id : RuleId} {r : Rule}, ¬ Entered w.onPath w.finished r.lhs →
    (p.grammar.rules[id]? = some r ↔ g.rules[id]? = some r)
  onPath_eq : p.onPath = w.onPath
  finished_eq : p.finished = w.finished
  frames : Frames g p.grammar w.finished (Entered w.onPath w.finished) w.onPath w.stack p.stack

end Follows

/-! ## What does not disturb the survey -/

section Mono

variable {g h h' : Grammar} {s : Symbol} {path finished finished' : Std.ExtTreeSet Symbol}
  {entered entered' : Symbol → Prop}

theorem Awaits.mono {q : RuleId × List Symbol} (hq : Awaits h s path finished q)
    (hstored : ∀ {k : RuleId} {rhs : List Symbol}, h.rules[k]? = some ⟨s, rhs⟩ →
      h'.rules[k]? = some ⟨s, rhs⟩)
    (hgone : ∀ {k : RuleId}, h.rules[k]? = none → h'.rules[k]? = none)
    (hfinished : ∀ x ∈ finished, x ∈ finished') : Awaits h' s path finished' q := by
  rcases hq with hq | ⟨hq, hclosed⟩
  · exact Or.inl (hstored hq)
  · exact Or.inr ⟨hgone hq, fun x hx => ⟨hfinished x (hclosed x hx).1, (hclosed x hx).2⟩⟩

theorem Head.mono {head : List Visit} {current : Option Underway}
    (hhead : Head g h s path finished entered head current)
    (hstored : ∀ {k : RuleId} {rhs : List Symbol}, h.rules[k]? = some ⟨s, rhs⟩ →
      h'.rules[k]? = some ⟨s, rhs⟩)
    (hfinished : ∀ x ∈ finished, x ∈ finished') (hentered : ∀ x, entered x → entered' x) :
    Head g h' s path finished' entered' head current := by
  cases hhead with
  | between => exact .between
  | inside horiginal hcurrent hrhs hkept hseen =>
    exact .inside horiginal (hstored hcurrent) hrhs hkept fun x hx => hentered x (hseen x hx)
  | merged hrest hclosed =>
    exact .merged hrest fun x hx => ⟨hfinished x (hclosed x hx).1, (hclosed x hx).2⟩

theorem Follows.mono {f : Opened} {q : Visiting} {head : List Visit}
    {productions : List (RuleId × List Symbol)}
    (htop : Follows g h path finished entered f q head productions)
    (hstored : ∀ {k : RuleId} {rhs : List Symbol}, h.rules[k]? = some ⟨f.symbol, rhs⟩ →
      h'.rules[k]? = some ⟨f.symbol, rhs⟩)
    (hgone : ∀ {k : RuleId}, h.rules[k]? = none → h'.rules[k]? = none)
    (hfinished : ∀ x ∈ finished, x ∈ finished') (hentered : ∀ x, entered x → entered' x) :
    Follows g h' path finished' entered' f q head productions :=
  { htop with
    in_head := htop.in_head.mono hstored hfinished hentered
    awaits := fun r hr => (htop.awaits r hr).mono hstored hgone hfinished }

/-- Open symbols whose rules stay as they are do not notice what becomes of other rules, nor that
more symbols are opened and closed. -/
theorem Frames.mono {stack : List Opened} {stack' : List Visiting}
    (hframes : Frames g h finished entered path stack stack')
    (hstored : ∀ t ∈ path, ∀ {k : RuleId} {rhs : List Symbol}, h.rules[k]? = some ⟨t, rhs⟩ →
      h'.rules[k]? = some ⟨t, rhs⟩)
    (hgone : ∀ {k : RuleId}, h.rules[k]? = none → h'.rules[k]? = none)
    (hfinished : ∀ x ∈ finished, x ∈ finished') (hentered : ∀ x, entered x → entered' x) :
    Frames g h' finished' entered' path stack stack' := by
  induction hframes with
  | nil => exact .nil
  | cons hpath htop _ ih =>
    have htop' := htop.mono (hstored _ hpath) hgone hfinished hentered
    exact .cons hpath htop' (ih fun t ht => hstored t (Std.ExtTreeSet.mem_of_mem_erase ht))

/-- Rewriting a production leaves its siblings waiting: one that is merged away holds just what the
rewritten one keeps. -/
theorem Awaits.changeRhs (hh : h.Indexed) {id : RuleId} {rhs kept : List Symbol}
    (hstored : h.rules[id]? = some ⟨s, rhs⟩) (hclosed : ∀ x ∈ kept, x ∈ finished ∧ x ∉ path)
    {q : RuleId × List Symbol} (hne : q.1 ≠ id) (hq : Awaits h s path finished q) :
    Awaits (h.changeRhs id kept).value s path finished q := by
  cases hnew : (h.changeRhs id kept).value.rules[q.1]? with
  | none =>
    rcases hq with hq | ⟨-, hq⟩
    · have heq : (⟨s, q.2⟩ : Rule) = ⟨s, kept⟩ := by
        by_contra hdiffer
        rw [hh.rules_changeRhs_keep hstored hne hq hdiffer] at hnew
        cases hnew
      cases heq
      exact Or.inr ⟨hnew, hclosed⟩
    · exact Or.inr ⟨hnew, hq⟩
  | some r =>
    rcases hh.rules_changeRhs_sound hstored hnew with ⟨-, hold⟩ | ⟨heq, -⟩
    · rcases hq with hq | ⟨hq, -⟩
      · rw [hold] at hq
        exact Or.inl (hnew.trans hq)
      · rw [hold] at hq
        cases hq
    · exact absurd heq hne

end Mono

/-! ## Opening a symbol -/

section Open

variable {g h : Grammar}

/-- A symbol whose rules are the same in two grammars is opened alike. -/
theorem productionsByContent_congr (hg : g.Indexed) (hh : h.Indexed) {x : Symbol}
    (hsame : ∀ {id : RuleId} {r : Rule}, r.lhs = x →
      (h.rules[id]? = some r ↔ g.rules[id]? = some r)) :
    productionsByContent h x = productionsByContent g x := by
  have hproductions : h.productions x = g.productions x := by
    refine List.Pairwise.eq_of_mem_iff (Grammar.pairwise_productions h x)
      (Grammar.pairwise_productions g x) fun id => ?_
    rw [hh.mem_productions_iff, hg.mem_productions_iff]
    refine exists_congr fun r => ?_
    exact and_congr_left fun hl => hsame hl
  unfold productionsByContent
  rw [hproductions]
  congr 1
  refine List.filterMap_congr fun id hid => ?_
  obtain ⟨r, hr, hl⟩ := hg.mem_productions_iff.1 hid
  rw [Grammar.rhs?, Grammar.rhs?, hr, (hsame hl).2 hr]

/-- A symbol that was not opened before is opened by walk and survey alike. -/
theorem Follows.enter (hg : g.Indexed) (hh : h.Indexed) {path finished : Std.ExtTreeSet Symbol}
    {entered : Symbol → Prop} {x : Symbol}
    (hsame : ∀ {id : RuleId} {r : Rule}, r.lhs = x →
      (h.rules[id]? = some r ↔ g.rules[id]? = some r)) :
    Follows g h path finished entered (Survey.enter g x) (InPlace.enter h x) []
      (productionsByContent g x) := by
  refine ⟨rfl, rfl, ?_, .between, ?_, ?_, ?_⟩
  · rw [InPlace.enter, productionsByContent_congr hg hh hsame]
  · intro r hr
    exact (mem_productionsByContent hg).1 hr
  · intro r hr
    exact Or.inl ((hsame rfl).2 ((mem_productionsByContent hg).1 hr))
  · simpa [InPlace.enter] using nodup_productionsByContent hg x

end Open

/-! ## Turning to a production -/

section Turn

variable {g h : Grammar} {s : Symbol} {path finished : Std.ExtTreeSet Symbol}
  {entered : Symbol → Prop} {head : List Visit} {current : Option Underway}

theorem Head.between_iff (hhead : Head g h s path finished entered head current)
    (hnil : head = []) : current = none := by
  cases hhead with
  | between => rfl
  | inside => simp at hnil
  | merged => rfl

/-- Where the walk is when the survey settles a production. -/
theorem Head.settle_cases {id : RuleId} {rhs : List Symbol}
    (hhead : Head g h s path finished entered (.settle id rhs :: head) current) :
    head = [] ∧
      ((current = some ⟨id, rhs, [], keep path rhs⟩ ∧ h.rules[id]? = some ⟨s, rhs⟩ ∧
          ∀ x ∈ keep path rhs, entered x) ∨
        current = none ∧ ∀ x ∈ rhs, x ∈ finished ∧ x ∉ path) := by
  generalize hvisits : Visit.settle id rhs :: head = visits at hhead
  cases hhead with
  | between => cases hvisits
  | @inside id' rhs' seen rest kept _ hstored hrhs hkept hentered =>
    cases rest with
    | nil =>
      rw [List.append_nil] at hrhs
      subst hrhs hkept
      cases hvisits
      exact ⟨rfl, Or.inl ⟨rfl, hstored, hentered⟩⟩
    | cons x rest => cases hvisits
  | @merged id' rhs' rest hrest hclosed =>
    cases rest with
    | nil =>
      cases hvisits
      exact ⟨rfl, Or.inr ⟨rfl, hclosed⟩⟩
    | cons x rest => cases hvisits

/-- Where the walk is when the survey looks at an occurrence. -/
theorem Head.occurrence_cases {x : Symbol}
    (hhead : Head g h s path finished entered (.occurrence x :: head) current) :
    (∃ (id : RuleId) (rhs seen rest : List Symbol),
        current = some ⟨id, rhs, x :: rest, keep path seen⟩ ∧
        head = rest.map .occurrence ++ [.settle id rhs] ∧
        g.rules[id]? = some ⟨s, rhs⟩ ∧ h.rules[id]? = some ⟨s, rhs⟩ ∧
        rhs = seen ++ x :: rest ∧ ∀ y ∈ keep path seen, entered y) ∨
      current = none ∧ x ∈ finished ∧ Head g h s path finished entered head none := by
  generalize hvisits : Visit.occurrence x :: head = visits at hhead
  cases hhead with
  | between => cases hvisits
  | @inside id rhs seen rest kept horiginal hstored hrhs hkept hentered =>
    cases rest with
    | nil => cases hvisits
    | cons y rest =>
      subst hkept
      cases hvisits
      exact Or.inl ⟨id, rhs, seen, rest, rfl, rfl, horiginal, hstored, hrhs, hentered⟩
  | @merged id rhs rest hrest hclosed =>
    cases rest with
    | nil => cases hvisits
    | cons y rest =>
      cases hvisits
      refine Or.inr ⟨rfl, (hclosed x (hrest x List.mem_cons_self)).1, ?_⟩
      exact .merged (fun y hy => hrest y (List.mem_cons_of_mem _ hy)) hclosed

/-- Before the survey does anything in a production, the walk turns to it or passes it over. -/
theorem Follows.turn {t : Symbol} {v : Visit} {pending : List Visit} {q : Visiting}
    {productions : List (RuleId × List Symbol)}
    (htop : Follows g h path finished entered ⟨t, v :: pending⟩ q head productions) :
    ∃ q' head' productions',
      (∀ outer onPath finished',
        Steps ⟨h, q :: outer, onPath, finished'⟩ ⟨h, q' :: outer, onPath, finished'⟩) ∧
      Follows g h path finished entered ⟨t, v :: pending⟩ q' (v :: head') productions' := by
  obtain ⟨symbol, ids, current⟩ := q
  obtain ⟨rfl, hleft, hids, hhead, horiginal, hawaits, hnodup⟩ := htop
  dsimp only at hleft hids hhead horiginal hawaits hnodup
  cases head with
  | cons v' head' =>
    have hv : v = v' := (List.cons.inj hleft).1
    subst hv
    exact ⟨_, head', productions, fun _ _ _ => .refl,
      ⟨rfl, hleft, hids, hhead, horiginal, hawaits, hnodup⟩⟩
  | nil =>
    have hnone : current = none := hhead.between_iff rfl
    subst hnone
    cases productions with
    | nil => cases hleft
    | cons r productions =>
      subst hids
      rw [List.nil_append, List.flatMap_cons] at hleft
      have hvisits : ∃ head', visitsOf r = v :: head' := by
        obtain ⟨id, rhs⟩ := r
        cases rhs with
        | nil => exact ⟨_, congrArg (· :: []) (List.cons.inj hleft).1.symm⟩
        | cons x rhs => exact ⟨_, congrArg (· :: _) (List.cons.inj hleft).1.symm⟩
      obtain ⟨head', hhead'⟩ := hvisits
      have hothers := fun a ha => horiginal a (List.mem_cons_of_mem r ha)
      have hwait := fun a ha => hawaits a (List.mem_cons_of_mem r ha)
      rcases hawaits r List.mem_cons_self with hstored | ⟨hgone, hclosed⟩
      · refine ⟨⟨symbol, productions.map Prod.fst, some ⟨r.1, r.2, r.2, []⟩⟩, head', productions,
          ?_, rfl, hhead' ▸ hleft, rfl, ?_, hothers, hwait, hnodup⟩
        · intro outer onPath finished'
          apply Relation.ReflTransGen.single
          simp [step, Grammar.rhs?, hstored]
        · rw [← hhead']
          apply Head.inside (horiginal r List.mem_cons_self) hstored (List.nil_append _).symm rfl
          intro x hx
          cases hx
      · refine ⟨⟨symbol, productions.map Prod.fst, none⟩, head', productions,
          ?_, rfl, hhead' ▸ hleft, rfl, ?_, hothers, hwait, (List.nodup_cons.1 hnodup).2⟩
        · intro outer onPath finished'
          apply Relation.ReflTransGen.single
          simp [step, Grammar.rhs?, hgone]
        · rw [← hhead']
          exact .merged (fun x hx => hx) hclosed

end Turn

/-! ## One step of the survey -/

section Step

variable {g h : Grammar} {t : Symbol} {v : Visit} {pending : List Visit} {outer : List Opened}
  {onPath finished : Std.ExtTreeSet Symbol} {cuts cuts' : List Cut} {p : InPlace}

theorem keep_on {path : Std.ExtTreeSet Symbol} {x : Symbol} (hx : x ∈ path) (seen : List Symbol) :
    keep path (seen ++ [x]) = keep path seen := by
  simp [keep, hx]

theorem keep_off {path : Std.ExtTreeSet Symbol} {x : Symbol} (hx : x ∉ path) (seen : List Symbol) :
    keep path (seen ++ [x]) = keep path seen ++ [x] := by
  have hkept : keep path [x] = [x] := List.filter_cons_of_pos (off_path_iff.2 hx)
  have happend : keep path (seen ++ [x]) = keep path seen ++ keep path [x] := List.filter_append ..
  rw [happend, hkept]

/-- In an open symbol one thing is done, and what is to do next is where the walk is now. -/
theorem Follows.next {entered : Symbol → Prop} {ids : List RuleId}
    {current current' : Option Underway} {head : List Visit}
    {productions : List (RuleId × List Symbol)}
    (htop : Follows g h onPath finished entered ⟨t, v :: pending⟩ ⟨t, ids, current⟩ (v :: head)
      productions)
    (hhead : Head g h t onPath finished entered head current')
    (hids : current' = none ∨ current'.map Underway.id = current.map Underway.id) :
    Follows g h onPath finished entered ⟨t, pending⟩ ⟨t, ids, current'⟩ head productions := by
  refine ⟨rfl, (List.cons.inj htop.left).2, htop.pending_eq, hhead, htop.original, htop.awaits, ?_⟩
  rcases hids with rfl | hids
  · exact htop.nodup.sublist (List.sublist_append_right _ _)
  · have hnodup := htop.nodup
    dsimp only at hnodup ⊢
    rwa [hids]

/-- The walk turns to the production that the survey is about to do something in. -/
theorem Mirrors.turn (hp : Mirrors g ⟨⟨t, v :: pending⟩ :: outer, onPath, finished, cuts⟩ p) :
    ∃ ids current outer' head productions,
      Steps p ⟨p.grammar, ⟨t, ids, current⟩ :: outer', onPath, finished⟩ ∧ t ∈ onPath ∧
      Follows g p.grammar onPath finished (Entered onPath finished) ⟨t, v :: pending⟩
        ⟨t, ids, current⟩ (v :: head) productions ∧
      Frames g p.grammar finished (Entered onPath finished) (onPath.erase t) outer outer' := by
  obtain ⟨h, stack, onPath', finished'⟩ := p
  obtain ⟨-, -, -, honPath, hfinished, hframes⟩ := hp
  dsimp only at honPath hfinished hframes ⊢
  subst honPath hfinished
  cases hframes with
  | cons hpath htop hrest =>
    obtain ⟨⟨symbol, ids, current⟩, head, productions, hsteps, htop⟩ := htop.turn
    have hsymbol : symbol = t := htop.symbol_eq
    subst hsymbol
    exact ⟨ids, current, _, head, productions, hsteps _ _ _, hpath, htop, hrest⟩

theorem Mirrors.close (hp : Mirrors g ⟨⟨t, []⟩ :: outer, onPath, finished, cuts⟩ p) :
    ∃ p', Steps p p' ∧ Mirrors g ⟨outer, onPath.erase t, finished.insert t, cuts⟩ p' := by
  obtain ⟨h, stack, onPath', finished'⟩ := p
  obtain ⟨hmade, hwf, huntouched, honPath, hfinished, hframes⟩ := hp
  dsimp only at hmade hwf huntouched honPath hfinished hframes
  subst honPath hfinished
  cases hframes with
  | @cons _ _ q _ outer' head productions hpath htop hrest =>
    obtain ⟨symbol, ids, current⟩ := q
    obtain ⟨hsymbol, hleft, hids, hhead, -, -, -⟩ := htop
    dsimp only at hsymbol hleft hids hhead hpath hrest
    subst hsymbol
    obtain ⟨hnil, hflat⟩ := List.append_eq_nil_iff.1 hleft.symm
    have hnone : current = none := hhead.between_iff hnil
    have hproductions : productions = [] := by
      cases productions with
      | nil => rfl
      | cons r productions => simp [visitsOf] at hflat
    subst hproductions hids hnone
    have hentered : ∀ {x}, Entered (onPath'.erase symbol) (finished'.insert symbol) x ↔
        Entered onPath' finished' x := entered_close_iff hpath
    refine ⟨_, .single rfl, hmade, hwf, ?_, rfl, rfl, ?_⟩
    · intro id r hr
      exact huntouched fun h => hr (hentered.2 h)
    · refine hrest.mono (fun _ _ _ _ h => h) (fun h => h) ?_ ?_
      · intro x hx
        exact Std.ExtTreeSet.mem_insert.2 (Or.inr hx)
      · intro x hx
        exact hentered.2 hx

/-- The survey looks at known symbols only. -/
theorem Mirrors.known (hg : g.WellFormed) {x : Symbol}
    (hp : Mirrors g ⟨⟨t, .occurrence x :: pending⟩ :: outer, onPath, finished, cuts⟩ p) :
    x ∈ finished ∨ x ∈ g.index := by
  obtain ⟨ids, current, outer', head, productions, -, -, htop, -⟩ := hp.turn
  rcases htop.in_head.occurrence_cases with
    ⟨id, rhs, seen, rest, -, -, horiginal, -, hrhs, -⟩ | ⟨-, hclosed, -⟩
  · refine Or.inr (hg.rhs_known horiginal x ?_)
    simp [hrhs]
  · exact Or.inl hclosed

/-- Looking at an occurrence of a symbol that was opened before. -/
theorem Mirrors.look {x : Symbol}
    (hp : Mirrors g ⟨⟨t, .occurrence x :: pending⟩ :: outer, onPath, finished, cuts⟩ p)
    (hx : Entered onPath finished x) :
    ∃ p', Steps p p' ∧ Mirrors g ⟨⟨t, pending⟩ :: outer, onPath, finished, cuts⟩ p' := by
  obtain ⟨ids, current, outer', head, productions, hsteps, ht, htop, hrest⟩ := hp.turn
  rcases htop.in_head.occurrence_cases with
    ⟨id, rhs, seen, rest, rfl, rfl, horiginal, hstored, hrhs, hentered⟩ | ⟨rfl, -, hhead⟩
  · have hrhs' : rhs = (seen ++ [x]) ++ rest := by simpa using hrhs
    refine ⟨⟨p.grammar, ⟨t, ids, some ⟨id, rhs, rest, keep onPath (seen ++ [x])⟩⟩ :: outer',
      onPath, finished⟩, hsteps.tail ?_, hp.made, hp.wellFormed, hp.untouched, rfl, rfl, ?_⟩
    · by_cases hon : x ∈ onPath
      · simp [step, hon, keep_on hon]
      · have hfinished : x ∈ finished := hx.resolve_left hon
        simp [step, hon, hfinished, keep_off hon]
    · refine .cons ht (htop.next ?_ (Or.inr rfl)) hrest
      apply Head.inside horiginal hstored hrhs' rfl
      intro y hy
      obtain ⟨hy, hoff⟩ := List.mem_filter.1 hy
      rcases List.mem_append.1 hy with hy | hy
      · exact hentered y (List.mem_filter.2 ⟨hy, hoff⟩)
      · rw [List.mem_singleton.1 hy]
        exact hx
  · exact ⟨_, hsteps, hp.made, hp.wellFormed, hp.untouched, rfl, rfl,
      .cons ht (htop.next hhead (Or.inl rfl)) hrest⟩

/-- Looking at an occurrence of a symbol that was not opened before. -/
theorem Mirrors.enter (hg : g.WellFormed) {x : Symbol}
    (hp : Mirrors g ⟨⟨t, .occurrence x :: pending⟩ :: outer, onPath, finished, cuts⟩ p)
    (hon : x ∉ onPath) (hfinished : x ∉ finished) :
    ∃ p', Steps p p' ∧ Mirrors g
      ⟨Survey.enter g x :: ⟨t, pending⟩ :: outer, onPath.insert x, finished, cuts⟩ p' := by
  obtain ⟨ids, current, outer', head, productions, hsteps, ht, htop, hrest⟩ := hp.turn
  have hgrow : ∀ y, Entered onPath finished y → Entered (onPath.insert x) finished y := fun y hy =>
    entered_enter_iff.2 (Or.inr hy)
  rcases htop.in_head.occurrence_cases with
    ⟨id, rhs, seen, rest, rfl, rfl, horiginal, hstored, hrhs, hentered⟩ | ⟨-, hclosed, -⟩
  · have hrhs' : rhs = (seen ++ [x]) ++ rest := by simpa using hrhs
    refine ⟨⟨p.grammar, InPlace.enter p.grammar x ::
      ⟨t, ids, some ⟨id, rhs, rest, keep onPath (seen ++ [x])⟩⟩ :: outer', onPath.insert x,
      finished⟩, hsteps.tail ?_, hp.made, hp.wellFormed, ?_, rfl, rfl, ?_⟩
    · simp [step, hon, hfinished, keep_off hon]
    · intro k r hr
      exact hp.untouched fun h => hr (hgrow _ h)
    · have hfresh : ¬ Entered onPath finished x := fun h => h.elim hon hfinished
      have hfirst : Follows g p.grammar (onPath.insert x) finished
          (Entered (onPath.insert x) finished) (Survey.enter g x) (InPlace.enter p.grammar x) []
          (productionsByContent g x) :=
        .enter hg.toIndexed hp.wellFormed.toIndexed fun hl => hp.untouched (hl ▸ hfresh)
      refine .cons (by simp [Survey.enter]) hfirst ?_
      show Frames _ _ _ _ ((onPath.insert x).erase x) _ _
      rw [erase_insert_of_not_mem hon]
      have hsecond := htop.mono (fun h => h) (fun h => h) (fun _ h => h) hgrow
      refine .cons ht (hsecond.next ?_ (Or.inr rfl))
        (hrest.mono (fun _ _ _ _ h => h) (fun h => h) (fun _ h => h) hgrow)
      apply Head.inside horiginal hstored hrhs' rfl
      intro y hy
      obtain ⟨hy, hoff⟩ := List.mem_filter.1 hy
      rcases List.mem_append.1 hy with hy | hy
      · exact hgrow y (hentered y (List.mem_filter.2 ⟨hy, hoff⟩))
      · exact entered_enter_iff.2 (Or.inl (List.mem_singleton.1 hy))
  · exact absurd hclosed hfinished

/-- Settling a production, with its cut made at once if it has one. -/
theorem Mirrors.settle {id : RuleId} {rhs : List Symbol}
    (hp : Mirrors g ⟨⟨t, .settle id rhs :: pending⟩ :: outer, onPath, finished, cuts⟩ p)
    (hcuts : cuts' = if (keep onPath rhs).length = rhs.length then cuts
      else ⟨id, keep onPath rhs, rhs.length - (keep onPath rhs).length⟩ :: cuts) :
    ∃ p', Steps p p' ∧ Mirrors g ⟨⟨t, pending⟩ :: outer, onPath, finished, cuts'⟩ p' := by
  obtain ⟨ids, current, outer', head, productions, hsteps, ht, htop, hrest⟩ := hp.turn
  obtain ⟨rfl, ⟨rfl, hstored, hentered⟩ | ⟨rfl, hclosed⟩⟩ := htop.in_head.settle_cases
  · have hnext := htop.next .between (Or.inl rfl)
    by_cases hlen : (keep onPath rhs).length = rhs.length
    · rw [if_pos hlen] at hcuts
      subst hcuts
      refine ⟨⟨p.grammar, ⟨t, ids, none⟩ :: outer', onPath, finished⟩, hsteps.tail ?_, hp.made,
        hp.wellFormed, hp.untouched, rfl, rfl, .cons ht hnext hrest⟩
      simp [step, hlen]
    · rw [if_neg hlen] at hcuts
      subst hcuts
      have hh := hp.wellFormed
      have hknown : ∀ x ∈ keep onPath rhs, x ∈ p.grammar.index := fun x hx =>
        hh.rhs_known hstored x (List.mem_of_mem_filter hx)
      have hoff : ∀ x ∈ keep onPath rhs, x ∈ finished ∧ x ∉ onPath := by
        intro x hx
        have hoff := off_path_iff.1 (List.mem_filter.1 hx).2
        exact ⟨(hentered x hx).resolve_left hoff, hoff⟩
      refine ⟨⟨(p.grammar.changeRhs id (keep onPath rhs)).value, ⟨t, ids, none⟩ :: outer', onPath,
        finished⟩, hsteps.tail ?_, ?_, hh.changeRhs id hknown, ?_, rfl, rfl, ?_⟩
      · simp [step, hlen]
      · rw [List.foldr_cons, ← hp.made]
      · intro k r hr
        have hne : r.lhs ≠ t := by
          rintro rfl
          exact hr (Or.inl ht)
        exact (hh.toIndexed.rules_changeRhs_other hstored hne).trans (hp.untouched hr)
      · have hgone : ∀ {k : RuleId}, p.grammar.rules[k]? = none →
            (p.grammar.changeRhs id (keep onPath rhs)).value.rules[k]? = none :=
          fun hk => hh.toIndexed.rules_changeRhs_none hstored hk
        refine .cons ht { hnext with in_head := .between, awaits := ?_ } ?_
        · intro r hr
          refine (hnext.awaits r hr).changeRhs hh.toIndexed hstored hoff ?_
          rintro rfl
          have hfresh := (List.nodup_cons.1 htop.nodup).1
          exact hfresh (List.mem_map_of_mem hr)
        · refine hrest.mono ?_ hgone (fun _ h => h) (fun _ h => h)
          intro s hs k rhs' hr
          have hne : s ≠ t := by
            rintro rfl
            simp at hs
          exact (hh.toIndexed.rules_changeRhs_other hstored hne).2 hr
  · have hall : keep onPath rhs = rhs :=
      List.filter_eq_self.2 fun x hx => off_path_iff.2 (hclosed x hx).2
    rw [hall, if_pos rfl] at hcuts
    subst hcuts
    exact ⟨_, hsteps, hp.made, hp.wellFormed, hp.untouched, rfl, rfl,
      .cons ht (htop.next .between (Or.inl rfl)) hrest⟩

end Step

/-! ## The whole walk -/

section Run

variable {g : Grammar} {w w' : Survey} {p : InPlace}

/-- Whatever the survey does next, the walk comes to do it too. -/
theorem Mirrors.step (hg : g.WellFormed) (hp : Mirrors g w p) (h : Survey.step g w = some w') :
    ∃ p', Steps p p' ∧ Mirrors g w' p' := by
  cases Move.of_step h with
  | close => exact hp.close
  | settle hcuts => exact hp.settle hcuts
  | look hx =>
    apply hp.look
    rcases hp.known hg with hfinished | hknown
    · exact Or.inr hfinished
    · exact hx.resolve_right fun hunknown => hunknown hknown
  | enter hon hfinished => exact hp.enter hg hon hfinished

theorem Mirrors.start (hg : g.WellFormed) (root : Symbol) :
    Mirrors g (Survey.start g root) (start g root) := by
  refine ⟨rfl, hg, fun _ => Iff.rfl, rfl, rfl, ?_⟩
  have hfirst : Follows g g {root} ∅ (Entered {root} ∅) (Survey.enter g root)
      (InPlace.enter g root) [] (productionsByContent g root) :=
    .enter hg.toIndexed hg.toIndexed fun _ => Iff.rfl
  have hroot : root ∈ ({root} : Std.ExtTreeSet Symbol) := by simp
  exact .cons hroot hfirst .nil

/-- The walk comes to an end, and then it has made the cuts of the survey. -/
theorem Mirrors.run (hg : g.WellFormed) (w : Survey) :
    ∀ p, Mirrors g w p → ∃ p', Steps p p' ∧ p'.step = none ∧ Mirrors g (Survey.run g w) p' := by
  induction w using Survey.run.induct g with
  | case1 w h =>
    intro p hp
    rw [run_of_step_eq_none h]
    refine ⟨p, .refl, ?_, hp⟩
    have hframes := hp.frames
    rw [stack_of_step_eq_none h] at hframes
    obtain ⟨h, stack, onPath, finished⟩ := p
    cases hframes
    rfl
  | case2 w w' h ih =>
    intro p hp
    rw [run_of_step_eq_some h]
    obtain ⟨p₁, hsteps, hp₁⟩ := hp.step hg h
    obtain ⟨p₂, hsteps', hend, hp₂⟩ := ih p₁ hp₁
    exact ⟨p₂, hsteps.trans hsteps', hend, hp₂⟩

end Run

end InPlace

end Recursion

/-- Cutting loops on the way ends, and it makes the same grammar of a well formed one. -/
theorem Grammar.WellFormed.cutLoops_eq_inPlace {g : Grammar} (hg : g.WellFormed) (root : Symbol) :
    ∃ p, Recursion.InPlace.Steps (Recursion.InPlace.start g root) p ∧ p.step = none ∧
      p.grammar = (g.cutLoops root).value := by
  obtain ⟨p, hsteps, hend, hp⟩ := Recursion.InPlace.Mirrors.run hg (Recursion.Survey.start g root)
    _ (.start hg root)
  refine ⟨p, hsteps, hend, ?_⟩
  rw [Grammar.value_cutLoops, Grammar.loopCuts, List.foldl_reverse]
  exact hp.made

end EditableGrammar
