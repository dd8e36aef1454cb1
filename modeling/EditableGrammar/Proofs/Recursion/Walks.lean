import EditableGrammar.Proofs.Grammar.History
import EditableGrammar.Proofs.Recursion.DepthFirst
import EditableGrammar.Proofs.Recursion.InPlace
import Mathlib.Data.List.DropRight

set_option autoImplicit false

/-!
# Both walks are orderly

The finiteness walk and the walk that cuts loops on its way are depth-first searches over the same
slots.  They differ in the order of the productions, and in what they read: the one reads a grammar
that stays as it is, the other a grammar that it rewrites between two steps.

What an open symbol of the rewriting walk has left is read off from the grammar as it was at the
beginning.  That is right because the rules that are still to be read are untouched or gone: the
rules of a symbol not opened yet, the productions pending in an open symbol, and the one underway
(`InPlace.Faithful`).  A production that was merged away is dropped from its agenda, and no slot of
it is handed out.
-/

namespace EditableGrammar

namespace Grammar

open Recursion (Slot Tour)

variable {g : Grammar} {id : RuleId} {slot : Slot} {rhs : List Symbol}

/-- The last slots of a right-hand side of the given length, `left` of them, in order. -/
def lastSlots (id : RuleId) (length left : Nat) : List Slot :=
  (List.range' (length - left) left).map (Slot.mk id)

/-- All slots of a rule, in order. -/
def ruleSlots (g : Grammar) (id : RuleId) : List Slot :=
  lastSlots id ((g.rhs? id).getD []).length ((g.rhs? id).getD []).length

/-- The symbol in a slot. -/
def symbolAt (g : Grammar) (slot : Slot) : Option Symbol :=
  (g.rhs? slot.id).bind fun rhs => rhs[slot.position]?

theorem lastSlots_succ {length left : Nat} (h : left < length) :
    lastSlots id length (left + 1) =
      ⟨id, length - (left + 1)⟩ :: lastSlots id length left := by
  have hnext : length - (left + 1) + 1 = length - left := by omega
  rw [lastSlots, List.range'_succ, List.map_cons, hnext, lastSlots]

theorem ruleSlots_of_rhs (h : g.rhs? id = some rhs) :
    ruleSlots g id = lastSlots id rhs.length rhs.length := by
  rw [ruleSlots, h, Option.getD_some]

theorem id_eq_of_mem_ruleSlots (h : slot ∈ ruleSlots g id) : slot.id = id := by
  obtain ⟨k, -, rfl⟩ := List.mem_map.1 h
  rfl

theorem nodup_ruleSlots (g : Grammar) (id : RuleId) : (ruleSlots g id).Nodup := by
  refine List.Nodup.map ?_ List.nodup_range'
  intro i j hij
  cases hij
  rfl

/-- The slots of a rule hold its right-hand side. -/
theorem map_symbolAt_ruleSlots (g : Grammar) (id : RuleId) :
    (ruleSlots g id).map g.symbolAt = ((g.rhs? id).getD []).map some := by
  cases hrhs : g.rhs? id with
  | none => simp [ruleSlots, lastSlots, hrhs]
  | some rhs =>
    rw [ruleSlots_of_rhs hrhs, Option.getD_some]
    apply List.ext_getElem
    · simp [lastSlots]
    · intro k hk hk'
      simp [lastSlots, symbolAt, hrhs]

/-- Productions of different symbols, each listed once, make agendas that are apart. -/
theorem apart_of_productions {ids : Symbol → List RuleId} (hnodup : ∀ s, (ids s).Nodup)
    (hids : ∀ s, ∀ id ∈ ids s, ∃ rhs, g.rules[id]? = some ⟨s, rhs⟩) :
    Tour.Apart fun s => (ids s).flatMap (ruleSlots g) := by
  refine ⟨fun s => List.nodup_flatMap.2 ⟨fun id _ => nodup_ruleSlots g id, ?_⟩, ?_⟩
  · refine (hnodup s).imp fun {i j} hij slot hi hj => hij ?_
    exact (id_eq_of_mem_ruleSlots hi).symm.trans (id_eq_of_mem_ruleSlots hj)
  · intro s s' slot hs hs'
    obtain ⟨i, hi, hslot⟩ := List.mem_flatMap.1 hs
    obtain ⟨j, hj, hslot'⟩ := List.mem_flatMap.1 hs'
    obtain ⟨rhs, hrule⟩ := hids s i hi
    obtain ⟨rhs', hrule'⟩ := hids s' j hj
    rw [← id_eq_of_mem_ruleSlots hslot, id_eq_of_mem_ruleSlots hslot', hrule'] at hrule
    cases hrule
    rfl

end Grammar

namespace Recursion

open Grammar Survey

/-! ## The finiteness walk -/

namespace Walk

variable {g : Grammar} {w w' : Walk} {s x : Symbol} {pending : List Symbol}

/-- The next state of the walk, if it goes on. -/
def next? (g : Grammar) (w : Walk) : Option Walk :=
  match step g w with
  | .verdict _ => none
  | .next w' => some w'

/-- The slots of the productions of a symbol, oldest production first. -/
def agenda (g : Grammar) (s : Symbol) : List Slot := (g.productions s).flatMap (ruleSlots g)

/-- The slots left in an open frame, one for every successor still to be looked at. -/
def left (g : Grammar) (f : Frame) : List Slot := (agenda g f.symbol).rtake f.pending.length

/-- The tour that the walk is on. -/
def tour (g : Grammar) (w : Walk) : Tour :=
  ⟨w.stack.map fun f => ⟨f.symbol, left g f⟩, w.onPath, w.finished⟩

/-- The slot of the successor looked at next. -/
def handed (g : Grammar) (w : Walk) : Option Slot :=
  match w.stack with
  | [] => none
  | f :: _ => (left g f).head?

/-- The innermost open symbol and the successor of it looked at next. -/
def looking (w : Walk) : Option (Symbol × Symbol) :=
  match w.stack with
  | ⟨s, x :: _⟩ :: _ => some (s, x)
  | _ => none

/-- The finiteness walk as a depth-first search. -/
def search (g : Grammar) : DepthFirst Walk := ⟨next? g, tour g, handed g, looking⟩

/-- What is pending in an open frame are the last successors of its symbol. -/
def Successive (g : Grammar) (w : Walk) : Prop :=
  ∀ f ∈ w.stack, f.pending <:+ g.successors f.symbol

theorem next?_eq_none_iff : next? g w = none ↔ ∃ finite, step g w = .verdict finite := by
  unfold next?
  cases step g w <;> simp

theorem next?_eq_some_iff : next? g w = some w' ↔ step g w = .next w' := by
  unfold next?
  cases step g w <;> simp

theorem map_symbolAt_agenda (g : Grammar) (s : Symbol) :
    (agenda g s).map g.symbolAt = (g.successors s).map some := by
  rw [agenda, successors, List.map_flatMap, List.map_flatMap]
  exact congrArg (List.flatMap · _) (funext (map_symbolAt_ruleSlots g))

theorem apart_agenda (hg : g.Indexed) : Tour.Apart (agenda g) := by
  refine apart_of_productions (fun s => (pairwise_productions g s).imp Nat.ne_of_lt) ?_
  intro s id hid
  obtain ⟨⟨lhs, rhs⟩, hr, rfl⟩ := hg.mem_productions_iff.1 hid
  exact ⟨rhs, hr⟩

theorem holds_of_mem_agenda (hg : g.Indexed) {slot : Slot} (hslot : slot ∈ agenda g s)
    (hx : g.symbolAt slot = some x) : slot.Holds g s x := by
  obtain ⟨id, hid, hmem⟩ := List.mem_flatMap.1 hslot
  obtain ⟨⟨lhs, rhs⟩, hr, rfl⟩ := hg.mem_productions_iff.1 hid
  have hrhs : g.rhs? slot.id = some rhs := by
    rw [id_eq_of_mem_ruleSlots hmem, rhs?, hr]
    rfl
  rw [symbolAt, hrhs, Option.bind_some] at hx
  exact ⟨rhs, (id_eq_of_mem_ruleSlots hmem) ▸ hr, hx⟩

theorem rtake_append {α : Type} (l l' : List α) : (l ++ l').rtake l'.length = l' := by
  simp [List.rtake]

/-- The slot of the first pending successor is handed out, and the slots of the others are left. -/
theorem left_cons (hg : g.Indexed) (h : x :: pending <:+ g.successors s) :
    ∃ slot, left g ⟨s, x :: pending⟩ = slot :: left g ⟨s, pending⟩ ∧ slot.Holds g s x := by
  obtain ⟨before, hbefore⟩ := h
  have hmap := map_symbolAt_agenda g s
  rw [← hbefore, List.map_append] at hmap
  obtain ⟨seen, rest, hagenda, -, hrest⟩ := List.map_eq_append_iff.1 hmap
  obtain ⟨slot, rest, rfl, hslot, hrest⟩ := List.map_eq_cons_iff.1 hrest
  have hlength : rest.length = pending.length := by simpa using congrArg List.length hrest
  refine ⟨slot, ?_, holds_of_mem_agenda hg (by simp [hagenda]) hslot⟩
  have hall : left g ⟨s, x :: pending⟩ = slot :: rest := by
    have := rtake_append seen (slot :: rest)
    rwa [← hagenda, List.length_cons, hlength] at this
  have hothers : left g ⟨s, pending⟩ = rest := by
    have := rtake_append (seen ++ [slot]) rest
    rwa [List.append_assoc, List.singleton_append, ← hagenda, hlength] at this
  rw [hall, hothers]

theorem left_enter (g : Grammar) (s : Symbol) : left g (enter g s) = agenda g s := by
  have hlength : (g.successors s).length = (agenda g s).length := by
    simpa using (congrArg List.length (map_symbolAt_agenda g s)).symm
  rw [left, enter, hlength]
  exact rtake_append [] _

section Step

variable {outer : List Frame} {onPath finished : Std.ExtTreeSet Symbol}

theorem tour_cons (g : Grammar) (f : Frame) (outer : List Frame)
    (onPath finished : Std.ExtTreeSet Symbol) :
    tour g ⟨f :: outer, onPath, finished⟩ =
      ⟨⟨f.symbol, left g f⟩ :: outer.map fun f => ⟨f.symbol, left g f⟩, onPath, finished⟩ := rfl

theorem handed_cons {f : Frame} {slot : Slot} {slots : List Slot} (h : left g f = slot :: slots) :
    handed g ⟨f :: outer, onPath, finished⟩ = some slot := by
  show (left g f).head? = some slot
  rw [h, List.head?_cons]

theorem Successive.rest (hw : Successive g ⟨⟨s, x :: pending⟩ :: outer, onPath, finished⟩) :
    Successive g ⟨⟨s, pending⟩ :: outer, onPath, finished⟩ := by
  obtain ⟨htop, houter⟩ := List.forall_mem_cons.1 hw
  exact List.forall_mem_cons.2 ⟨(List.suffix_cons x pending).trans htop, houter⟩

end Step

theorem Successive.step (hg : g.Indexed) (hw : Successive g w) (h : step g w = .next w') :
    Successive g w' ∧ Tour.Move (agenda g) (tour g w) (handed g w) (tour g w') := by
  cases Action.of_step h with
  | @close t outer onPath finished =>
    refine ⟨fun f hf => hw f (List.mem_cons_of_mem _ hf), ?_⟩
    have hnone : handed g ⟨⟨t, []⟩ :: outer, onPath, finished⟩ = none := by
      simp [handed, left]
    rw [hnone]
    exact .close
  | skip =>
    obtain ⟨slot, hleft, -⟩ := left_cons hg (hw _ List.mem_cons_self)
    refine ⟨hw.rest, ?_⟩
    rw [handed_cons hleft, tour_cons, hleft]
    exact .look
  | enter hon hfinished =>
    obtain ⟨slot, hleft, -⟩ := left_cons hg (hw _ List.mem_cons_self)
    refine ⟨List.forall_mem_cons.2 ⟨List.suffix_rfl, hw.rest⟩, ?_⟩
    rw [handed_cons hleft, tour_cons, hleft, tour_cons, left_enter]
    exact .enter (not_or.2 ⟨hon, hfinished⟩)

theorem tracks (hg : g.Indexed) : Tracks g (search g) (agenda g) (Successive g) := by
  refine ⟨fun hw _ h => hw.step hg (next?_eq_some_iff.1 h), ?_, ?_⟩
  · rintro ⟨stack, onPath, finished⟩ slot - hslot
    cases stack with
    | nil => cases hslot
    | cons f outer => exact ⟨⟨f.symbol, left g f⟩, List.mem_cons_self, List.mem_of_head? hslot⟩
  · intro w s x hw hlooking
    show ∃ slot, handed g w = some slot ∧ slot.Holds g s x
    obtain ⟨stack, onPath, finished⟩ := w
    simp only [search, looking] at hlooking
    split at hlooking
    next =>
      cases hlooking
      obtain ⟨slot, hleft, hholds⟩ := left_cons hg (hw _ List.mem_cons_self)
      exact ⟨slot, handed_cons hleft, hholds⟩
    next => cases hlooking

theorem Successive.start (g : Grammar) (root : Symbol) : Successive g (start g root) :=
  List.forall_mem_singleton.2 List.suffix_rfl

theorem tour_start (g : Grammar) (root : Symbol) :
    tour g (start g root) = ⟨[⟨root, agenda g root⟩], {root}, ∅⟩ := by
  rw [tour, start, List.map_singleton, left_enter]
  rfl

/-- A run of the walk ends with the verdict of the walk. -/
theorem verdict_of_run {states : List Walk} (h : Run (next? g) w states) :
    ∃ last, states.getLast? = some last ∧ step g last = .verdict (run g w) := by
  obtain ⟨last, hlast, hend⟩ := h.getLast?_eq
  obtain ⟨finite, hverdict⟩ := next?_eq_none_iff.1 hend
  have hsame : ∀ b ∈ states, run g b = run g w := by
    refine h.forall_kept ?_ rfl
    intro a b ha hab
    exact (run_of_step_eq_next (next?_eq_some_iff.1 hab)).symm.trans ha
  refine ⟨last, hlast, ?_⟩
  rw [← hsame last (List.mem_of_getLast? hlast), run_of_step_eq_verdict hverdict, hverdict]

end Walk

/-! ## The walk that cuts loops on its way -/

namespace InPlace

section

variable {g h : Grammar} {p p' : InPlace} {q : Visiting} {s x : Symbol} {ids : List RuleId}
  {id : RuleId} {rhs rest kept kept' : List Symbol} {outer : List Visiting}
  {onPath finished onPath' finished' : Std.ExtTreeSet Symbol}

/-- The slots of the productions of a symbol, in the order of their right-hand sides. -/
def agenda (g : Grammar) (s : Symbol) : List Slot :=
  ((productionsByContent g s).map Prod.fst).flatMap (ruleSlots g)

/-- The slots left in an open symbol: those of the production underway, and those that the pending
productions have in `g`. -/
def left (g : Grammar) (q : Visiting) : List Slot :=
  (q.current.elim [] fun u => lastSlots u.id u.rhs.length u.rest.length) ++
    q.pending.flatMap (ruleSlots g)

/-- The tour that the walk is on, begun with `g`. -/
def tour (g : Grammar) (p : InPlace) : Tour :=
  ⟨p.stack.map fun q => ⟨q.symbol, left g q⟩, p.onPath, p.finished⟩

/-- The slot of the occurrence looked at next. -/
def handed (p : InPlace) : Option Slot :=
  match p.stack with
  | ⟨_, _, some ⟨id, rhs, _ :: rest, _⟩⟩ :: _ => some ⟨id, rhs.length - (rest.length + 1)⟩
  | _ => none

/-- The innermost open symbol and the occurrence looked at next. -/
def looking (p : InPlace) : Option (Symbol × Symbol) :=
  match p.stack with
  | ⟨s, _, some ⟨_, _, x :: _, _⟩⟩ :: _ => some (s, x)
  | _ => none

/-- The walk as a depth-first search over the slots of the grammar that it was begun with. -/
def search (g : Grammar) : DepthFirst InPlace := ⟨step, tour g, handed, looking⟩

/-- The productions still to be visited are those of `g` or gone, and the one underway is still
there. -/
structure Visiting.Faithful (g h : Grammar) (q : Visiting) : Prop where
  nodup : ((q.current.map Underway.id).toList ++ q.pending).Nodup
  original : ∀ id ∈ q.pending, ∃ rhs, g.rules[id]? = some ⟨q.symbol, rhs⟩
  unchanged : ∀ id ∈ q.pending, ∀ r, h.rules[id]? = some r → g.rules[id]? = some r
  current : ∀ u, q.current = some u → g.rules[u.id]? = some ⟨q.symbol, u.rhs⟩ ∧
    h.rules[u.id]? = some ⟨q.symbol, u.rhs⟩ ∧ u.rest <:+ u.rhs

/-- What the walk has still to read is as it was in `g`. -/
structure Faithful (g : Grammar) (p : InPlace) : Prop where
  sound : p.Sound
  untouched : ∀ {id : RuleId} {r : Rule}, ¬ Entered p.onPath p.finished r.lhs →
    (p.grammar.rules[id]? = some r ↔ g.rules[id]? = some r)
  visiting : ∀ q ∈ p.stack, Visiting.Faithful g p.grammar q

/-! ### Slots of the productions -/

theorem apart_agenda (hg : g.Indexed) : Tour.Apart (agenda g) := by
  refine apart_of_productions (nodup_productionsByContent hg) ?_
  intro s id hid
  obtain ⟨⟨i, rhs⟩, hmem, rfl⟩ := List.mem_map.1 hid
  exact ⟨rhs, (mem_productionsByContent hg).1 hmem⟩

/-- The slot of the next occurrence is handed out, and all others are left. -/
theorem left_cons (hrest : x :: rest <:+ rhs) (kept' : List Symbol) :
    left g ⟨s, ids, some ⟨id, rhs, x :: rest, kept⟩⟩ =
      ⟨id, rhs.length - (rest.length + 1)⟩ :: left g ⟨s, ids, some ⟨id, rhs, rest, kept'⟩⟩ := by
  have hlength : rest.length < rhs.length := hrest.length_le
  simp only [left, Option.elim_some, List.length_cons, lastSlots_succ hlength, List.cons_append]

theorem holds_of_suffix (horiginal : g.rules[id]? = some ⟨s, rhs⟩) (hrest : x :: rest <:+ rhs) :
    Slot.Holds g s ⟨id, rhs.length - (rest.length + 1)⟩ x := by
  obtain ⟨seen, rfl⟩ := hrest
  exact ⟨_, horiginal, by simp⟩

/-- A symbol that was not opened before is opened with the slots that it has in `g`. -/
theorem left_enter (hg : g.Indexed) (hp : Faithful g ⟨h, outer, onPath, finished⟩)
    (hnew : ¬ Entered onPath finished x) : left g (enter h x) = agenda g x := by
  have hsame : productionsByContent h x = productionsByContent g x :=
    productionsByContent_congr hg hp.sound.wellFormed.toIndexed fun hl => hp.untouched (hl ▸ hnew)
  simp only [left, enter, agenda, hsame, Option.elim_none, List.nil_append]

/-! ### What the walk has still to read -/

theorem Visiting.Faithful.next
    (hq : Visiting.Faithful g h ⟨s, ids, some ⟨id, rhs, x :: rest, kept⟩⟩) :
    Visiting.Faithful g h ⟨s, ids, some ⟨id, rhs, rest, kept'⟩⟩ := by
  refine ⟨hq.nodup, hq.original, hq.unchanged, ?_⟩
  intro u hu
  cases hu
  obtain ⟨horiginal, hstored, hsuffix⟩ := hq.current _ rfl
  exact ⟨horiginal, hstored, (List.suffix_cons x rest).trans hsuffix⟩

theorem Visiting.Faithful.leave {current : Option Underway}
    (hq : Visiting.Faithful g h ⟨s, ids, current⟩) : Visiting.Faithful g h ⟨s, ids, none⟩ := by
  refine ⟨hq.nodup.sublist (List.sublist_append_right _ _), hq.original, hq.unchanged, ?_⟩
  intro u hu
  cases hu

theorem Visiting.Faithful.pass (hq : Visiting.Faithful g h ⟨s, id :: ids, none⟩) :
    Visiting.Faithful g h ⟨s, ids, none⟩ := by
  refine ⟨(List.nodup_cons.1 hq.nodup).2, fun i hi => hq.original i (List.mem_cons_of_mem _ hi),
    fun i hi => hq.unchanged i (List.mem_cons_of_mem _ hi), ?_⟩
  intro u hu
  cases hu

/-- A production that the walk turns to is read as it is in `g`. -/
theorem Visiting.Faithful.rhs_original (hq : Visiting.Faithful g h ⟨s, id :: ids, none⟩)
    (hrhs : h.rhs? id = some rhs) :
    g.rules[id]? = some ⟨s, rhs⟩ ∧ h.rules[id]? = some ⟨s, rhs⟩ := by
  obtain ⟨r, hr, rfl⟩ := Grammar.rhs?_eq_some_iff.1 hrhs
  obtain ⟨rhs, horiginal⟩ := hq.original id List.mem_cons_self
  have hunchanged := hq.unchanged id List.mem_cons_self r hr
  rw [horiginal] at hunchanged
  cases hunchanged
  exact ⟨horiginal, hr⟩

theorem Visiting.Faithful.turn (hq : Visiting.Faithful g h ⟨s, id :: ids, none⟩)
    (hrhs : h.rhs? id = some rhs) :
    Visiting.Faithful g h ⟨s, ids, some ⟨id, rhs, rhs, kept⟩⟩ := by
  refine ⟨hq.nodup, hq.pass.original, hq.pass.unchanged, ?_⟩
  intro u hu
  cases hu
  obtain ⟨horiginal, hstored⟩ := hq.rhs_original hrhs
  exact ⟨horiginal, hstored, List.suffix_rfl⟩

/-- Rewriting a production disturbs neither its siblings still to be visited nor the productions of
other symbols. -/
theorem Visiting.Faithful.changeRhs (hh : h.Indexed) (hstored : h.rules[id]? = some ⟨s, rhs⟩)
    (hq : Visiting.Faithful g h q) (hpending : id ∉ q.pending)
    (hcurrent : q.current.isSome → q.symbol ≠ s) :
    Visiting.Faithful g (h.changeRhs id kept).value q := by
  refine ⟨hq.nodup, hq.original, ?_, ?_⟩
  · intro k hk r hr
    rcases hh.rules_changeRhs_sound hstored hr with ⟨-, hr⟩ | ⟨rfl, -⟩
    · exact hq.unchanged k hk r hr
    · exact absurd hk hpending
  · intro u hu
    obtain ⟨horiginal, hu', hsuffix⟩ := hq.current u hu
    refine ⟨horiginal, (hh.rules_changeRhs_other hstored ?_).2 hu', hsuffix⟩
    exact hcurrent (Option.isSome_of_mem hu)

theorem Visiting.Faithful.enter (hp : InPlace.Faithful g ⟨h, outer, onPath, finished⟩)
    (hnew : ¬ Entered onPath finished x) : Visiting.Faithful g h (InPlace.enter h x) := by
  have hh : h.Indexed := hp.sound.wellFormed.toIndexed
  refine ⟨nodup_productionsByContent hh x, ?_, ?_, ?_⟩
  · intro id hid
    obtain ⟨⟨i, rhs⟩, hmem, rfl⟩ := List.mem_map.1 hid
    exact ⟨rhs, (hp.untouched hnew).1 ((mem_productionsByContent hh).1 hmem)⟩
  · intro id hid r hr
    obtain ⟨⟨i, rhs⟩, hmem, rfl⟩ := List.mem_map.1 hid
    have hstored := (mem_productionsByContent hh).1 hmem
    rw [hr] at hstored
    cases hstored
    exact (hp.untouched hnew).1 hr
  · intro u hu
    cases hu

/-- The walk goes on with other symbols on top and reads the same grammar. -/
theorem Faithful.replace (hp : Faithful g ⟨h, q :: outer, onPath, finished⟩)
    (inner : List Visiting) (hsound : Sound ⟨h, inner ++ outer, onPath', finished'⟩)
    (hentered : ∀ x, Entered onPath finished x → Entered onPath' finished' x)
    (hinner : ∀ a ∈ inner, Visiting.Faithful g h a) :
    Faithful g ⟨h, inner ++ outer, onPath', finished'⟩ := by
  refine ⟨hsound, fun hnew => hp.untouched fun h => hnew (hentered _ h), ?_⟩
  intro a ha
  rcases List.mem_append.1 ha with ha | ha
  · exact hinner a ha
  · exact hp.visiting a (List.mem_cons_of_mem _ ha)

/-- Rewriting the production underway of the innermost open symbol. -/
theorem Faithful.rewrite
    (hp : Faithful g ⟨h, ⟨s, ids, some ⟨id, rhs, rest, kept⟩⟩ :: outer, onPath, finished⟩)
    (hs : s ∈ onPath) (houter : ∀ q ∈ outer, q.symbol ≠ s)
    (hsound : Sound ⟨(h.changeRhs id kept).value, ⟨s, ids, none⟩ :: outer, onPath, finished⟩) :
    Faithful g ⟨(h.changeRhs id kept).value, ⟨s, ids, none⟩ :: outer, onPath, finished⟩ := by
  have hh : h.Indexed := hp.sound.wellFormed.toIndexed
  have htop := hp.visiting _ List.mem_cons_self
  obtain ⟨horiginal, hstored, -⟩ := htop.current _ rfl
  refine ⟨hsound, ?_, List.forall_mem_cons.2 ⟨?_, ?_⟩⟩
  · intro k r hnew
    have hother : r.lhs ≠ s := fun heq => hnew (Or.inl (heq ▸ hs))
    exact (hh.rules_changeRhs_other hstored hother).trans (hp.untouched hnew)
  · have hpending : id ∉ ids := (List.nodup_cons.1 htop.nodup).1
    refine htop.leave.changeRhs hh hstored hpending fun h => ?_
    cases h
  · intro q hq
    have hvisiting := hp.visiting q (List.mem_cons_of_mem _ hq)
    refine hvisiting.changeRhs hh hstored (fun hpending => ?_) fun _ => houter q hq
    obtain ⟨rhs', hrule⟩ := hvisiting.original id hpending
    rw [horiginal] at hrule
    cases hrule
    exact houter q hq rfl

/-! ### Every step is a move -/

theorem tour_cons (g h : Grammar) (q : Visiting) (outer : List Visiting)
    (onPath finished : Std.ExtTreeSet Symbol) :
    tour g ⟨h, q :: outer, onPath, finished⟩ =
      ⟨⟨q.symbol, left g q⟩ :: outer.map fun q => ⟨q.symbol, left g q⟩, onPath, finished⟩ := rfl

theorem Faithful.step (hg : g.Indexed) (hp : Faithful g p) (htidy : (tour g p).Tidy (agenda g))
    (hstep : p.step = some p') :
    Faithful g p' ∧ Tour.Move (agenda g) (tour g p) (handed p) (tour g p') := by
  have hsound : p'.Sound := hp.sound.step hstep
  cases Action.of_step hstep with
  | @drop h s ids id rhs x rest kept outer onPath finished =>
    have htop := hp.visiting _ List.mem_cons_self
    refine ⟨hp.replace [_] hsound (fun _ hx => hx) (List.forall_mem_singleton.2 htop.next), ?_⟩
    rw [tour_cons, left_cons (htop.current _ rfl).2.2 _]
    exact .look
  | @keep h s ids id rhs x rest kept outer onPath finished =>
    have htop := hp.visiting _ List.mem_cons_self
    refine ⟨hp.replace [_] hsound (fun _ hx => hx) (List.forall_mem_singleton.2 htop.next), ?_⟩
    rw [tour_cons, left_cons (htop.current _ rfl).2.2 _]
    exact .look
  | @enter h s ids id rhs x rest kept outer onPath finished hnew =>
    have htop := hp.visiting _ List.mem_cons_self
    refine ⟨hp.replace [_, _] hsound (fun _ hx => entered_enter_iff.2 (Or.inr hx))
      (List.forall_mem_cons.2 ⟨.enter hp hnew, List.forall_mem_singleton.2 htop.next⟩), ?_⟩
    rw [tour_cons, left_cons (htop.current _ rfl).2.2 _, tour_cons, left_enter hg hp hnew]
    exact .enter hnew
  | settle =>
    have htop := hp.visiting _ List.mem_cons_self
    exact ⟨hp.replace [_] hsound (fun _ hx => hx) (List.forall_mem_singleton.2 htop.leave),
      .pass (List.sublist_append_right _ _)⟩
  | @rewrite h s ids id rhs kept outer onPath finished =>
    -- the symbols below are others, so what is rewritten and merged here is not theirs
    have hs : s ∉ (tour g ⟨h, outer, onPath, finished⟩).opened := (List.nodup_cons.1 htidy.nodup).1
    refine ⟨hp.rewrite htidy.mem_onPath ?_ hsound, .pass (List.sublist_append_right _ _)⟩
    rintro q hq rfl
    exact hs (by simpa [Tour.opened, tour] using ⟨q, hq, rfl⟩)
  | @turn h s id ids rhs outer onPath finished hrhs =>
    have htop := hp.visiting _ List.mem_cons_self
    refine ⟨hp.replace [_] hsound (fun _ hx => hx)
      (List.forall_mem_singleton.2 (htop.turn hrhs)), ?_⟩
    have hleft : left g ⟨s, id :: ids, none⟩ = left g ⟨s, ids, some ⟨id, rhs, rhs, []⟩⟩ := by
      have horiginal : g.rhs? id = some rhs :=
        Grammar.rhs?_eq_some_iff.2 ⟨_, (htop.rhs_original hrhs).1, rfl⟩
      simp only [left, Option.elim_none, List.nil_append, List.flatMap_cons, Option.elim_some,
        ruleSlots_of_rhs horiginal]
    rw [tour_cons, hleft]
    exact .pass (List.Sublist.refl _)
  | pass =>
    have htop := hp.visiting _ List.mem_cons_self
    refine ⟨hp.replace [_] hsound (fun _ hx => hx) (List.forall_mem_singleton.2 htop.pass), ?_⟩
    exact .pass (List.sublist_append_right _ _)
  | close =>
    refine ⟨hp.replace [] hsound ?_ (List.forall_mem_nil _), .close⟩
    intro x hx
    exact (entered_close_iff htidy.mem_onPath).2 hx

theorem tracks (hg : g.Indexed) : Tracks g (search g) (agenda g) (Faithful g) := by
  refine ⟨fun hp htidy h => hp.step hg htidy h, ?_, ?_⟩
  · rintro ⟨h, stack, onPath, finished⟩ slot hp hhanded
    simp only [search, handed] at hhanded
    split at hhanded
    next =>
      cases hhanded
      have htop := hp.visiting _ List.mem_cons_self
      refine ⟨_, List.mem_cons_self, ?_⟩
      dsimp only
      rw [left_cons (htop.current _ rfl).2.2 []]
      exact List.mem_cons_self
    next => cases hhanded
  · rintro ⟨h, stack, onPath, finished⟩ s x hp hlooking
    simp only [search, looking] at hlooking
    split at hlooking
    next =>
      cases hlooking
      obtain ⟨horiginal, -, hsuffix⟩ := (hp.visiting _ List.mem_cons_self).current _ rfl
      exact ⟨_, rfl, holds_of_suffix horiginal hsuffix⟩
    next => cases hlooking

theorem tour_start (g : Grammar) (root : Symbol) :
    tour g (start g root) = ⟨[⟨root, agenda g root⟩], {root}, ∅⟩ := rfl

theorem Faithful.start (hg : g.WellFormed) (root : Symbol) : Faithful g (start g root) := by
  have hempty : Faithful g ⟨g, [], ∅, ∅⟩ :=
    ⟨⟨hg, List.forall_mem_nil _⟩, fun _ => Iff.rfl, List.forall_mem_nil _⟩
  have hnew : ¬ Entered (∅ : Std.ExtTreeSet Symbol) ∅ root := by simp [Entered]
  exact ⟨.start hg root, fun _ => Iff.rfl, List.forall_mem_singleton.2 (.enter hempty hnew)⟩

end

end InPlace

end Recursion

/-! ## Both walks end -/

namespace Grammar

open Recursion

/-- Whatever edits led to a grammar and wherever they start, both walks end: the finiteness walk
with its verdict, and the walk that cuts loops on its way with the grammar whose loops are cut.
Neither opens a symbol twice, in all their states the path is the set of the open symbols and holds
no finished one, and neither hands out a slot twice, though the second rewrites the rules and merges
them while it is under way. -/
theorem ofHistory_walks_end (edits : List Edit) (root : Symbol) :
    let g := ofHistory edits
    (∃ states last, Run (Walk.next? g) (Walk.start g root) states ∧
      states.getLast? = some last ∧ Walk.step g last = .verdict (g.isFiniteFrom root) ∧
      Orderly g root (Walk.search g) states) ∧
    (∃ states last, Run InPlace.step (InPlace.start g root) states ∧
      states.getLast? = some last ∧ last.grammar = (g.cutLoops root).value ∧
      Orderly g root (InPlace.search g) states) := by
  intro g
  have hg : g.WellFormed := ofHistory_wellFormed edits
  constructor
  · have hends : ∃ states, Run (Walk.next? g) (Walk.start g root) states :=
      Run.exists_of_lt (Walk.work g) (fun h => Walk.work_step_lt (Walk.next?_eq_some_iff.1 h)) _
    obtain ⟨states, hrun⟩ := hends
    obtain ⟨last, hlast, hverdict⟩ := Walk.verdict_of_run hrun
    refine ⟨states, last, hrun, hlast, hverdict, ?_⟩
    exact (Walk.tracks hg.toIndexed).orderly (Walk.apart_agenda hg.toIndexed) hrun
      (Walk.Successive.start g root) (Walk.tour_start g root)
  · obtain ⟨last, hsteps, hend, hgrammar⟩ := hg.cutLoops_eq_inPlace root
    obtain ⟨states, hrun, hlast⟩ := Run.exists_of_steps hsteps hend
    refine ⟨states, last, hrun, hlast, hgrammar, ?_⟩
    exact (InPlace.tracks hg.toIndexed).orderly (InPlace.apart_agenda hg.toIndexed) hrun
      (.start hg root) (InPlace.tour_start g root)

end Grammar

end EditableGrammar
