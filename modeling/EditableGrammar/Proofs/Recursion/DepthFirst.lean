import EditableGrammar.Proofs.Recursion.Plan
import EditableGrammar.Proofs.Recursion.Run
import Mathlib.Data.List.Nodup

set_option autoImplicit false

/-!
# Depth-first searches

What depth-first searches have in common does not depend on what they look for.  A symbol is opened
with an agenda, slots of right-hand sides in the order in which they are handed out; a slot handed
out may lead to a symbol that was not opened before, which is opened above it; and a symbol is
closed when its agenda is done.  A search may drop slots without handing them out.  `Tour` is this
much of the state of a search, and `Tour.Move` is what a step may do to it.

Every move keeps a tour tidy: the path is the set of the open symbols, and no open symbol is
finished.  Two things are ahead of a tour, the symbols not opened yet and the slots that are left in
the open symbols or on the agenda of a symbol not opened yet.  Nothing gets ahead again once it was
opened or handed out.  So along a whole run every symbol is opened once and every slot handed out
once (`Tracks.orderly`).
-/

namespace EditableGrammar.Recursion

open Survey (Entered entered_close_iff entered_enter_iff)

/-- A slot in the right-hand side of a rule: the number of the rule, and a position. -/
structure Slot where
  id : RuleId
  position : Nat
  deriving DecidableEq, Repr

/-- An open symbol with the slots left on its agenda. -/
structure Stop where
  symbol : Symbol
  left : List Slot

/-- What all depth-first searches have in their state. -/
structure Tour where
  /-- the open symbols, innermost first -/
  stops : List Stop
  /-- the open symbols as a set -/
  onPath : Std.ExtTreeSet Symbol
  /-- the symbols that were opened and closed again -/
  finished : Std.ExtTreeSet Symbol

namespace Tour

/-- The open symbols, innermost first. -/
def opened (t : Tour) : List Symbol := t.stops.map Stop.symbol

section

variable {agenda : Symbol → List Slot}

/-- What a step may do, and the slot that it hands out. -/
inductive Move (agenda : Symbol → List Slot) : Tour → Option Slot → Tour → Prop where
  /-- slots are dropped, or nothing is done -/
  | pass {s : Symbol} {left left' : List Slot} {outer : List Stop}
      {onPath finished : Std.ExtTreeSet Symbol} (hleft : left'.Sublist left) :
      Move agenda ⟨⟨s, left⟩ :: outer, onPath, finished⟩ none
        ⟨⟨s, left'⟩ :: outer, onPath, finished⟩
  /-- a slot is handed out and its symbol need not be opened -/
  | look {s : Symbol} {slot : Slot} {left : List Slot} {outer : List Stop}
      {onPath finished : Std.ExtTreeSet Symbol} :
      Move agenda ⟨⟨s, slot :: left⟩ :: outer, onPath, finished⟩ (some slot)
        ⟨⟨s, left⟩ :: outer, onPath, finished⟩
  /-- a slot is handed out and its symbol is opened -/
  | enter {s x : Symbol} {slot : Slot} {left : List Slot} {outer : List Stop}
      {onPath finished : Std.ExtTreeSet Symbol} (hnew : ¬ Entered onPath finished x) :
      Move agenda ⟨⟨s, slot :: left⟩ :: outer, onPath, finished⟩ (some slot)
        ⟨⟨x, agenda x⟩ :: ⟨s, left⟩ :: outer, onPath.insert x, finished⟩
  /-- a symbol is closed -/
  | close {s : Symbol} {left : List Slot} {outer : List Stop}
      {onPath finished : Std.ExtTreeSet Symbol} :
      Move agenda ⟨⟨s, left⟩ :: outer, onPath, finished⟩ none
        ⟨outer, onPath.erase s, finished.insert s⟩

/-- The path holds the open symbols, each open once, and none of them is finished. -/
structure Tidy (agenda : Symbol → List Slot) (t : Tour) : Prop where
  nodup : t.opened.Nodup
  mem_onPath_iff : ∀ x, x ∈ t.onPath ↔ x ∈ t.opened
  unfinished : ∀ x ∈ t.onPath, x ∉ t.finished
  left_sublist : ∀ f ∈ t.stops, f.left.Sublist (agenda f.symbol)

/-- Slots are found on the agenda of one symbol only, and once. -/
structure Apart (agenda : Symbol → List Slot) : Prop where
  nodup : ∀ s, (agenda s).Nodup
  eq_of_mem : ∀ {s s' : Symbol} {slot : Slot}, slot ∈ agenda s → slot ∈ agenda s' → s = s'

/-- A slot is still left in an open symbol, or it is on the agenda of a symbol not opened yet. -/
def Ahead (agenda : Symbol → List Slot) (t : Tour) (slot : Slot) : Prop :=
  (∃ f ∈ t.stops, slot ∈ f.left) ∨
    ∃ s, ¬ Entered t.onPath t.finished s ∧ slot ∈ agenda s

/-! ## Every move keeps a tour tidy -/

section Kept

variable {s x : Symbol} {slot : Slot} {left left' : List Slot} {outer : List Stop}
  {onPath finished : Std.ExtTreeSet Symbol} {t t' : Tour} {out : Option Slot}

theorem Tidy.mem_onPath (ht : Tidy agenda ⟨⟨s, left⟩ :: outer, onPath, finished⟩) : s ∈ onPath :=
  (ht.mem_onPath_iff s).2 List.mem_cons_self

theorem Tidy.start (agenda : Symbol → List Slot) (root : Symbol) :
    Tidy agenda ⟨[⟨root, agenda root⟩], {root}, ∅⟩ := by
  refine ⟨List.nodup_singleton _, ?_, ?_, List.forall_mem_singleton.2 (List.Sublist.refl _)⟩
  · intro x
    simp [opened, eq_comm (a := x)]
  · simp

theorem Tidy.pass (ht : Tidy agenda ⟨⟨s, left⟩ :: outer, onPath, finished⟩)
    (hleft : left'.Sublist left) : Tidy agenda ⟨⟨s, left'⟩ :: outer, onPath, finished⟩ := by
  refine ⟨ht.nodup, ht.mem_onPath_iff, ht.unfinished, List.forall_mem_cons.2 ⟨?_, ?_⟩⟩
  · exact hleft.trans (ht.left_sublist ⟨s, left⟩ List.mem_cons_self)
  · exact fun f hf => ht.left_sublist f (List.mem_cons_of_mem _ hf)

theorem Tidy.enter (ht : Tidy agenda ⟨outer, onPath, finished⟩)
    (hnew : ¬ Entered onPath finished x) :
    Tidy agenda ⟨⟨x, agenda x⟩ :: outer, onPath.insert x, finished⟩ := by
  have hmem : ∀ y, y ∈ onPath.insert x ↔ y = x ∨ y ∈ onPath := by
    simp [eq_comm (a := x)]
  refine ⟨List.nodup_cons.2 ⟨?_, ht.nodup⟩, ?_, ?_, ?_⟩
  · exact fun hx => hnew (Or.inl ((ht.mem_onPath_iff x).2 hx))
  · intro y
    exact (hmem y).trans ((or_congr_right (ht.mem_onPath_iff y)).trans List.mem_cons.symm)
  · intro y hy
    rcases (hmem y).1 hy with rfl | hy
    · exact fun hfinished => hnew (Or.inr hfinished)
    · exact ht.unfinished y hy
  · exact List.forall_mem_cons.2 ⟨List.Sublist.refl _, ht.left_sublist⟩

theorem Tidy.close (ht : Tidy agenda ⟨⟨s, left⟩ :: outer, onPath, finished⟩) :
    Tidy agenda ⟨outer, onPath.erase s, finished.insert s⟩ := by
  obtain ⟨hs, hnodup⟩ : s ∉ outer.map Stop.symbol ∧ (outer.map Stop.symbol).Nodup :=
    List.nodup_cons.1 ht.nodup
  refine ⟨hnodup, ?_, ?_, fun f hf => ht.left_sublist f (List.mem_cons_of_mem _ hf)⟩
  · intro y
    have hy : y ∈ onPath ↔ y ∈ s :: outer.map Stop.symbol := ht.mem_onPath_iff y
    rw [Std.ExtTreeSet.mem_erase, hy, List.mem_cons]
    constructor
    · rintro ⟨hne, rfl | hy⟩
      · simp at hne
      · exact hy
    · intro hy
      refine ⟨fun heq => hs ?_, Or.inr hy⟩
      rwa [Std.compare_eq_iff_eq.1 heq]
  · intro y hy hfinished
    obtain ⟨hne, hy⟩ := Std.ExtTreeSet.mem_erase.1 hy
    rcases Std.ExtTreeSet.mem_insert.1 hfinished with heq | hfinished
    · exact hne heq
    · exact ht.unfinished y hy hfinished

theorem Tidy.move (ht : Tidy agenda t) (h : Move agenda t out t') : Tidy agenda t' := by
  cases h with
  | pass hleft => exact ht.pass hleft
  | look => exact ht.pass (List.sublist_cons_self _ _)
  | enter hnew => exact (ht.pass (List.sublist_cons_self _ _)).enter hnew
  | close => exact ht.close

/-! ## Nothing gets ahead again -/

/-- A symbol that was opened stays so. -/
theorem Move.entered (ht : Tidy agenda t) (h : Move agenda t out t')
    (hx : Entered t.onPath t.finished x) : Entered t'.onPath t'.finished x := by
  cases h with
  | pass => exact hx
  | look => exact hx
  | enter => exact entered_enter_iff.2 (Or.inr hx)
  | close => exact (entered_close_iff ht.mem_onPath).2 hx

theorem Ahead.pass (hslot : Ahead agenda ⟨⟨s, left'⟩ :: outer, onPath, finished⟩ slot)
    (hleft : left' ⊆ left) : Ahead agenda ⟨⟨s, left⟩ :: outer, onPath, finished⟩ slot := by
  refine hslot.imp_left ?_
  rintro ⟨f, hf, hslot⟩
  rcases List.mem_cons.1 hf with rfl | hf
  · exact ⟨⟨s, left⟩, List.mem_cons_self, hleft hslot⟩
  · exact ⟨f, List.mem_cons_of_mem _ hf, hslot⟩

theorem Ahead.of_enter
    (hslot : Ahead agenda ⟨⟨x, agenda x⟩ :: outer, onPath.insert x, finished⟩ slot)
    (hnew : ¬ Entered onPath finished x) : Ahead agenda ⟨outer, onPath, finished⟩ slot := by
  rcases hslot with ⟨f, hf, hslot⟩ | ⟨y, hy, hslot⟩
  · rcases List.mem_cons.1 hf with rfl | hf
    · exact Or.inr ⟨x, hnew, hslot⟩
    · exact Or.inl ⟨f, hf, hslot⟩
  · exact Or.inr ⟨y, fun h => hy (entered_enter_iff.2 (Or.inr h)), hslot⟩

theorem Ahead.of_close (hs : s ∈ onPath)
    (hslot : Ahead agenda ⟨outer, onPath.erase s, finished.insert s⟩ slot) :
    Ahead agenda ⟨⟨s, left⟩ :: outer, onPath, finished⟩ slot := by
  rcases hslot with ⟨f, hf, hslot⟩ | ⟨y, hy, hslot⟩
  · exact Or.inl ⟨f, List.mem_cons_of_mem _ hf, hslot⟩
  · exact Or.inr ⟨y, fun h => hy ((entered_close_iff hs).2 h), hslot⟩

/-- A slot that was handed out is not left anywhere. -/
theorem Tidy.not_ahead (hagenda : Apart agenda)
    (ht : Tidy agenda ⟨⟨s, slot :: left⟩ :: outer, onPath, finished⟩) :
    ¬ Ahead agenda ⟨⟨s, left⟩ :: outer, onPath, finished⟩ slot := by
  have hsublist : (slot :: left).Sublist (agenda s) := ht.left_sublist ⟨s, _⟩ List.mem_cons_self
  have hslot : slot ∈ agenda s := hsublist.subset List.mem_cons_self
  rintro (⟨f, hf, hleft⟩ | ⟨y, hy, hleft⟩)
  · rcases List.mem_cons.1 hf with rfl | hf
    · exact (List.nodup_cons.1 ((hagenda.nodup s).sublist hsublist)).1 hleft
    · -- another open symbol would have to be the same one
      have hf' := (ht.left_sublist f (List.mem_cons_of_mem _ hf)).subset hleft
      have hsame : s = f.symbol := hagenda.eq_of_mem hslot hf'
      exact (List.nodup_cons.1 ht.nodup).1 (List.mem_map.2 ⟨f, hf, hsame.symm⟩)
  · obtain rfl : s = y := hagenda.eq_of_mem hslot hleft
    exact hy (Or.inl ht.mem_onPath)

/-- What is ahead after a move was ahead before it, and it is not what the move hands out. -/
theorem Move.ahead (hagenda : Apart agenda) (ht : Tidy agenda t) (h : Move agenda t out t')
    (hslot : Ahead agenda t' slot) : Ahead agenda t slot ∧ out ≠ some slot := by
  cases h with
  | pass hleft => exact ⟨hslot.pass hleft.subset, Option.some_ne_none _ |>.symm⟩
  | look =>
    refine ⟨hslot.pass (List.subset_cons_self _ _), ?_⟩
    rintro ⟨⟩
    exact ht.not_ahead hagenda hslot
  | enter hnew =>
    have hbefore := hslot.of_enter hnew
    refine ⟨hbefore.pass (List.subset_cons_self _ _), ?_⟩
    rintro ⟨⟩
    exact ht.not_ahead hagenda hbefore
  | close => exact ⟨hslot.of_close ht.mem_onPath, Option.some_ne_none _ |>.symm⟩

/-- The symbol that a step opens, which shows in one open symbol more than before. -/
def newlyOpened (t t' : Tour) : Option Symbol :=
  if t.opened.length < t'.opened.length then t'.opened.head? else none

/-- A symbol is opened that was not opened before, and then it was. -/
theorem Move.of_newlyOpened (h : Move agenda t out t') (hx : newlyOpened t t' = some x) :
    ¬ Entered t.onPath t.finished x ∧ Entered t'.onPath t'.finished x := by
  cases h with
  | pass => simp [newlyOpened, opened] at hx
  | look => simp [newlyOpened, opened] at hx
  | @enter s y slot left outer onPath finished hnew =>
    obtain rfl : y = x := by simpa [newlyOpened, opened] using hx
    exact ⟨hnew, entered_enter_iff.2 (Or.inl rfl)⟩
  | close =>
    rw [newlyOpened, if_neg (by simp [opened])] at hx
    cases hx

end Kept

end

end Tour

/-! ## Whole searches -/

/-- A depth-first search, as far as it can be watched. -/
structure DepthFirst (State : Type) where
  step : State → Option State
  tour : State → Tour
  /-- the slot that is handed out next -/
  handed : State → Option Slot
  /-- the symbol found there, below the open symbol whose right-hand side it stands in -/
  looking : State → Option (Symbol × Symbol)

/-- The symbol that the next step opens. -/
def DepthFirst.opening {State : Type} (d : DepthFirst State) (a : State) : Option Symbol :=
  (d.step a).bind fun b => Tour.newlyOpened (d.tour a) (d.tour b)

/-- A slot holds a symbol in a right-hand side of another. -/
def Slot.Holds (g : Grammar) (s : Symbol) (slot : Slot) (x : Symbol) : Prop :=
  ∃ rhs, g.rules[slot.id]? = some ⟨s, rhs⟩ ∧ rhs[slot.position]? = some x

section Run

variable {State : Type} {g : Grammar} {root : Symbol} {d : DepthFirst State}
  {agenda : Symbol → List Slot} {Kept : State → Prop} {a : State} {states : List State}

/-- In all states the path is the set of the open symbols and holds nothing finished, and no symbol
is opened and no slot is handed out twice; what is looked at stands in a slot of `g`. -/
structure Orderly (g : Grammar) (root : Symbol) (d : DepthFirst State) (states : List State) :
    Prop where
  mem_onPath_iff : ∀ a ∈ states, ∀ x, x ∈ (d.tour a).onPath ↔ x ∈ (d.tour a).opened
  unfinished : ∀ a ∈ states, ∀ x ∈ (d.tour a).onPath, x ∉ (d.tour a).finished
  opened_once : (root :: states.filterMap d.opening).Nodup
  handed_once : (states.filterMap d.handed).Nodup
  handed_holds : ∀ a ∈ states, ∀ s x, d.looking a = some (s, x) →
    ∃ slot, d.handed a = some slot ∧ slot.Holds g s x

/-- A search makes its moves over a tour, as long as its state keeps what it relies on. -/
structure Tracks (g : Grammar) (d : DepthFirst State) (agenda : Symbol → List Slot)
    (Kept : State → Prop) : Prop where
  step : ∀ {a b}, Kept a → (d.tour a).Tidy agenda → d.step a = some b →
    Kept b ∧ Tour.Move agenda (d.tour a) (d.handed a) (d.tour b)
  handed_left : ∀ {a slot}, Kept a → d.handed a = some slot →
    ∃ f ∈ (d.tour a).stops, slot ∈ f.left
  handed_holds : ∀ {a s x}, Kept a → d.looking a = some (s, x) →
    ∃ slot, d.handed a = some slot ∧ slot.Holds g s x

theorem Tracks.keeps {b : State} (h : Tracks g d agenda Kept)
    (ha : Kept a ∧ (d.tour a).Tidy agenda) (hab : d.step a = some b) :
    Kept b ∧ (d.tour b).Tidy agenda := by
  obtain ⟨hb, hmove⟩ := h.step ha.1 ha.2 hab
  exact ⟨hb, ha.2.move hmove⟩

/-- What is opened along a run was not opened at its beginning, and it is opened once. -/
theorem Tracks.nodup_opening (h : Tracks g d agenda Kept) (hrun : Run d.step a states)
    (ha : Kept a ∧ (d.tour a).Tidy agenda) :
    (states.filterMap d.opening).Nodup ∧
      ∀ x ∈ states.filterMap d.opening, ¬ Entered (d.tour a).onPath (d.tour a).finished x := by
  refine hrun.nodup_filterMap _ (fun a x => ¬ Entered (d.tour a).onPath (d.tour a).finished x)
    h.keeps ?_ ?_ ha
  · rintro a x ⟨ha, htidy⟩ hx
    obtain ⟨b, hab, hx⟩ := Option.bind_eq_some_iff.1 hx
    exact ((h.step ha htidy hab).2.of_newlyOpened hx).1
  · rintro a b x ⟨ha, htidy⟩ hab hx
    obtain ⟨-, hmove⟩ := h.step ha htidy hab
    refine ⟨fun hentered => hx (hmove.entered htidy hentered), fun hopening => hx ?_⟩
    rw [DepthFirst.opening, hab] at hopening
    exact (hmove.of_newlyOpened hopening).2

/-- What is handed out along a run was ahead at its beginning, and it is handed out once. -/
theorem Tracks.nodup_handed (h : Tracks g d agenda Kept) (hagenda : Tour.Apart agenda)
    (hrun : Run d.step a states) (ha : Kept a ∧ (d.tour a).Tidy agenda) :
    (states.filterMap d.handed).Nodup ∧
      ∀ slot ∈ states.filterMap d.handed, Tour.Ahead agenda (d.tour a) slot := by
  refine hrun.nodup_filterMap _ (fun a => Tour.Ahead agenda (d.tour a)) h.keeps ?_ ?_ ha
  · intro a slot ha hslot
    exact Or.inl (h.handed_left ha.1 hslot)
  · intro a b slot ha hab hslot
    exact (h.step ha.1 ha.2 hab).2.ahead hagenda ha.2 hslot

/-- A search that makes its moves over a tour, from one open symbol on, is orderly. -/
theorem Tracks.orderly (h : Tracks g d agenda Kept) (hagenda : Tour.Apart agenda)
    (hrun : Run d.step a states) (ha : Kept a)
    (hstart : d.tour a = ⟨[⟨root, agenda root⟩], {root}, ∅⟩) : Orderly g root d states := by
  have ha : Kept a ∧ (d.tour a).Tidy agenda := ⟨ha, hstart ▸ .start agenda root⟩
  have hkept := hrun.forall_kept h.keeps ha
  obtain ⟨honce, hnew⟩ := h.nodup_opening hrun ha
  -- the root is open from the start
  have hroot : Entered (d.tour a).onPath (d.tour a).finished root := by
    rw [hstart]
    exact Or.inl (by simp)
  exact {
    mem_onPath_iff := fun b hb => (hkept b hb).2.mem_onPath_iff
    unfinished := fun b hb => (hkept b hb).2.unfinished
    opened_once := List.nodup_cons.2 ⟨fun hmem => hnew root hmem hroot, honce⟩
    handed_once := (h.nodup_handed hagenda hrun ha).1
    handed_holds := fun b hb s x => h.handed_holds (hkept b hb).1 }

end Run

end EditableGrammar.Recursion
