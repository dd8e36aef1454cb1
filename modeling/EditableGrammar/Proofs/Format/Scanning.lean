import Mathlib.Logic.Relation
import EditableGrammar.Proofs.Format.Segments
import EditableGrammar.Proofs.Recursion.Run

set_option autoImplicit false

/-!
# Scanning a right-hand side

The elements of a right-hand side are found by a cursor that goes over the text from left to right:
over separators, up to the delimiter that closes what another one opened, or over a bare element.
Behind each element it takes the slice of the text from where the body began to where the cursor
stands.

The cursor may pass the end of the text, as it steps over a closing delimiter that may be missing,
and a body may begin behind the cursor, as an opening angle bracket is passed over by the loop that
looks for the closing one.  So the bounds of a slice are a matter of what every step keeps
(`Scan.Safe.step`).  That a scan ends, and what it takes, follows segment by segment
(`Segment.Before.steps`).
-/

namespace EditableGrammar

namespace Listing

open Recursion (Run)

/-! ## The cursor -/

/-- What the cursor goes over.  The loop over the elements ends only where the one over separators
does, so it has no state of its own. -/
inductive Loop where
  /-- separators -/
  | between
  /-- the body from `start` on, up to a delimiter -/
  | upTo (delimiter : Char) (start : Nat)
  /-- the bare element from `start` on -/
  | bare (start : Nat)
  deriving DecidableEq, Repr, Inhabited

/-- A scan underway. -/
structure Scan where
  /-- where the cursor stands -/
  position : Nat
  loop : Loop
  /-- what was taken so far, in order -/
  taken : List Slice
  deriving DecidableEq, Repr, Inhabited

/-- Whether a loop goes over a character. -/
def Loop.passes : Loop → Char → Bool
  | between, c => isSeparator c
  | upTo delimiter _, c => c != delimiter
  | bare _, c => isBare c

namespace Scan

/-- A scan at the beginning of a text. -/
def start : Scan := ⟨0, .between, []⟩

/-- The element begins that the character under the cursor belongs to. -/
def enter (s : Scan) (c : Char) : Scan :=
  if c = '<' then { s with loop := .upTo '>' (s.position + 1) }
  else if c = '"' ∨ c = '\'' then
    { s with position := s.position + 1, loop := .upTo c (s.position + 1) }
  else { s with loop := .bare s.position }

/-- The next state of a scan, unless it stands behind the text and no element is underway. -/
def step (cs : List Char) (s : Scan) : Option Scan :=
  if cs[s.position]?.any s.loop.passes then some { s with position := s.position + 1 }
  else
    match s.loop with
    | .between => cs[s.position]?.map s.enter
    | .upTo _ start => some ⟨s.position + 1, .between, s.taken ++ [⟨start, s.position⟩]⟩
    | .bare start => some ⟨s.position, .between, s.taken ++ [⟨start, s.position⟩]⟩

end Scan

variable {c : Char} {cs rest : List Char} {seg : Segment} {segs : List Segment} {loop : Loop}
  {position : Nat} {taken : List Slice} {s s' : Scan}

/-! ## Every slice is within the text -/

/-- What is taken next begins within the text and not behind the cursor, unless the cursor stands on
the angle bracket that opens it, and then that bracket is passed over first. -/
inductive Loop.Within (cs : List Char) : Loop → Nat → Prop
  | between {position : Nat} : Within cs between position
  | opening {position : Nat} (h : cs[position]? = some '<') :
      Within cs (upTo '>' (position + 1)) position
  | upTo {delimiter : Char} {start position : Nat} (hbegun : start ≤ position)
      (hinside : position ≤ cs.length) : Within cs (upTo delimiter start) position
  | bare {start position : Nat} (hbegun : start ≤ position) (hinside : position ≤ cs.length) :
      Within cs (bare start) position

/-- A slice can be taken from a text. -/
def Slice.Within (cs : List Char) (slice : Slice) : Prop :=
  slice.start ≤ slice.stop ∧ slice.stop ≤ cs.length

/-- What a scan has taken and what it takes next lies within the text. -/
structure Scan.Safe (cs : List Char) (s : Scan) : Prop where
  taken : ∀ slice ∈ s.taken, slice.Within cs
  loop : s.loop.Within cs s.position

theorem Loop.Within.passes (h : loop.Within cs position) (hpos : position < cs.length) :
    loop.Within cs (position + 1) := by
  cases h with
  | between => exact .between
  | opening => exact .upTo (Nat.le_refl _) hpos
  | upTo hbegun => exact .upTo (Nat.le_succ_of_le hbegun) hpos
  | bare hbegun => exact .bare (Nat.le_succ_of_le hbegun) hpos

theorem Scan.Safe.enter (h : s.Safe cs) (hc : cs[s.position]? = some c) : (s.enter c).Safe cs := by
  obtain ⟨hpos, -⟩ := List.getElem?_eq_some_iff.1 hc
  unfold Scan.enter
  split
  next hangle =>
    subst hangle
    exact ⟨h.taken, .opening hc⟩
  next =>
    split
    next => exact ⟨h.taken, .upTo (Nat.le_refl _) hpos⟩
    next => exact ⟨h.taken, .bare (Nat.le_refl _) (Nat.le_of_lt hpos)⟩

theorem Scan.Safe.take {position' start : Nat} (h : ∀ slice ∈ taken, slice.Within cs)
    (hbegun : start ≤ position) (hinside : position ≤ cs.length) :
    Scan.Safe cs ⟨position', .between, taken ++ [⟨start, position⟩]⟩ where
  taken := by
    intro slice hslice
    rcases List.mem_append.1 hslice with hslice | hslice
    · exact h slice hslice
    · cases List.mem_singleton.1 hslice
      exact ⟨hbegun, hinside⟩
  loop := .between

theorem Scan.Safe.step (h : s.Safe cs) (hstep : s.step cs = some s') : s'.Safe cs := by
  obtain ⟨position, loop, taken⟩ := s
  obtain ⟨htaken, hloop⟩ := h
  dsimp only at htaken hloop
  simp only [Scan.step] at hstep
  split at hstep
  next hpasses =>
    cases hstep
    obtain ⟨c, hc, -⟩ := (Option.any_eq_true _ _).1 hpasses
    exact ⟨htaken, hloop.passes (List.getElem?_eq_some_iff.1 hc).1⟩
  next hstops =>
    cases hloop with
    | between =>
      obtain ⟨c, hc, rfl⟩ := Option.map_eq_some_iff.1 hstep
      exact Scan.Safe.enter ⟨htaken, .between⟩ hc
    | opening hc =>
      -- the bracket that opens a body is not the one that closes it
      exact absurd (by rw [hc]; rfl) hstops
    | upTo hbegun hinside =>
      cases hstep
      exact .take htaken hbegun hinside
    | bare hbegun hinside =>
      cases hstep
      exact .take htaken hbegun hinside

theorem Scan.Safe.start (cs : List Char) : Scan.start.Safe cs := ⟨by simp [Scan.start], .between⟩

/-! ## What a scan takes -/

/-- Some steps of a scan. -/
def Scan.Steps (cs : List Char) : Scan → Scan → Prop :=
  Relation.ReflTransGen fun s s' => s.step cs = some s'

theorem drop_eq_cons (h : cs.drop position = c :: rest) :
    cs[position]? = some c ∧ cs.drop (position + 1) = rest := by
  constructor
  · rw [← Nat.add_zero position, ← List.getElem?_drop, h]
    rfl
  · rw [← List.tail_drop, h]
    rfl

/-- A loop goes over characters of its kind. -/
theorem Scan.steps_passes {run : List Char} (loop : Loop) (taken : List Slice)
    (hpasses : ∀ c ∈ run, loop.passes c = true) (h : cs.drop position = run ++ rest) :
    Scan.Steps cs ⟨position, loop, taken⟩ ⟨position + run.length, loop, taken⟩ ∧
      cs.drop (position + run.length) = rest := by
  induction run generalizing position with
  | nil => exact ⟨.refl, h⟩
  | cons c run ih =>
    obtain ⟨hc, hrun⟩ := List.forall_mem_cons.1 hpasses
    obtain ⟨hhere, hdrop⟩ := drop_eq_cons h
    have hstep : Scan.step cs ⟨position, loop, taken⟩ = some ⟨position + 1, loop, taken⟩ := by
      simp [Scan.step, hhere, hc]
    obtain ⟨hsteps, hrest⟩ := ih hrun hdrop
    rw [List.length_cons, Nat.add_comm run.length, ← Nat.add_assoc]
    exact ⟨.head hstep hsteps, hrest⟩

/-- A loop stops where the text does, or before a character that is not of its kind. -/
theorem Loop.stops (loop : Loop) (h : cs.drop position = rest)
    (hstops : ∀ c ∈ rest.head?, loop.passes c = false) :
    ¬ cs[position]?.any loop.passes = true := by
  rw [← Nat.add_zero position, ← List.getElem?_drop, h, ← List.head?_eq_getElem?]
  cases hrest : rest.head? with
  | none => exact Bool.false_ne_true
  | some c => simp [hstops c hrest]

/-- The body of an element between delimiters begins behind the first of them. -/
theorem Scan.steps_opening (hopens : isOpening c = true) (hc : cs[position]? = some c) :
    Scan.Steps cs ⟨position, .between, taken⟩
      ⟨position + 1, .upTo (closing c) (position + 1), taken⟩ := by
  have henter : Scan.step cs ⟨position, .between, taken⟩ =
      some (Scan.enter ⟨position, .between, taken⟩ c) := by
    simp [Scan.step, hc, Loop.passes, isSeparator_of_isOpening hopens]
  rcases isOpening_iff.1 hopens with rfl | rfl | rfl
  · -- the loop that looks for the closing bracket passes over the opening one first
    refine .head henter (.single ?_)
    simp [Scan.enter, Scan.step, hc, Loop.passes, closing]
  · exact .single henter
  · exact .single henter

/-- The cursor steps over the place of the closing delimiter, whether there is one or not. -/
theorem Scan.steps_enclosed {body after : List Char} (hopens : isOpening c = true)
    (habsent : closing c ∉ body) (hends : ∀ d ∈ after.head?, d = closing c)
    (h : cs.drop position = c :: (body ++ after)) :
    Scan.Steps cs ⟨position, .between, taken⟩
        ⟨position + 1 + body.length + 1, .between,
          taken ++ [⟨position + 1, position + 1 + body.length⟩]⟩ ∧
      cs.drop (position + 1 + body.length) = after := by
  obtain ⟨hc, hbody⟩ := drop_eq_cons h
  obtain ⟨hsteps, hafter⟩ := Scan.steps_passes (.upTo (closing c) (position + 1)) taken
    (fun d hd => bne_iff_ne.2 fun h => habsent (h ▸ hd)) hbody
  have hstops := Loop.stops (.upTo (closing c) (position + 1)) hafter
    fun d hd => bne_eq_false_iff_eq.2 (hends d hd)
  exact ⟨((Scan.steps_opening hopens hc).trans hsteps).tail (if_neg hstops), hafter⟩

/-- A bare element is taken from its first character on. -/
theorem Scan.steps_bare {name : List Char} (hplain : ∀ d ∈ c :: name, isBare d = true)
    (hunquoted : isOpening c = false) (hends : ∀ d ∈ rest.head?, isBare d = false)
    (h : cs.drop position = c :: name ++ rest) :
    Scan.Steps cs ⟨position, .between, taken⟩
        ⟨position + (c :: name).length, .between,
          taken ++ [⟨position, position + (c :: name).length⟩]⟩ ∧
      cs.drop (position + (c :: name).length) = rest := by
  obtain ⟨hc, -⟩ := drop_eq_cons h
  have hseparator : isSeparator c = false := isSeparator_of_isBare (hplain c List.mem_cons_self)
  have hother : ¬ c = '<' ∧ ¬ (c = '"' ∨ c = '\'') := by
    rw [← not_or, ← isOpening_iff, hunquoted]
    exact Bool.false_ne_true
  have henter : Scan.Steps cs ⟨position, .between, taken⟩ ⟨position, .bare position, taken⟩ :=
    .single (by simp [Scan.step, hc, Loop.passes, hseparator, Scan.enter, hother])
  obtain ⟨hsteps, hrest⟩ := Scan.steps_passes (.bare position) taken hplain h
  have hstops := Loop.stops (.bare position) hrest hends
  exact ⟨(henter.trans hsteps).tail (if_neg hstops), hrest⟩

/-- Behind a segment the cursor stands at the rest of the text, or has passed its end. -/
theorem Segment.Before.steps (h : seg.Before rest) (hcs : cs.drop position = seg.text ++ rest) :
    ∃ next, Scan.Steps cs ⟨position, .between, taken⟩
        ⟨next, .between, taken ++ (seg.bodySlice? position).toList⟩ ∧
      cs.drop next = rest ∧ (rest = [] ∨ next = position + seg.text.length) := by
  cases h with
  | separators hne_nil hseparate hstops =>
    obtain ⟨hsteps, hrest⟩ := Scan.steps_passes .between taken hseparate hcs
    exact ⟨_, by simpa [Segment.bodySlice?] using hsteps, hrest, .inr rfl⟩
  | @closed opening body _ hopens habsent =>
    have htext : cs.drop position = opening :: (body ++ closing opening :: rest) := by
      simpa [Segment.text] using hcs
    obtain ⟨hsteps, hafter⟩ := Scan.steps_enclosed hopens habsent (by simp) htext
    refine ⟨_, hsteps, (drop_eq_cons hafter).2, .inr ?_⟩
    simp only [Segment.text, if_true, List.length_append, List.length_cons, List.length_nil]
    omega
  | @unclosed opening body hopens habsent =>
    have htext : cs.drop position = opening :: (body ++ []) := by
      simpa [Segment.text] using hcs
    obtain ⟨hsteps, hafter⟩ := Scan.steps_enclosed hopens habsent (by simp) htext
    have hend : cs.drop (position + 1 + body.length + 1) = [] := by
      rw [← List.tail_drop, hafter]
      rfl
    exact ⟨_, hsteps, hend, .inl rfl⟩
  | @bare body _ hne_nil hplain hunquoted hstops =>
    obtain ⟨c, name, rfl⟩ := List.exists_cons_of_ne_nil hne_nil
    obtain ⟨hsteps, hrest⟩ := Scan.steps_bare hplain (hunquoted c rfl) hstops hcs
    exact ⟨_, hsteps, hrest, .inr rfl⟩

/-- Behind the last segment the scan ends. -/
theorem Segmented.steps (h : Segmented segs rest) (hcs : cs.drop position = rest)
    (taken : List Slice) :
    ∃ last, Scan.Steps cs ⟨position, .between, taken⟩ last ∧ last.step cs = none ∧
      last.taken = taken ++ bodySlices position segs := by
  induction h generalizing position taken with
  | nil =>
    have hend : cs[position]? = none :=
      List.getElem?_eq_none (List.drop_eq_nil_iff.1 hcs)
    exact ⟨_, .refl, by simp [Scan.step, hend], by simp [bodySlices]⟩
  | @cons seg segs rest hbefore hrest ih =>
    obtain ⟨next, hsteps, hdrop, hnext⟩ := hbefore.steps hcs
    obtain ⟨last, hlater, hlast, htaken⟩ := ih hdrop _
    refine ⟨last, hsteps.trans hlater, hlast, ?_⟩
    rw [htaken, bodySlices, List.append_assoc]
    rcases hnext with rfl | rfl
    · rw [hrest.eq_nil]
      rfl
    · rfl

theorem Slice.of_eq {body after : List Char} (h : cs.drop position = body ++ after) :
    Slice.of ⟨position, position + body.length⟩ cs = body := by
  simp [Slice.of, List.extract_eq_take_drop, h]

/-- The slices of the bodies hold the bodies. -/
theorem Segmented.map_of_bodySlices (h : Segmented segs rest) (hcs : cs.drop position = rest) :
    (bodySlices position segs).map (·.of cs) = segs.filterMap Segment.body? := by
  induction h generalizing position with
  | nil => rfl
  | @cons seg segs rest hbefore hrest ih =>
    have hlater : cs.drop (position + seg.text.length) = rest := by
      rw [← List.drop_drop, hcs, List.drop_left]
    have hbody : (seg.bodySlice? position).map (·.of cs) = seg.body? := by
      cases seg with
      | separators => rfl
      | enclosed opening body closed =>
        rw [Segment.text, List.append_assoc, List.cons_append] at hcs
        exact congrArg some (Slice.of_eq (drop_eq_cons hcs).2)
      | bare body => exact congrArg some (Slice.of_eq hcs)
    rw [bodySlices, List.map_append, ih hlater, ← Option.toList_map, hbody]
    cases hseg : seg.body? <;> simp [hseg]

/-- Whatever a text holds, the scan of it as a right-hand side ends, and every slice that it takes
lies within the text.  The text falls in one way into segments, each of them separators or one
element, and the symbols read are the bodies of the elements, in order.  The slices taken hold these
symbols, and each place of the text lies in exactly one of them if its character is neither a
separator between elements nor a delimiter, and otherwise in none. -/
theorem symbols_eq_bodies (cs : List Char) :
    ∃ (segs : List Segment) (states : List Scan) (last : Scan),
      (Segmented segs cs ∧ ∀ segs', Segmented segs' cs → segs' = segs) ∧
      symbols cs = (segs.filterMap Segment.body?).map String.ofList ∧
      (Run (Scan.step cs) Scan.start states ∧ states.getLast? = some last) ∧
      (∀ s ∈ states, ∀ slice ∈ s.taken,
        slice.start ≤ slice.stop ∧ slice.stop ≤ cs.length) ∧
      symbols cs = last.taken.map (fun slice => String.ofList (slice.of cs)) ∧
      ∀ i < cs.length, ∃ role, (segs.flatMap Segment.roles)[i]? = some role ∧
        last.taken.countP (·.covers i) =
          if role ≠ .separator ∧ role ≠ .delimiter then 1 else 0 := by
  obtain ⟨segs, hsegs⟩ := exists_segmented cs
  obtain ⟨last, hsteps, hend, htaken⟩ := hsegs.steps List.drop_zero []
  obtain ⟨states, hrun, hlast⟩ := Run.exists_of_steps hsteps hend
  have hsafe : ∀ s ∈ states, s.Safe cs :=
    hrun.forall_kept (fun h hstep => h.step hstep) (.start cs)
  have hsymbols : symbols cs = (segs.filterMap Segment.body?).map String.ofList := by
    rw [symbols, hsegs.elements_eq]
  rw [List.nil_append] at htaken
  refine ⟨segs, states, last, ⟨hsegs, fun _ h => hsegs.unique h⟩, hsymbols, ⟨hrun, hlast⟩,
    fun s hs => (hsafe s hs).taken, ?_, fun i hi => ?_⟩
  · rw [hsymbols, ← hsegs.map_of_bodySlices List.drop_zero, List.map_map, htaken]
    rfl
  · rw [← hsegs.length_roles] at hi
    refine ⟨_, List.getElem?_eq_getElem hi, ?_⟩
    have hcount := countP_bodySlices segs 0 i
    rw [Nat.zero_add, List.getElem?_eq_getElem hi] at hcount
    rw [htaken, hcount]
    cases (segs.flatMap Segment.roles)[i] <;> simp

end Listing

end EditableGrammar
