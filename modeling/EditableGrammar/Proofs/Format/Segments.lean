import EditableGrammar.Proofs.Format.ListedRule

set_option autoImplicit false

/-!
# The segments of a right-hand side

Whatever stands between the brackets of a rule, well formed or not, falls into segments from left to
right: separators, an element between delimiters whose closing one may be missing at the end, or an
element that stands alone.  Which segment comes next is determined by the characters
(`nextSegment?_eq_some_iff`), so there is one way to divide a text (`exists_segmented`,
`Segmented.unique`), and the elements read from it are the bodies of its segments
(`Segmented.elements_eq`).

Every character has a role in its segment.  The bodies are slices of the text, and a place lies in
exactly one of them if the role of its character is to be content, and in none otherwise
(`countP_bodySlices`).
-/

namespace EditableGrammar

namespace Listing

/-! ## Segments -/

/-- What an element between delimiters begins with. -/
def isOpening (c : Char) : Bool := c == '<' || c == '"' || c == '\''

/-- The delimiter that ends what the given one begins. -/
def closing (c : Char) : Char := if c = '<' then '>' else c

/-- A segment of a right-hand side. -/
inductive Segment where
  /-- what stands between elements -/
  | separators (cs : List Char)
  /-- an element between delimiters, the closing one if it is there -/
  | enclosed (opening : Char) (body : List Char) (closed : Bool)
  /-- an element without delimiters -/
  | bare (body : List Char)
  deriving DecidableEq, Repr, Inhabited

/-- What a character is in its segment. -/
inductive Role where
  | separator
  | delimiter
  | content
  deriving DecidableEq, Repr, Inhabited

/-- The places of a text from `start` on and before `stop`. -/
structure Slice where
  start : Nat
  stop : Nat
  deriving DecidableEq, Repr, Inhabited

namespace Slice

/-- The characters at the places of a slice. -/
def of (slice : Slice) (cs : List Char) : List Char := cs.extract slice.start slice.stop

/-- Whether a place belongs to a slice. -/
def covers (slice : Slice) (i : Nat) : Bool := slice.start ≤ i && i < slice.stop

end Slice

namespace Segment

/-- The characters of a segment. -/
def text : Segment → List Char
  | separators cs => cs
  | enclosed opening body closed => opening :: body ++ if closed then [closing opening] else []
  | bare body => body

/-- The element that a segment holds, without its delimiters. -/
def body? : Segment → Option (List Char)
  | separators _ => none
  | enclosed _ body _ => some body
  | bare body => some body

/-- The roles of the characters of a segment. -/
def roles : Segment → List Role
  | separators cs => List.replicate cs.length .separator
  | enclosed _ body closed =>
    .delimiter :: List.replicate body.length .content ++ if closed then [.delimiter] else []
  | bare body => List.replicate body.length .content

/-- The slice of the body of a segment that begins at `start`. -/
def bodySlice? (start : Nat) : Segment → Option Slice
  | separators _ => none
  | enclosed _ body _ => some ⟨start + 1, start + 1 + body.length⟩
  | bare body => some ⟨start, start + body.length⟩

/-- A segment may stand before the given rest of a text, and ends there. -/
inductive Before : Segment → List Char → Prop
  | separators {cs rest : List Char} (hne_nil : cs ≠ [])
      (hseparate : ∀ c ∈ cs, isSeparator c = true)
      (hstops : ∀ c ∈ rest.head?, isSeparator c = false) : Before (separators cs) rest
  | closed {opening : Char} {body rest : List Char} (hopens : isOpening opening = true)
      (habsent : closing opening ∉ body) : Before (enclosed opening body true) rest
  | unclosed {opening : Char} {body : List Char} (hopens : isOpening opening = true)
      (habsent : closing opening ∉ body) : Before (enclosed opening body false) []
  | bare {body rest : List Char} (hne_nil : body ≠ []) (hplain : ∀ c ∈ body, isBare c = true)
      (hunquoted : ∀ c ∈ body.head?, isOpening c = false)
      (hstops : ∀ c ∈ rest.head?, isBare c = false) : Before (bare body) rest

end Segment

/-- A text is divided into segments, one behind the other. -/
inductive Segmented : List Segment → List Char → Prop
  | nil : Segmented [] []
  | cons {seg : Segment} {segs : List Segment} {rest : List Char} (hbefore : seg.Before rest)
      (hrest : Segmented segs rest) : Segmented (seg :: segs) (seg.text ++ rest)

/-- The slices of the bodies of some segments, the first of which begins at `start`. -/
def bodySlices : Nat → List Segment → List Slice
  | _, [] => []
  | start, seg :: segs =>
    (seg.bodySlice? start).toList ++ bodySlices (start + seg.text.length) segs

variable {c : Char} {cs rest : List Char} {seg : Segment} {segs : List Segment}

/-! ## Which segment comes next -/

theorem isOpening_iff : isOpening c = true ↔ c = '<' ∨ c = '"' ∨ c = '\'' := by
  simp [isOpening, or_assoc]

theorem isSeparator_of_isOpening (h : isOpening c = true) : isSeparator c = false := by
  rcases isOpening_iff.1 h with rfl | rfl | rfl <;> decide

theorem isSeparator_of_isBare (h : isBare c = true) : isSeparator c = false :=
  Bool.eq_false_iff.2 fun h' => absurd h (by simp [isBare_of_isSeparator h'])

/-- What is no separator and opens nothing is part of a bare element. -/
theorem isBare_of_not (h : isSeparator c = false) (h' : isOpening c = false) :
    isBare c = true := by
  have hangle : c ≠ '<' := by
    rintro rfl
    cases h'
  obtain ⟨hblank, hcomma⟩ := Bool.or_eq_false_iff.1 h
  simp [isBare, hblank, hcomma, hangle]

theorem element_of_isOpening (h : isOpening c = true) (cs : List Char) :
    element c cs = upTo (closing c) cs := by
  rcases isOpening_iff.1 h with rfl | rfl | rfl <;> rfl

/-- The segment that a text begins with, and what follows it. -/
def nextSegment? : List Char → Option (Segment × List Char)
  | [] => none
  | c :: cs =>
    if isSeparator c then
      some (.separators (c :: cs.takeWhile isSeparator), cs.dropWhile isSeparator)
    else if isOpening c then
      some (.enclosed c (upTo (closing c) cs).1 (cs.contains (closing c)), (upTo (closing c) cs).2)
    else some (.bare (c :: cs.takeWhile isBare), cs.dropWhile isBare)

theorem head?_dropWhile {p : Char → Bool} : ∀ c ∈ (cs.dropWhile p).head?, p c = false := by
  intro c hc
  have := List.head?_dropWhile_not p cs
  rw [Option.mem_def.1 hc] at this
  simpa using this

namespace Segment.Before

theorem text_ne_nil (h : seg.Before rest) : seg.text ≠ [] := by
  cases h with
  | separators hne_nil => exact hne_nil
  | closed => exact List.cons_ne_nil _ _
  | unclosed => exact List.cons_ne_nil _ _
  | bare hne_nil => exact hne_nil

theorem nextSegment?_eq (h : seg.Before rest) :
    nextSegment? (seg.text ++ rest) = some (seg, rest) := by
  cases h with
  | @separators cs _ hne_nil hseparate hstops =>
    obtain ⟨c, cs, rfl⟩ := List.exists_cons_of_ne_nil hne_nil
    obtain ⟨hc, hcs⟩ := List.forall_mem_cons.1 hseparate
    obtain ⟨htake, hdrop⟩ := span_append hcs hstops
    simp only [text, List.cons_append, nextSegment?, hc, if_true, htake, hdrop]
  | @closed opening body _ hopens habsent =>
    simp [text, nextSegment?, isSeparator_of_isOpening hopens, hopens, upTo_append habsent]
  | @unclosed opening body hopens habsent =>
    simp [text, nextSegment?, isSeparator_of_isOpening hopens, hopens, upTo_of_not_mem habsent,
      habsent]
  | @bare body _ hne_nil hplain hunquoted hstops =>
    obtain ⟨c, body, rfl⟩ := List.exists_cons_of_ne_nil hne_nil
    obtain ⟨hc, hbody⟩ := List.forall_mem_cons.1 hplain
    obtain ⟨htake, hdrop⟩ := span_append hbody hstops
    simp [text, nextSegment?, isSeparator_of_isBare hc, hunquoted c rfl, htake, hdrop]

end Segment.Before

theorem separators_next (h : isSeparator c = true) (cs : List Char) :
    (Segment.separators (c :: cs.takeWhile isSeparator)).Before (cs.dropWhile isSeparator) ∧
      c :: cs = (Segment.separators (c :: cs.takeWhile isSeparator)).text ++
        cs.dropWhile isSeparator := by
  refine ⟨.separators (List.cons_ne_nil _ _) ?_ head?_dropWhile, by simp [Segment.text]⟩
  exact List.forall_mem_cons.2 ⟨h, fun d hd => List.mem_takeWhile_imp hd⟩

theorem enclosed_next (h : isOpening c = true) (cs : List Char) :
    (Segment.enclosed c (upTo (closing c) cs).1 (cs.contains (closing c))).Before
        (upTo (closing c) cs).2 ∧
      c :: cs = (Segment.enclosed c (upTo (closing c) cs).1 (cs.contains (closing c))).text ++
        (upTo (closing c) cs).2 := by
  by_cases hclosed : closing c ∈ cs
  · obtain ⟨body, rest, rfl, habsent⟩ := List.eq_append_cons_of_mem hclosed
    rw [upTo_append habsent, List.contains_iff_mem.2 hclosed]
    exact ⟨.closed h habsent, by simp [Segment.text]⟩
  · have hcontains : cs.contains (closing c) = false := by simpa using hclosed
    rw [upTo_of_not_mem hclosed, hcontains]
    exact ⟨.unclosed h hclosed, by simp [Segment.text]⟩

theorem bare_next (h : isSeparator c = false) (h' : isOpening c = false) (cs : List Char) :
    (Segment.bare (c :: cs.takeWhile isBare)).Before (cs.dropWhile isBare) ∧
      c :: cs = (Segment.bare (c :: cs.takeWhile isBare)).text ++ cs.dropWhile isBare := by
  refine ⟨.bare (List.cons_ne_nil _ _) ?_ ?_ head?_dropWhile, by simp [Segment.text]⟩
  · exact List.forall_mem_cons.2 ⟨isBare_of_not h h', fun d hd => List.mem_takeWhile_imp hd⟩
  · rintro d ⟨⟩
    exact h'

/-- A segment is the next one if it may stand before the rest of the text. -/
theorem nextSegment?_eq_some_iff :
    nextSegment? cs = some (seg, rest) ↔ seg.Before rest ∧ cs = seg.text ++ rest := by
  constructor
  · intro h
    cases cs with
    | nil => cases h
    | cons c cs =>
      rw [nextSegment?] at h
      split at h
      next hseparator =>
        cases h
        exact separators_next hseparator cs
      next hseparator =>
        split at h
        next hopening =>
          cases h
          exact enclosed_next hopening cs
        next hopening =>
          cases h
          exact bare_next (Bool.eq_false_iff.2 hseparator) (Bool.eq_false_iff.2 hopening) cs
  · rintro ⟨hbefore, rfl⟩
    exact hbefore.nextSegment?_eq

theorem nextSegment?_eq_none_iff : nextSegment? cs = none ↔ cs = [] := by
  cases cs with
  | nil => simp [nextSegment?]
  | cons c cs =>
    refine iff_of_false ?_ (List.cons_ne_nil c cs)
    rw [nextSegment?]
    split
    next => exact Option.some_ne_none _
    next => split <;> exact Option.some_ne_none _

/-! ## One way to divide a text -/

theorem exists_segmented (cs : List Char) : ∃ segs, Segmented segs cs := by
  induction hlen : cs.length using Nat.strongRecOn generalizing cs with
  | _ n ih =>
    cases hnext : nextSegment? cs with
    | none =>
      obtain rfl := nextSegment?_eq_none_iff.1 hnext
      exact ⟨[], .nil⟩
    | some next =>
      obtain ⟨seg, rest⟩ := next
      obtain ⟨hbefore, rfl⟩ := nextSegment?_eq_some_iff.1 hnext
      have hpos := List.length_pos_iff.2 hbefore.text_ne_nil
      rw [List.length_append] at hlen
      obtain ⟨segs, hsegs⟩ := ih rest.length (by omega) rest rfl
      exact ⟨seg :: segs, .cons hbefore hsegs⟩

namespace Segmented

theorem eq_nil (h : Segmented segs []) : segs = [] := by
  generalize hcs : ([] : List Char) = cs at h
  cases h with
  | nil => rfl
  | cons hbefore => exact absurd (List.append_eq_nil_iff.1 hcs.symm).1 hbefore.text_ne_nil

theorem unique {segs' : List Segment} (h : Segmented segs cs) (h' : Segmented segs' cs) :
    segs' = segs := by
  induction h generalizing segs' with
  | nil => exact h'.eq_nil
  | @cons seg segs rest hbefore hrest ih =>
    have hnext := hbefore.nextSegment?_eq
    generalize htext : seg.text ++ rest = cs at h' hnext
    cases h' with
    | nil => exact absurd (List.append_eq_nil_iff.1 htext).1 hbefore.text_ne_nil
    | cons hbefore' hrest' =>
      rw [hbefore'.nextSegment?_eq] at hnext
      cases hnext
      rw [ih hrest']

/-- The elements of a text are the bodies of its segments. -/
theorem elements_eq (h : Segmented segs cs) : elements cs = segs.filterMap Segment.body? := by
  induction h with
  | nil => exact elements_eq_nil rfl
  | @cons seg segs rest hbefore hrest ih =>
    have hfirst {c : Char} (h : isSeparator c = false) (cs : List Char) :
        elements (c :: cs) = (element c cs).1 :: elements (element c cs).2 :=
      elements_eq_cons (List.dropWhile_cons_of_neg (by simp [h]))
    cases hbefore with
    | separators hne_nil hseparate hstops =>
      exact (elements_append_of_separators hseparate rest).trans ih
    | @closed opening body _ hopens habsent =>
      have htext : (Segment.enclosed opening body true).text ++ rest =
          opening :: (body ++ closing opening :: rest) := by simp [Segment.text]
      rw [htext, hfirst (isSeparator_of_isOpening hopens), element_of_isOpening hopens,
        upTo_append habsent, ih]
      rfl
    | @unclosed opening body hopens habsent =>
      have htext : (Segment.enclosed opening body false).text ++ [] = opening :: body := by
        simp [Segment.text]
      rw [htext, hfirst (isSeparator_of_isOpening hopens), element_of_isOpening hopens,
        upTo_of_not_mem habsent, ih]
      rfl
    | @bare body _ hne_nil hplain hunquoted hstops =>
      obtain ⟨c, name, rfl⟩ := List.exists_cons_of_ne_nil hne_nil
      have hseparator := isSeparator_of_isBare (hplain c List.mem_cons_self)
      have hquote : c ≠ '"' ∧ c ≠ '\'' := by
        constructor <;> rintro rfl <;> exact absurd (hunquoted _ rfl) (by decide)
      have htext : (Segment.bare (c :: name)).text ++ rest = c :: (name ++ rest) := rfl
      rw [htext, hfirst hseparator, element_bare hplain hquote hstops, ih]
      rfl

end Segmented

/-- A quote within a bare element, and a quote that is never closed. -/
example : elements ['<', 'a', '>', 'b', '\'', ',', ' ', '"', '<', 'c'] =
    [['a'], ['b', '\''], ['<', 'c']] := by cbv

/-! ## Places -/

@[simp] theorem Segment.length_roles (seg : Segment) : seg.roles.length = seg.text.length := by
  cases seg with
  | separators cs => simp [roles, text]
  | enclosed opening body closed => cases closed <;> simp [roles, text]
  | bare body => simp [roles, text]

theorem Segmented.length_roles (h : Segmented segs cs) :
    (segs.flatMap Segment.roles).length = cs.length := by
  induction h with
  | nil => rfl
  | cons hbefore hrest ih => simp [ih]

theorem Slice.covers_iff {slice : Slice} {i : Nat} :
    slice.covers i = true ↔ slice.start ≤ i ∧ i < slice.stop := by
  simp [Slice.covers]

theorem Segment.content_enclosed_iff {opening : Char} {body : List Char} {closed : Bool}
    {i : Nat} :
    (enclosed opening body closed).roles[i + 1]? = some .content ↔ i < body.length := by
  simp only [roles, List.cons_append, List.getElem?_cons_succ, List.getElem?_append,
    List.length_replicate]
  split
  next hi => simp [hi]
  next hi =>
    refine iff_of_false (fun h => ?_) hi
    exact absurd (List.mem_of_getElem? h) (by cases closed <;> simp)

/-- The content of a segment is where its body is. -/
theorem Segment.covered_iff_content (seg : Segment) (start i : Nat) :
    (∃ slice ∈ seg.bodySlice? start, slice.covers (start + i) = true) ↔
      seg.roles[i]? = some .content := by
  cases seg with
  | separators cs => simp [bodySlice?, roles, List.getElem?_replicate]
  | bare body => simp [bodySlice?, roles, List.getElem?_replicate, Slice.covers_iff]
  | enclosed opening body closed =>
    have hcovered : (∃ slice ∈ (enclosed opening body closed).bodySlice? start,
          slice.covers (start + i) = true) ↔
        start + 1 ≤ start + i ∧ start + i < start + 1 + body.length := by
      simp [bodySlice?, Slice.covers_iff]
    rw [hcovered]
    cases i with
    | zero => exact iff_of_false (by omega) (by simp [roles])
    | succ i =>
      rw [content_enclosed_iff]
      omega

theorem Segment.countP_bodySlice? (seg : Segment) (start i : Nat) :
    (seg.bodySlice? start).toList.countP (·.covers (start + i)) =
      if seg.roles[i]? = some .content then 1 else 0 := by
  rw [← if_congr (seg.covered_iff_content start i) rfl rfl]
  cases seg.bodySlice? start <;> simp [List.countP_cons]

theorem le_start_of_mem_bodySlices {slice : Slice} {start : Nat}
    (h : slice ∈ bodySlices start segs) : start ≤ slice.start := by
  induction segs generalizing start with
  | nil => cases h
  | cons seg segs ih =>
    rcases List.mem_append.1 h with h | h
    · cases seg with
      | separators cs => cases h
      | enclosed opening body closed =>
        cases List.mem_singleton.1 h
        exact Nat.le_succ start
      | bare body =>
        cases List.mem_singleton.1 h
        exact Nat.le_refl start
    · exact Nat.le_trans (Nat.le_add_right _ _) (ih h)

/-- A place lies in one body if its character is content, and in none if it is not. -/
theorem countP_bodySlices (segs : List Segment) (start i : Nat) :
    (bodySlices start segs).countP (·.covers (start + i)) =
      if (segs.flatMap Segment.roles)[i]? = some .content then 1 else 0 := by
  induction segs generalizing start i with
  | nil => simp [bodySlices]
  | cons seg segs ih =>
    rw [bodySlices, List.countP_append, seg.countP_bodySlice?, List.flatMap_cons]
    by_cases hi : i < seg.text.length
    · have hlater :
          (bodySlices (start + seg.text.length) segs).countP (·.covers (start + i)) = 0 := by
        refine List.countP_eq_zero.2 fun slice hslice hcovers => ?_
        have hstart := le_start_of_mem_bodySlices hslice
        have hplace := (Slice.covers_iff.1 hcovers).1
        omega
      rw [hlater, List.getElem?_append_left (by simpa using hi), Nat.add_zero]
    · have hplace : start + i = start + seg.text.length + (i - seg.text.length) := by omega
      have hnone : seg.roles[i]? = none := List.getElem?_eq_none (by simpa using hi)
      rw [hnone, hplace, ih, List.getElem?_append_right (by simpa using hi), seg.length_roles]
      simp

end Listing

end EditableGrammar
