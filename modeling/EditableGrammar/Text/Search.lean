set_option autoImplicit false

/-!
# Finding a marker in a text

`splitAtFirst marker text` cuts a text at the first place where the marker stands.  Nothing is lost:
the text is what came before, the marker, and what came after (`eq_of_splitAtFirst`).
-/

namespace EditableGrammar

/-- What follows a marker that a text begins with. -/
def afterMarker (marker text : List Char) : Option (List Char) :=
  match marker, text with
  | [], text => some text
  | _ :: _, [] => none
  | m :: marker, c :: text => if m = c then afterMarker marker text else none

/-- What stands before the first marker in a text, and what stands after it. -/
def splitAtFirst (marker : List Char) : List Char → Option (List Char × List Char)
  | [] => (afterMarker marker []).map fun rest => ([], rest)
  | c :: text =>
    match afterMarker marker (c :: text) with
    | some rest => some ([], rest)
    | none => (splitAtFirst marker text).map fun (before, after) => (c :: before, after)

/-- What stands between the first opening marker and the first closing marker after it, and what
stands after that. -/
def between (opening closing text : List Char) : Option (List Char × List Char) :=
  match splitAtFirst opening text with
  | none => none
  | some (_, after) => splitAtFirst closing after

/-! ## Nothing is lost -/

theorem afterMarker_eq_some_iff {marker text rest : List Char} :
    afterMarker marker text = some rest ↔ text = marker ++ rest := by
  induction marker generalizing text with
  | nil => simp [afterMarker]
  | cons m marker ih =>
    cases text with
    | nil => simp [afterMarker]
    | cons c text =>
      unfold afterMarker
      split
      next h => simp [ih, h]
      next h => simp [Ne.symm h]

theorem eq_of_splitAtFirst {marker text before after : List Char}
    (h : splitAtFirst marker text = some (before, after)) : text = before ++ marker ++ after := by
  induction text generalizing before with
  | nil =>
    obtain ⟨rest, hr, he⟩ := Option.map_eq_some_iff.1 h
    cases he
    simpa using afterMarker_eq_some_iff.1 hr
  | cons c text ih =>
    unfold splitAtFirst at h
    split at h
    next rest hr =>
      cases h
      simpa using afterMarker_eq_some_iff.1 hr
    next =>
      obtain ⟨⟨b, a⟩, hs, he⟩ := Option.map_eq_some_iff.1 h
      cases he
      simp [ih hs]

theorem length_of_splitAtFirst {marker text before after : List Char}
    (h : splitAtFirst marker text = some (before, after)) :
    before.length + marker.length + after.length = text.length := by
  rw [eq_of_splitAtFirst h]
  simp only [List.length_append]

theorem length_lt_of_between {opening closing text inside after : List Char}
    (h : between opening closing text = some (inside, after)) (hnonempty : opening ≠ []) :
    after.length < text.length := by
  unfold between at h
  split at h
  · cases h
  · next b a hs =>
    have h1 := length_of_splitAtFirst hs
    have h2 := length_of_splitAtFirst h
    have h3 := List.length_pos_iff.2 hnonempty
    omega

end EditableGrammar
