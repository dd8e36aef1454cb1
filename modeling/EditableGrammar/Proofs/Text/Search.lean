import EditableGrammar.Text.Search

set_option autoImplicit false

/-!
# Where a marker is found

A search goes past a text when the marker does not begin in it, whatever follows (`Passed`).  Texts
that are gone past one after the other are gone past together, and a marker behind them is found
there (`Passed.splitAtFirst_append`).
-/

namespace EditableGrammar

/-- A text that the search for a marker goes past, whatever follows it. -/
def Passed (marker cs : List Char) : Prop :=
  ∀ rest, splitAtFirst marker (cs ++ rest) =
    (splitAtFirst marker rest).map fun (before, after) => (cs ++ before, after)

theorem afterMarker_append (marker rest : List Char) :
    afterMarker marker (marker ++ rest) = some rest := afterMarker_eq_some_iff.2 rfl

theorem splitAtFirst_self (marker rest : List Char) :
    splitAtFirst marker (marker ++ rest) = some ([], rest) := by
  have here := afterMarker_append marker rest
  cases h : marker ++ rest with
  | nil => rw [splitAtFirst, ← h, here, Option.map_some]
  | cons c text => rw [splitAtFirst, ← h, here]

theorem splitAtFirst_cons_of_none {marker text : List Char} {c : Char}
    (h : afterMarker marker (c :: text) = none) :
    splitAtFirst marker (c :: text) =
      (splitAtFirst marker text).map fun (before, after) => (c :: before, after) := by
  rw [splitAtFirst, h]

namespace Passed

variable {marker cs ds : List Char}

theorem nil : Passed marker [] := fun rest => by simp

theorem cons {c : Char} (hnotHere : ∀ rest, afterMarker marker (c :: cs ++ rest) = none)
    (h : Passed marker cs) : Passed marker (c :: cs) := fun rest => by
  have := hnotHere rest
  rw [List.cons_append] at this ⊢
  rw [splitAtFirst_cons_of_none this, h rest, Option.map_map]
  rfl

theorem append (h : Passed marker cs) (h' : Passed marker ds) : Passed marker (cs ++ ds) :=
  fun rest => by
    rw [List.append_assoc, h, h', Option.map_map]
    simp only [Function.comp_def, List.append_assoc]

/-- The first character of the marker does not occur in the text. -/
theorem of_not_mem {m : Char} (h : m ∉ cs) : Passed (m :: marker) cs := by
  induction cs with
  | nil => exact nil
  | cons c cs ih =>
    rw [List.mem_cons, not_or] at h
    exact cons (fun rest => if_neg h.1) (ih h.2)

/-- The text begins as the marker does, but goes on differently, and does not begin so again. -/
theorem of_differs {m : Char} (h : m ∉ cs ∧ ¬ marker <+: cs ∧ ¬ cs <+: marker) :
    Passed (m :: marker) (m :: cs) := by
  obtain ⟨honce, hnotLonger, hnotShorter⟩ := h
  refine cons (fun rest => Option.eq_none_iff_forall_ne_some.2 fun after he => ?_)
    (of_not_mem honce)
  have hsame : cs ++ rest = marker ++ after := by simpa using afterMarker_eq_some_iff.1 he
  rcases List.append_eq_append_iff.1 hsame with ⟨more, hm, -⟩ | ⟨more, hc, -⟩
  · exact hnotShorter ⟨more, hm.symm⟩
  · exact hnotLonger ⟨more, hc.symm⟩

/-- The marker is found behind a text that is gone past. -/
theorem splitAtFirst_append (h : Passed marker cs) (rest : List Char) :
    splitAtFirst marker (cs ++ marker ++ rest) = some (cs, rest) := by
  rw [List.append_assoc, h, splitAtFirst_self, Option.map_some]
  simp

/-- The marker is not found in a text that is gone past. -/
theorem splitAtFirst_eq_none (h : Passed marker cs) (hne_nil : marker ≠ []) :
    splitAtFirst marker cs = none := by
  obtain ⟨m, marker, rfl⟩ := List.exists_cons_of_ne_nil hne_nil
  have := h []
  rwa [List.append_nil] at this

end Passed

/-! ## Texts that may hold the marker -/

/-- What has been found in a text is found when the text goes on. -/
theorem splitAtFirst_append_of_some {marker text before after : List Char}
    (h : splitAtFirst marker text = some (before, after)) (rest : List Char) :
    splitAtFirst marker (text ++ rest) = some (before, after ++ rest) := by
  induction text generalizing before with
  | nil =>
    obtain ⟨after', hr, he⟩ := Option.map_eq_some_iff.1 h
    cases he
    obtain ⟨rfl, rfl⟩ := List.append_eq_nil_iff.1 (afterMarker_eq_some_iff.1 hr).symm
    exact splitAtFirst_self [] rest
  | cons c text ih =>
    unfold splitAtFirst at h
    split at h
    next after' hr =>
      cases h
      rw [afterMarker_eq_some_iff.1 hr, List.append_assoc, splitAtFirst_self]
    next hnone =>
      obtain ⟨⟨before', after'⟩, hs, he⟩ := Option.map_eq_some_iff.1 h
      cases he
      have hnotHere : afterMarker marker (c :: (text ++ rest)) = .none := by
        refine Option.eq_none_iff_forall_ne_some.2 fun r hr => ?_
        have hsame : c :: text ++ rest = marker ++ r := afterMarker_eq_some_iff.1 hr
        rcases List.append_eq_append_iff.1 hsame with ⟨more, hm, -⟩ | ⟨more, ht, -⟩
        · -- the marker would be longer than the text that holds it
          have := length_of_splitAtFirst hs
          have := congrArg List.length hm
          simp only [List.length_append, List.length_cons] at this
          omega
        · rw [afterMarker_eq_some_iff.2 ht] at hnone
          cases hnone
      rw [List.cons_append, splitAtFirst_cons_of_none hnotHere, ih hs]
      rfl

/-- A marker behind a text that does not hold it is found there, when the marker's first character
does not come again in it: no other place can reach into both. -/
theorem splitAtFirst_append_of_none {m : Char} {marker text : List Char} (honce : m ∉ marker)
    (h : splitAtFirst (m :: marker) text = none) (rest : List Char) :
    splitAtFirst (m :: marker) (text ++ m :: marker ++ rest) = some (text, rest) := by
  induction text with
  | nil => exact splitAtFirst_self (m :: marker) rest
  | cons c text ih =>
    unfold splitAtFirst at h
    split at h
    next => cases h
    next hnone =>
      have hnotHere : afterMarker (m :: marker) (c :: (text ++ m :: marker ++ rest)) = .none := by
        refine Option.eq_none_iff_forall_ne_some.2 fun r hr => ?_
        have hsame : c :: text ++ (m :: marker ++ rest) = m :: marker ++ r := by
          simpa using afterMarker_eq_some_iff.1 hr
        rcases List.append_eq_append_iff.1 hsame with ⟨more, hm, hr'⟩ | ⟨more, ht, -⟩
        · cases more with
          | nil =>
            rw [List.append_nil] at hm
            rw [← hm, afterMarker_eq_some_iff.2 (List.append_nil _).symm] at hnone
            cases hnone
          | cons d more =>
            have hsecond : m = d := (List.cons.inj hr').1
            have htail := (List.cons.inj hm).2
            exact honce (by rw [htail, ← hsecond]; simp)
        · rw [afterMarker_eq_some_iff.2 ht] at hnone
          cases hnone
      rw [List.cons_append, List.cons_append, splitAtFirst_cons_of_none hnotHere,
        ih (Option.map_eq_none_iff.1 h)]
      rfl

end EditableGrammar
