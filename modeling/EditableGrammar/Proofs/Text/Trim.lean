import EditableGrammar.Text.Blank

set_option autoImplicit false

/-!
# What trimming takes away

Trimming takes away the blanks around a text, and nothing of a text that begins and ends with
characters that are not blank (`Solid.trim_eq`).

Blanks are one kind of characters.  A run of characters of any kind ends where one follows that is
not of that kind (`span_append`).
-/

namespace EditableGrammar

theorem span_append {p : Char → Bool} {run rest : List Char} (h : ∀ c ∈ run, p c = true)
    (hstops : ∀ c ∈ rest.head?, p c = false) :
    (run ++ rest).takeWhile p = run ∧ (run ++ rest).dropWhile p = rest := by
  rw [List.takeWhile_append_of_pos h, List.dropWhile_append_of_pos h]
  cases rest with
  | nil => simp
  | cons c rest => simp [hstops c rfl]

/-- The text is nothing but blanks. -/
def Blanks (cs : List Char) : Prop := ∀ c ∈ cs, isBlank c = true

instance (cs : List Char) : Decidable (Blanks cs) :=
  decidable_of_iff (cs.all isBlank = true) List.all_eq_true

/-- The text begins and ends with characters that are not blank. -/
structure Solid (cs : List Char) : Prop where
  head : ∃ c ∈ cs.head?, isBlank c = false
  last : ∃ c ∈ cs.getLast?, isBlank c = false

theorem Blanks.append {before after : List Char} (h : Blanks before) (h' : Blanks after) :
    Blanks (before ++ after) := fun c hc => (List.mem_append.1 hc).elim (h c) (h' c)

theorem Blanks.reverse {bs : List Char} (h : Blanks bs) : Blanks bs.reverse :=
  fun c hc => h c (List.mem_reverse.1 hc)

theorem Blanks.trimLeft_append {bs : List Char} (h : Blanks bs) (cs : List Char) :
    trimLeft (bs ++ cs) = trimLeft cs := List.dropWhile_append_of_pos h

theorem trim_append_left {bs : List Char} (h : Blanks bs) (cs : List Char) :
    trim (bs ++ cs) = trim cs := by rw [trim, h.trimLeft_append, trim]

theorem trimRight_append {bs : List Char} (h : Blanks bs) (cs : List Char) :
    trimRight (cs ++ bs) = trimRight cs := by
  rw [trimRight, List.reverse_append, List.dropWhile_append_of_pos h.reverse, trimRight]

theorem Blanks.trim_eq {bs : List Char} (h : Blanks bs) : trim bs = [] := by
  have := trim_append_left h []
  rwa [List.append_nil] at this

theorem trimLeft_cons {c : Char} (h : isBlank c = false) (cs : List Char) :
    trimLeft (c :: cs) = c :: cs := List.dropWhile_cons_of_neg (by simp [h])

/-- Trimming stops at the first character that is not blank, from the right too. -/
theorem trim_cons {c : Char} (h : isBlank c = false) (cs : List Char) :
    trim (c :: cs) = c :: trimRight cs := by
  rw [trim, trimLeft_cons h, trimRight, List.reverse_cons, List.dropWhile_append, trimRight]
  split
  next hnone => simp [List.isEmpty_iff.1 hnone, h]
  next => simp

namespace Solid

variable {cs ds : List Char}

theorem singleton {c : Char} (h : isBlank c = false) : Solid [c] := ⟨⟨c, rfl, h⟩, ⟨c, rfl, h⟩⟩

/-- Whatever stands between two solid texts, the whole is solid. -/
theorem append (h : Solid cs) (between : List Char) (h' : Solid ds) :
    Solid (cs ++ between ++ ds) := by
  obtain ⟨c, hc, hblank⟩ := h.head
  obtain ⟨d, hd, hblank'⟩ := h'.last
  exact ⟨⟨c, by simp [List.head?_append, Option.mem_def.1 hc], hblank⟩,
    ⟨d, by simp [List.getLast?_append, Option.mem_def.1 hd], hblank'⟩⟩

theorem ne_nil (h : Solid cs) : cs ≠ [] := by
  rintro rfl
  obtain ⟨c, hc, -⟩ := h.head
  cases hc

theorem trimLeft_append (h : Solid cs) (after : List Char) :
    trimLeft (cs ++ after) = cs ++ after := by
  cases cs with
  | nil => exact absurd rfl h.ne_nil
  | cons c cs =>
    obtain ⟨c, hc, hblank⟩ := h.head
    cases hc
    exact trimLeft_cons hblank _

theorem trimRight_eq (h : Solid cs) : trimRight cs = cs := by
  obtain ⟨c, hc, hblank⟩ := h.last
  obtain ⟨cs, rfl⟩ := List.getLast?_eq_some_iff.1 (Option.mem_def.1 hc)
  rw [trimRight, List.reverse_append, List.reverse_singleton, List.singleton_append,
    List.dropWhile_cons_of_neg (by simp [hblank])]
  simp

theorem trim_append (h : Solid cs) {after : List Char} (ha : Blanks after) :
    trim (cs ++ after) = cs := by
  rw [trim, h.trimLeft_append, trimRight_append ha, h.trimRight_eq]

/-- The blanks around a solid text are taken away, and nothing else. -/
theorem trim_eq (h : Solid cs) {before after : List Char} (hb : Blanks before)
    (ha : Blanks after) : trim (before ++ cs ++ after) = cs := by
  rw [List.append_assoc, trim_append_left hb, h.trim_append ha]

end Solid

end EditableGrammar
