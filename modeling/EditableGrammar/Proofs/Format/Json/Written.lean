import EditableGrammar.Format.Json.Reader
import EditableGrammar.Format.Json.Writer

set_option autoImplicit false

/-!
# What is written as JSON is read back

A string is written with an escape for some of its characters, and whichever form a character takes,
scanning and decoding it gives the character again.  A reader *takes* a value from a text when it
reads the value and leaves alone what follows, whatever that is; so readers of items are put
together to readers of lists.
-/

namespace EditableGrammar

namespace Json

/-! ## Characters -/

/-- A piece that stands for a character, whatever pieces follow it. -/
def Piece.Means (p : Piece) (c : Char) : Prop :=
  ∀ pieces, decodePieces (p :: pieces) = (decodePieces pieces).map (c :: ·)

/-- A text that is scanned as one piece, whatever follows it. -/
def Scanned (cs : List Char) (p : Piece) : Prop :=
  ∀ rest, scanString (cs ++ rest) =
    (scanString rest).map fun (pieces, after) => (p :: pieces, after)

theorem Piece.means_char (c : Char) : (Piece.char c).Means c := fun _ => rfl

/-- A unit below the surrogates stands for the character of its number. -/
theorem Piece.means_unit {n : Nat} (h : n < 0xd800) : (Piece.unit n).Means (Char.ofNat n) := by
  have high : isHigh n = false := by
    simp only [isHigh, Bool.and_eq_false_imp, decide_eq_true_eq]
    omega
  have hlow : isLow n = false := by
    simp only [isLow, Bool.and_eq_false_imp, decide_eq_true_eq]
    omega
  intro pieces
  cases pieces with
  | nil => simp [decodePieces, high, hlow]
  | cons q pieces => cases q <;> simp [decodePieces, high, hlow]

/-- The three forms in which a character is written. -/
theorem escapeChar_cases (c : Char) :
    (∃ e, escapeChar c = ['\\', e] ∧ shortEscape? e = some c ∧ e ≠ 'u') ∨
      (c.toNat < 0x20 ∧ escapeChar c =
        ['\\', 'u', '0', '0', hexDigit (c.toNat / 16), hexDigit (c.toNat % 16)]) ∨
      (c ≠ '"' ∧ c ≠ '\\' ∧ 0x20 ≤ c.toNat ∧ escapeChar c = [c]) := by
  by_cases hshort : c ∈ ['"', '\\', '\x08', '\x0c', '\n', '\r', '\t']
  · left
    simp only [List.mem_cons, List.not_mem_nil, or_false] at hshort
    rcases hshort with rfl | rfl | rfl | rfl | rfl | rfl | rfl <;>
      exact ⟨_, rfl, rfl, by decide⟩
  · simp only [List.mem_cons, List.not_mem_nil, or_false, not_or] at hshort
    obtain ⟨hquote, hbackslash, hbackspace, hfeed, hline, hcarriage, htab⟩ := hshort
    right
    rw [escapeChar, if_neg hquote, if_neg hbackslash, if_neg hbackspace, if_neg hfeed, if_neg hline,
      if_neg hcarriage, if_neg htab]
    by_cases hcontrol : c.toNat < 0x20
    · exact Or.inl ⟨hcontrol, if_pos hcontrol⟩
    · exact Or.inr ⟨hquote, hbackslash, Nat.not_lt.1 hcontrol, if_neg hcontrol⟩

theorem hexDigit?_hexDigit : ∀ n < 16, hexDigit? (hexDigit n) = some n := by decide

/-- The number of a control character is read from its digits. -/
theorem unit?_hexDigits {n : Nat} (h : n < 0x20) :
    unit? '0' '0' (hexDigit (n / 16)) (hexDigit (n % 16)) = some n := by
  have hzero : hexDigit? '0' = some 0 := by decide
  simp only [unit?, hzero, hexDigit?_hexDigit (n / 16) (by omega),
    hexDigit?_hexDigit (n % 16) (by omega), Option.some.injEq]
  omega

/-- A written character is scanned as one piece that stands for it. -/
theorem exists_scanned_escapeChar (c : Char) : ∃ p, Scanned (escapeChar c) p ∧ p.Means c := by
  rcases escapeChar_cases c with ⟨e, hwritten, hshort, hnotU⟩ | ⟨hcontrol, hwritten⟩ |
    ⟨hquote, hbackslash, hplain, hwritten⟩
  · refine ⟨.char c, fun rest => ?_, Piece.means_char c⟩
    simp [hwritten, scanString, hshort, hnotU]
  · refine ⟨.unit c.toNat, fun rest => ?_, ?_⟩
    · simp [hwritten, scanString, unit?_hexDigits hcontrol]
    · have hmeans := Piece.means_unit (n := c.toNat) (by omega)
      rwa [Char.ofNat_toNat] at hmeans
  · refine ⟨.char c, fun rest => ?_, Piece.means_char c⟩
    have hprintable : ¬ c.toNat < 0x20 := Nat.not_lt.2 hplain
    simp [hwritten, scanString, hbackslash, hprintable]

/-! ## Strings -/

/-- A written text is read back up to its closing quote. -/
theorem readString_escaped (text : String) (rest : List Char) :
    readString (text.toList.flatMap escapeChar ++ '"' :: rest) = some (text, rest) := by
  have hread : ∀ cs : List Char, ∃ pieces,
      scanString (cs.flatMap escapeChar ++ '"' :: rest) = some (pieces, rest) ∧
        decodePieces pieces = some cs := by
    intro cs
    induction cs with
    | nil => exact ⟨[], by simp [scanString], rfl⟩
    | cons c cs ih =>
      obtain ⟨pieces, hscanned, hdecoded⟩ := ih
      obtain ⟨p, hone, hmeans⟩ := exists_scanned_escapeChar c
      refine ⟨p :: pieces, ?_, ?_⟩
      · rw [List.flatMap_cons, List.append_assoc, hone, hscanned]
        rfl
      · rw [hmeans, hdecoded]
        rfl
  obtain ⟨pieces, hscanned, hdecoded⟩ := hread text.toList
  simp [readString, hscanned, hdecoded]

namespace Reader

variable {α : Type}

/-- The reader reads a value from a text, whatever follows it. -/
def Takes (r : Reader α) (cs : List Char) (a : α) : Prop :=
  ∀ rest, r.run (cs ++ rest) = .ok (a, rest)

/-- A text from which a value is taken holds no other value. -/
theorem Takes.unique {r : Reader α} {cs : List Char} {a b : α} (ha : r.Takes cs a)
    (hb : r.Takes cs b) : a = b := by
  have := (ha []).symm.trans (hb [])
  cases this
  rfl

theorem string_takes (text : String) : string.Takes (quote text) text := by
  intro rest
  have hopened : skipSpace (quote text ++ rest) =
      '"' :: (text.toList.flatMap escapeChar ++ '"' :: rest) := by
    simp [quote, skipSpace, isSpace]
  simp only [string, hopened, readString_escaped]

/-! ## Lists -/

section Items

variable {item : Reader α} {cs rest rest' : List Char} {a : α}

theorem items_of_error {e : Fault} (h : item.run cs = .error e) : items item cs = .error e := by
  rw [items]
  split <;> simp_all

theorem items_of_end (h : item.run cs = .ok (a, rest)) (hends : skipSpace rest = ']' :: rest') :
    items item cs = .ok ([a], rest') := by
  rw [items]
  split
  next he => rw [h] at he; cases he
  next he =>
    rw [h] at he
    cases he
    split <;> simp_all

theorem items_of_comma (h : item.run cs = .ok (a, rest)) (hcomma : skipSpace rest = ',' :: rest') :
    items item cs = (items item rest').map fun (as, after) => (a :: as, after) := by
  rw [items]
  split
  next he => rw [h] at he; cases he
  next he =>
    rw [h] at he
    cases he
    split
    next he' => rw [hcomma] at he'; cases he'
    next he' =>
      rw [hcomma] at he'
      cases he'
      cases items item rest' <;> rfl
    next hne => exact absurd hcomma (hne _)

end Items

theorem skipSpace_cons {c : Char} (h : isSpace c = false) (rest : List Char) :
    skipSpace (c :: rest) = c :: rest := List.dropWhile_cons_of_neg (by simp [h])

/-- Written items are read up to the closing bracket. -/
theorem items_intercalate {item : Reader α} {write : α → List Char}
    (htakes : ∀ a, item.Takes (write a) a) (a : α) (as : List α) (rest : List Char) :
    items item ([','].intercalate ((a :: as).map write) ++ ']' :: rest) = .ok (a :: as, rest) := by
  induction as generalizing a with
  | nil =>
    rw [List.map_cons, List.map_nil, List.intercalate_singleton]
    exact items_of_end (htakes a _) (skipSpace_cons (by decide) rest)
  | cons b as ih =>
    have hseveral : [','].intercalate ((a :: b :: as).map write) ++ ']' :: rest =
        write a ++ ',' :: ([','].intercalate ((b :: as).map write) ++ ']' :: rest) := by
      simp [List.intercalate_cons_of_ne_nil]
    rw [hseveral]
    rw [items_of_comma (htakes a _) (skipSpace_cons (by decide) _), ih b]
    rfl

/-- A bracket is not closed where something else stands first. -/
theorem closed?_of_head {b : Bracket} {cs more : List Char} {c : Char}
    (h : skipSpace cs = c :: more) (hne : c ≠ b.closer) : closed? b cs = none := by
  rw [closed?, h, afterMarker, if_neg (Ne.symm hne)]

/-- A bracket is not closed by another character. -/
theorem closed?_cons_of_ne {b : Bracket} {c : Char} (hspace : isSpace c = false) (h : c ≠ b.closer)
    (rest : List Char) : closed? b (c :: rest) = none :=
  closed?_of_head (skipSpace_cons hspace rest) h

/-- A list of written items is read back.  No item may begin like the end of the list. -/
theorem list_takes {item : Reader α} {write : α → List Char}
    (htakes : ∀ a, item.Takes (write a) a)
    (hbegins : ∀ a, ∃ c cs, write a = c :: cs ∧ isSpace c = false ∧ c ≠ ']') (as : List α) :
    (list item).Takes (bracketed (as.map write)) as := by
  intro rest
  have hopened : skipSpace (bracketed (as.map write) ++ rest) =
      '[' :: ([','].intercalate (as.map write) ++ ']' :: rest) := by
    simp [bracketed, skipSpace, isSpace]
  simp only [list, hopened]
  cases as with
  | nil => rfl
  | cons a as =>
    obtain ⟨c, cs, hwritten, hspace, hbracket⟩ := hbegins a
    have hinside : ∃ more, [','].intercalate ((a :: as).map write) ++ ']' :: rest = c :: more := by
      cases as <;> simp [List.intercalate_cons_of_ne_nil, hwritten]
    obtain ⟨more, hfirst⟩ := hinside
    have hitems := items_intercalate htakes a as rest
    rw [hfirst] at hitems ⊢
    rw [closed?_cons_of_ne (b := .array) hspace hbracket]
    exact hitems

/-! ## Objects -/

section Fields

variable {field : String → α → Except Fault (Reader α)} {state next : α}
  {cs rest rest' : List Char}

theorem fields_of_error {e : Fault} (hfirst : (entry field state).run cs = .error e) :
    fields field state cs = .error e := by
  rw [fields]
  split <;> simp_all

theorem fields_of_end (hfirst : (entry field state).run cs = .ok (next, rest))
    (hends : skipSpace rest = '\x7d' :: rest') : fields field state cs = .ok (next, rest') := by
  rw [fields]
  split
  next he => rw [hfirst] at he; cases he
  next he =>
    rw [hfirst] at he
    cases he
    split <;> simp_all

theorem fields_of_comma (hfirst : (entry field state).run cs = .ok (next, rest))
    (hcomma : skipSpace rest = ',' :: rest') :
    fields field state cs = fields field next rest' := by
  rw [fields]
  split
  next he => rw [hfirst] at he; cases he
  next he =>
    rw [hfirst] at he
    cases he
    split <;> simp_all

end Fields

end Reader

end Json

end EditableGrammar
