import Mathlib.Data.List.Infix
import EditableGrammar.Proofs.Text.Reference

set_option autoImplicit false

/-!
# What unescaping reads and what it leaves

A complete reference begins behind an ampersand and is one of the five names, or a number in decimal
or hexadecimal digits and a semicolon (`Reference`).  Some numbers are those of no character, so
there are complete references that stand for nothing.

Whatever is read from behind an ampersand is a complete reference to a character
(`reference?_eq_some_iff`).  So a text is left as it is when none of its ampersands begins such a
reference (`Unread`), and a text whose characters are written as references is read back in one pass
(`unescape_reads_references_only`).
-/

namespace EditableGrammar

/-! ## Complete references -/

/-- The complete references, as they stand behind the ampersand.  One by number has that number. -/
inductive Reference : Option Nat → List Char → Prop
  | named {name : List Char} {c : Char} (hknown : (name, c) ∈ namedReferences) : Reference none name
  | decimal {n : Nat} {ds : List Char} (hnumeral : Numeral 10 n ds) :
      Reference (some n) ('#' :: ds ++ [';'])
  | hexadecimal {n : Nat} {x : Char} {ds : List Char} (hmark : x = 'x' ∨ x = 'X')
      (hnumeral : Numeral 16 n ds) : Reference (some n) ('#' :: x :: ds ++ [';'])

/-- The numbers that no character has: those of surrogates and those beyond the last character. -/
def NoCharacter (n : Nat) : Prop := 0xd800 ≤ n ∧ n ≤ 0xdfff ∨ 0x10ffff < n

/-- No ampersand of the text begins a complete reference, unless it is one to a number that no
character has. -/
def Unread (cs : List Char) : Prop :=
  ∀ before after, cs = before ++ '&' :: after →
    ∀ number body rest, after = body ++ rest → Reference number body →
      ∃ n, number = some n ∧ NoCharacter n

theorem not_noCharacter_toNat (c : Char) : ¬ NoCharacter c.toNat := by
  have hvalid : c.toNat < 0xd800 ∨ 0xdfff < c.toNat ∧ c.toNat < 0x110000 := c.valid
  unfold NoCharacter
  omega

theorem toNat_of_charOfNumber? {n : Nat} {c : Char} (h : charOfNumber? n = some c) :
    c.toNat = n := by
  obtain ⟨_, hc⟩ := Option.dite_none_right_eq_some.1 h
  rw [← Option.some.inj hc]
  rfl

/-! ## Numbers that are read -/

section Digits

variable {base : Nat} {digit? : Char → Option Nat}

theorem Numeral.singleton {v : Nat} {d : Char} (hsmall : v < base)
    (hvalue : d.toLower = v.digitChar) : Numeral base v [d] :=
  ⟨0, by simp [hvalue, Nat.toDigits_of_lt_base hsmall]⟩

/-- A number with one more digit behind it. -/
theorem Numeral.concat {n v : Nat} {ds : List Char} {d : Char} (h : Numeral base n ds)
    (htwo : 1 < base) (hsmall : v < base) (hvalue : d.toLower = v.digitChar) :
    Numeral base (n * base + v) (ds ++ [d]) := by
  obtain ⟨zeros, hz⟩ := h
  by_cases hzero : n = 0
  · -- the digits so far are zeros, and all of them stand before the number `v`
    subst hzero
    have hlast : Nat.toDigits base 0 = ['0'] := Nat.toDigits_of_lt_base (by omega)
    refine ⟨zeros + 1, ?_⟩
    rw [List.map_append, hz, hlast, Nat.zero_mul, Nat.zero_add, Nat.toDigits_of_lt_base hsmall,
      List.replicate_succ', List.map_singleton, hvalue]
  · refine ⟨zeros, ?_⟩
    rw [List.map_append, hz, List.map_singleton, hvalue, ← Nat.toDigits_of_lt_base hsmall,
      List.append_assoc, Nat.toDigits_append_toDigits htwo (Nat.pos_of_ne_zero hzero) hsmall,
      Nat.mul_comm]

/-- Digits that are read behind a number make up a longer number. -/
theorem Numeral.readDigits {n m : Nat} {ds cs rest : List Char} (h : Numeral base n ds)
    (htwo : 1 < base)
    (hdigits : ∀ d v, digit? d = some v → v < base ∧ d.toLower = v.digitChar)
    (hread : readDigits base digit? n cs = (m, rest)) :
    ∃ more, cs = more ++ rest ∧ Numeral base m (ds ++ more) := by
  induction cs generalizing n ds with
  | nil =>
    cases hread
    exact ⟨[], rfl, by rwa [List.append_nil]⟩
  | cons d cs ih =>
    unfold EditableGrammar.readDigits at hread
    split at hread
    next v hd =>
      obtain ⟨hsmall, hvalue⟩ := hdigits d v hd
      obtain ⟨more, rfl, hnumeral⟩ := ih (h.concat htwo hsmall hvalue) hread
      exact ⟨d :: more, rfl, by rwa [List.append_assoc] at hnumeral⟩
    next =>
      cases hread
      exact ⟨[], rfl, by rwa [List.append_nil]⟩

/-- A reference by number that is read has digits and a semicolon. -/
theorem exists_numeral_of_numericReference? {cs rest : List Char} {c : Char} (htwo : 1 < base)
    (hdigits : ∀ d v, digit? d = some v → v < base ∧ d.toLower = v.digitChar)
    (hread : numericReference? base digit? cs = some (c, rest)) :
    ∃ ds, cs = ds ++ ';' :: rest ∧ Numeral base c.toNat ds := by
  unfold numericReference? at hread
  split at hread
  next n rest' hnumber =>
    obtain ⟨c', hvalid, he⟩ := Option.map_eq_some_iff.1 hread
    cases he
    cases cs with
    | nil => cases hnumber
    | cons d cs =>
      obtain ⟨v, hd, hmore⟩ := Option.map_eq_some_iff.1 hnumber
      obtain ⟨hsmall, hvalue⟩ := hdigits d v hd
      obtain ⟨more, rfl, hnumeral⟩ :=
        (Numeral.singleton hsmall hvalue).readDigits htwo hdigits hmore
      exact ⟨d :: more, rfl, by rwa [toNat_of_charOfNumber? hvalid]⟩
  next => cases hread

end Digits

/-- What the digits are can be seen from the first characters when no others are digits. -/
theorem digits_of_ascii {base : Nat} (digit? : Char → Option Nat)
    (hascii : ∀ n < 128, ∀ v ∈ digit? (Char.ofNat n),
      v < base ∧ (Char.ofNat n).toLower = v.digitChar)
    (hbeyond : ∀ d : Char, 128 ≤ d.toNat → digit? d = none) (d : Char) (v : Nat)
    (h : digit? d = some v) : v < base ∧ d.toLower = v.digitChar := by
  have hsmall : d.toNat < 128 := by
    by_contra hlarge
    rw [hbeyond d (Nat.le_of_not_lt hlarge)] at h
    cases h
  have := hascii d.toNat hsmall v
  rw [Char.ofNat_toNat] at this
  exact this h

theorem decimalDigit?_eq_some (d : Char) (v : Nat) (h : decimalDigit? d = some v) :
    v < 10 ∧ d.toLower = v.digitChar := by
  refine digits_of_ascii decimalDigit? (by decide) (fun d hlarge => ?_) d v h
  refine if_neg fun hrange => ?_
  have : d.toNat ≤ 57 := hrange.2
  omega

theorem hexDigit?_eq_some (d : Char) (v : Nat) (h : hexDigit? d = some v) :
    v < 16 ∧ d.toLower = v.digitChar := by
  refine digits_of_ascii hexDigit? (by decide) (fun d hlarge => ?_) d v h
  have hbeyond (last : Char) (hl : last.toNat < 128) (first : Char) : ¬(first ≤ d ∧ d ≤ last) :=
    fun hrange => by
      have : d.toNat ≤ last.toNat := hrange.2
      omega
  rw [hexDigit?, if_neg (hbeyond '9' (by decide) _), if_neg (hbeyond 'f' (by decide) _),
    if_neg (hbeyond 'F' (by decide) _)]

/-! ## All that is read is a reference -/

theorem exists_decimal {cs rest : List Char} {c : Char}
    (hread : numericReference? 10 decimalDigit? cs = some (c, rest)) :
    ∃ body, '#' :: cs = body ++ rest ∧ WrittenChar c ('&' :: body) := by
  obtain ⟨ds, rfl, hnumeral⟩ :=
    exists_numeral_of_numericReference? (by decide) decimalDigit?_eq_some hread
  exact ⟨'#' :: ds ++ [';'], by simp, .decimal hnumeral⟩

theorem exists_hexadecimal {cs rest : List Char} {c x : Char} (hmark : x = 'x' ∨ x = 'X')
    (hread : numericReference? 16 hexDigit? cs = some (c, rest)) :
    ∃ body, '#' :: x :: cs = body ++ rest ∧ WrittenChar c ('&' :: body) := by
  obtain ⟨ds, rfl, hnumeral⟩ :=
    exists_numeral_of_numericReference? (by decide) hexDigit?_eq_some hread
  exact ⟨'#' :: x :: ds ++ [';'], by simp, .hexadecimal hmark hnumeral⟩

/-- Behind an ampersand a character is read where a way to write it stands, and nowhere else. -/
theorem reference?_eq_some_iff {cs rest : List Char} {c : Char} :
    reference? cs = some (c, rest) ↔ ∃ body, cs = body ++ rest ∧ WrittenChar c ('&' :: body) := by
  constructor
  · intro hread
    unfold reference? at hread
    split at hread
    next => exact exists_hexadecimal (.inl rfl) hread
    next => exact exists_hexadecimal (.inr rfl) hread
    next => exact exists_decimal hread
    next =>
      obtain ⟨_, ⟨name, c'⟩, _, hknown, hname, _⟩ := List.findSome?_eq_some_iff.1 hread
      obtain ⟨rest', hrest, he⟩ := Option.map_eq_some_iff.1 hname
      cases he
      exact ⟨name, afterMarker_eq_some_iff.1 hrest, .named (by simp [hknown])⟩
  · rintro ⟨body, rfl, hwritten⟩
    exact hwritten.reference?_append rest

/-- A complete reference is a way to write a character, unless it is one to a number that no
character has. -/
theorem Reference.written_or_noCharacter {number : Option Nat} {body : List Char}
    (h : Reference number body) :
    (∃ c, WrittenChar c ('&' :: body)) ∨ ∃ n, number = some n ∧ NoCharacter n := by
  have hcharacter {n : Nat} (hpossible : ¬ NoCharacter n) : ∃ c : Char, c.toNat = n := by
    have hvalid : n.isValidChar := by
      unfold NoCharacter at hpossible
      unfold Nat.isValidChar
      omega
    exact ⟨Char.ofNatAux n hvalid, rfl⟩
  cases h with
  | @named _ c hknown => exact .inl ⟨c, .named hknown⟩
  | @decimal n ds hnumeral =>
    by_cases hpossible : NoCharacter n
    · exact .inr ⟨n, rfl, hpossible⟩
    · obtain ⟨c, rfl⟩ := hcharacter hpossible
      exact .inl ⟨c, .decimal hnumeral⟩
  | @hexadecimal n x ds hmark hnumeral =>
    by_cases hpossible : NoCharacter n
    · exact .inr ⟨n, rfl, hpossible⟩
    · obtain ⟨c, rfl⟩ := hcharacter hpossible
      exact .inl ⟨c, .hexadecimal hmark hnumeral⟩

/-- What is written behind an ampersand is a complete reference to a character. -/
theorem WrittenChar.exists_reference {c : Char} {body : List Char}
    (h : WrittenChar c ('&' :: body)) :
    ∃ number, Reference number body ∧ ∀ n, number = some n → ¬ NoCharacter n := by
  have hpossible : ∀ n, some c.toNat = some n → ¬ NoCharacter n := by
    rintro _ ⟨⟩
    exact not_noCharacter_toNat c
  cases h with
  | literal hplain => exact absurd rfl hplain
  | named hknown => exact ⟨none, .named hknown, by simp⟩
  | decimal hnumeral => exact ⟨_, .decimal hnumeral, hpossible⟩
  | hexadecimal hmark hnumeral => exact ⟨_, .hexadecimal hmark hnumeral, hpossible⟩

/-! ## Text that is left as it is -/

/-- In a text that is left as it is, nothing is read from behind an ampersand. -/
theorem unread_iff {cs : List Char} :
    Unread cs ↔ ∀ t ∈ cs.tails, t.head? = some '&' → reference? t.tail = none := by
  constructor
  · intro hunread t ht hhead
    obtain ⟨before, rfl⟩ := (List.mem_tails ..).1 ht
    obtain ⟨after, rfl⟩ := List.head?_eq_some_iff.1 hhead
    rw [Option.eq_none_iff_forall_ne_some]
    rintro ⟨c, rest⟩ hread
    obtain ⟨body, hbody, hwritten⟩ := reference?_eq_some_iff.1 hread
    obtain ⟨number, hcomplete, hpossible⟩ := hwritten.exists_reference
    obtain ⟨n, hn, hnone⟩ := hunread before after rfl number body rest hbody hcomplete
    exact hpossible n hn hnone
  · rintro hunread before after rfl number body rest rfl hcomplete
    rcases hcomplete.written_or_noCharacter with ⟨c, hwritten⟩ | hnone
    · have hnothing := hunread ('&' :: (body ++ rest)) ((List.mem_tails ..).2 ⟨before, rfl⟩) rfl
      rw [List.tail_cons, hwritten.reference?_append rest] at hnothing
      cases hnothing
    · exact hnone

instance (cs : List Char) : Decidable (Unread cs) := decidable_of_iff' _ unread_iff

theorem unescape_ampersand {cs : List Char} (h : reference? cs = none) :
    unescape ('&' :: cs) = '&' :: unescape cs := by
  rw [unescape]
  split
  next h' => rw [h] at h'; cases h'
  next => rfl

/-- A text in which nothing is read from behind an ampersand is left as it is. -/
theorem Unread.unescape_eq {cs : List Char} (h : Unread cs) : unescape cs = cs := by
  rw [unread_iff] at h
  induction cs with
  | nil => rw [unescape]
  | cons c cs ih =>
    have hlater : unescape cs = cs := ih fun t ht => h t (by simp [ht])
    by_cases hampersand : c = '&'
    · subst hampersand
      have hnothing : reference? cs = none := h ('&' :: cs) (by simp) rfl
      rw [unescape_ampersand hnothing, hlater]
    · rw [unescape_cons hampersand, hlater]

/-- Unescaping reads references in one pass and does nothing else.  A text is read back whichever
way each of its characters is written, also where it then looks like a reference; and a text is left
as it is when each ampersand in it begins no complete reference, or one to a number that no
character has. -/
theorem unescape_reads_references_only :
    (∀ cs w, WrittenText cs w → unescape w = cs) ∧ ∀ cs, Unread cs → unescape cs = cs :=
  ⟨fun _ _ hwritten => hwritten.unescape_eq, fun _ hunread => hunread.unescape_eq⟩

/-- An ampersand by name before the letters of a reference, a semicolon in hexadecimal digits of
either case behind it, and references to a surrogate and to a number of twenty digits. -/
theorem unescape_reads_references_only_nested :
    unescape "&amp;lt&#X003b;&#00038;".toList = "&lt;&".toList ∧
      unescape "&#xD800;&&#99999999999999999999;&bogus;&#38".toList =
        "&#xD800;&&#99999999999999999999;&bogus;&#38".toList := by
  have hsemicolon : Numeral 16 ';'.toNat ['0', '0', '3', 'b'] := ⟨2, by decide⟩
  have hampersand : Numeral 10 '&'.toNat ['0', '0', '0', '3', '8'] := ⟨3, by decide⟩
  have hbyName : WrittenChar '&' ['&', 'a', 'm', 'p', ';'] := .named (by decide)
  have hwritten : WrittenText "&lt;&".toList "&amp;lt&#X003b;&#00038;".toList :=
    .cons hbyName (.cons (.literal (by decide))
      (.cons (.literal (by decide)) (.cons (.hexadecimal (.inr rfl) hsemicolon)
        (.cons (.decimal hampersand) .nil))))
  exact ⟨unescape_reads_references_only.1 _ _ hwritten,
    unescape_reads_references_only.2 _ (by decide)⟩

end EditableGrammar
