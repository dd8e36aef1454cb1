import Mathlib.Data.UInt
import Mathlib.Tactic.Ring
import EditableGrammar.Proofs.Language.Drawing

set_option autoImplicit false

/-!
# Every source gives every word

The state of a source's generator is multiplied by a number that leaves one modulo four, and an odd
number is added to it.  So `2 ^ k` steps add an odd multiple of `2 ^ k` to the state, up to a
multiple of `2 ^ (k + 2)` (`advance_two_pow`).  This settles the bits of the state one after the
other, the lowest first, and any state can be reached from any other (`exists_advance`).

Hence every word comes up in every source, however many words have been taken from it, and zero is
accepted in every draw: no source keeps a draw below a number of one word going for ever.
-/

namespace EditableGrammar

namespace WordSource

open scoped UInt64.CommRing

/-! ## The states of the generator -/

/-- What `2 ^ k` steps do to a state. -/
theorem advance_two_pow (k : Nat) :
    ∃ t s : UInt64, ∀ x, advance^[2 ^ k] x = (1 + 2 ^ (k + 2) * t) * x + 2 ^ k * (2 * s + 1) := by
  induction k with
  | zero =>
    refine ⟨6364136223846793005 / 4, 1442695040888963407 / 2, fun x => ?_⟩
    have hmul : (6364136223846793005 : UInt64) = 1 + 2 ^ 2 * (6364136223846793005 / 4) := by decide
    have hadd : (1442695040888963407 : UInt64) = 2 * (1442695040888963407 / 2) + 1 := by decide
    rw [Nat.pow_zero, Function.iterate_one, advance, Nat.zero_add, ← hmul, ← hadd]
    ring
  | succ k ih =>
    obtain ⟨t, s, hsteps⟩ := ih
    refine ⟨t + 2 ^ (k + 1) * t * t, s + 2 ^ k * t * (2 * s + 1), fun x => ?_⟩
    rw [Nat.pow_succ, Nat.mul_two, Function.iterate_add_apply, hsteps, hsteps]
    ring

/-- A state is even or odd. -/
theorem exists_half (m : UInt64) : ∃ half, m = 2 * half ∨ m = 2 * half + 1 := by
  refine ⟨m / 2, ?_⟩
  have hlt := m.toNat_lt
  rcases Nat.mod_two_eq_zero_or_one m.toNat with heven | hodd
  · left
    apply UInt64.toNat_inj.1
    simp only [UInt64.toNat_mul, UInt64.toNat_div, UInt64.reduceToNat]
    omega
  · right
    apply UInt64.toNat_inj.1
    simp only [UInt64.toNat_add, UInt64.toNat_mul, UInt64.toNat_div, UInt64.reduceToNat]
    omega

/-- From every state some later one has the lowest `k` bits of a given one. -/
theorem exists_advance_low (k : Nat) (x y : UInt64) :
    ∃ (count : Nat) (m : UInt64), advance^[count] x = y + 2 ^ k * m := by
  induction k with
  | zero => exact ⟨0, x - y, by rw [Function.iterate_zero_apply]; ring⟩
  | succ k ih =>
    obtain ⟨count, m, hcount⟩ := ih
    obtain ⟨half, rfl | rfl⟩ := exists_half m
    · exact ⟨count, half, by rw [hcount]; ring⟩
    · -- the next bit is wrong, and `2 ^ k` more steps turn it over
      obtain ⟨t, s, hsteps⟩ := advance_two_pow k
      refine ⟨2 ^ k + count, 1 + half + s + 2 * t * (y + 2 ^ k * (2 * half + 1)), ?_⟩
      rw [Function.iterate_add_apply, hcount, hsteps]
      ring

/-- Every state is reached from every other. -/
theorem exists_advance (x y : UInt64) : ∃ count, advance^[count] x = y := by
  obtain ⟨count, m, hcount⟩ := exists_advance_low 64 x y
  have hzero : (2 : UInt64) ^ 64 = 0 := by decide +kernel
  exact ⟨count, by rw [hcount, hzero, zero_mul, add_zero]⟩

/-! ## The words of a source -/

theorem word_shiftLeft (w : Word) : word (w.toUInt64 <<< 32) = w := by
  have hw : w.toNat < 2 ^ 32 := w.toNat_lt
  have hshift : (w.toUInt64 <<< 32).toNat = w.toNat * 2 ^ 32 := by
    rw [UInt64.toNat_shiftLeft]
    change w.toNat <<< 32 % 2 ^ 64 = _
    rw [Nat.shiftLeft_eq]
    exact Nat.mod_eq_of_lt (by omega)
  apply UInt32.toNat_inj.1
  rw [word, UInt64.toNat_toUInt32, UInt64.toNat_shiftRight, hshift]
  change (w.toNat * 2 ^ 32) >>> 32 % 2 ^ 32 = _
  rw [Nat.shiftRight_eq_div_pow]
  omega

/-- Without words at hand the source is where its generator is. -/
theorem afterWords_nil (count : Nat) (state : UInt64) :
    afterWords next count ⟨[], state⟩ = ⟨[], advance^[count] state⟩ := by
  induction count generalizing state with
  | zero => rfl
  | succ count ih =>
    have hone : afterWords next 1 ⟨[], state⟩ = ⟨[], advance state⟩ := rfl
    rw [Nat.add_comm, afterWords_add, hone, ih, Nat.add_comm, Function.iterate_succ_apply]

/-- Every word comes up in every source. -/
theorem exists_next (source : WordSource) (w : Word) :
    ∃ count, (next (afterWords next count source)).1 = w := by
  obtain ⟨words, state⟩ := source
  obtain ⟨count, hcount⟩ := exists_advance (advance state) (w.toUInt64 <<< 32)
  refine ⟨words.length + count, ?_⟩
  rw [afterWords_add, afterWords_atHand (Nat.le_refl _), List.drop_length, afterWords_nil, next]
  rw [← Function.iterate_succ_apply, Function.iterate_succ_apply'] at hcount
  rw [hcount, word_shiftLeft]

/-- Every source is accepting below every number of one word. -/
theorem accepting {n : Nat} (hn : n < 2 ^ 32) (source : WordSource) : Accepting next n source := by
  intro begin
  obtain ⟨tries, hzero⟩ := exists_next (afterWords next begin source) 0
  refine ⟨tries, ?_⟩
  rw [wordsFor_eq_one hn, Nat.mul_one, afterWords_add]
  simp [accepts, readWords, hzero]

end WordSource

end EditableGrammar
