import EditableGrammar.Format.Json.Token

set_option autoImplicit false

/-!
# Numbers too large to read

A number is read as a binary floating-point number of 53 significant bits.  The reader keeps as many
digits as fit into 64 bits, rounds them, and scales the result by a rounded power of ten; a number
whose scaled value would be infinite is refused.  All of this is exact arithmetic on natural
numbers here.
-/

namespace EditableGrammar

namespace Json

/-- The nearest number of at most 53 significant bits; a tie goes to the one with an even last
bit. -/
def round53 (n : Nat) : Nat :=
  let shift := Nat.log2 n - 52
  let unit := 1 <<< shift
  let low := n / unit * unit
  let rest := n - low
  if 2 * rest < unit then low
  else if unit < 2 * rest then low + unit
  else if n / unit % 2 = 0 then low
  else low + unit

/-- The largest number that fits into 64 bits. -/
def maxWord : Nat := UInt64.size - 1

namespace Numeral

/-- Digits taken into the significand, with the power of ten that makes up for those left out. -/
structure Scaled where
  significand : Nat
  exponent : Int
  /-- whether a digit was left out -/
  full : Bool
  deriving DecidableEq, Repr

/-- Take one digit before the point; from the first that does not fit on, each one left out counts
as a power of ten. -/
def Scaled.takeWhole (s : Scaled) (d : Nat) : Scaled :=
  if s.full || s.significand * 10 + d > maxWord then
    { s with exponent := s.exponent + 1, full := true }
  else { s with significand := s.significand * 10 + d }

/-- Take one digit after the point; the first that does not fit and all after it are dropped. -/
def Scaled.takeFraction (s : Scaled) (d : Nat) : Scaled :=
  if s.full || s.significand * 10 + d > maxWord then { s with full := true }
  else { s with significand := s.significand * 10 + d, exponent := s.exponent - 1 }

/-- The significand and the power of ten of a number. -/
def scaled (n : Numeral) : Scaled :=
  let whole := n.whole.foldl Scaled.takeWhole ⟨0, 0, false⟩
  let all := n.fraction.foldl Scaled.takeFraction { whole with full := false }
  { all with exponent := all.exponent + n.exponent }

/-- The least number beyond all finite values. -/
def infinity : Nat := 1 <<< 1024

/-- Whether a number has a finite value. -/
def inRange (n : Numeral) : Bool :=
  let s := n.scaled
  if s.significand = 0 ∨ s.exponent < 0 then true
  else if s.exponent > 308 then false
  else round53 (round53 s.significand * round53 (Nat.pow 10 s.exponent.toNat)) < infinity

/-- The natural number that is written, if it is written without sign, point and exponent and fits
into 64 bits. -/
def natural? (n : Numeral) : Option Nat :=
  if n.plain && !n.negative && ofDigits n.whole ≤ maxWord then some (ofDigits n.whole) else none

end Numeral

/-- A number with a finite value, and what follows it. -/
def readNumber (cs : List Char) : Option (Numeral × List Char) :=
  match scanNumber cs with
  | some (n, rest) => if n.inRange then some (n, rest) else none
  | none => none

theorem readNumber_length_lt {cs rest : List Char} {n : Numeral}
    (h : readNumber cs = some (n, rest)) : rest.length < cs.length := by
  unfold readNumber at h
  split at h
  · next hs =>
    split at h <;> cases h
    exact scanNumber_length_lt hs
  · cases h

end Json

end EditableGrammar
