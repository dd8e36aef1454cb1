set_option autoImplicit false

/-!
# Drawing from random words

Chance comes as 32-bit words, one after the other, from a supply without end.  What a supply is does
not matter: it is a state of any type, and a `Generator` takes a word from it and leaves the state
after this word.

`draw n` turns words into a number below `n` without bias.  It reads as few words at a time as can
stand for every number below `n`, which is one word unless `n` is huge.  The number `v` they stand
for is scaled down to the upper half of `v * n`, and it is passed over if the lower half of `v * n`
lies above `zone n`, which leaves every number below `n` the same count of values.  Nothing says that
a supply ever gives words that are not passed over, so a draw need not end; it is `none` then.

`choose` picks an item.  It draws twice: once below one, which decides nothing but takes words, and
once below the number of items.  The second number names the item after it, and the largest number
the first item; a single item is taken without the second draw.
-/

namespace EditableGrammar

/-- A random word. -/
abbrev Word := UInt32

/-- How a word is taken from a supply: the word, and the supply after it. -/
abbrev Generator (σ : Type) : Type := σ → Word × σ

/-- The words read at a time for a number below `n`. -/
def wordsFor (n : Nat) : Nat := Nat.log2 n / 32 + 1

/-- How many values so many words can have. -/
def wordValues (count : Nat) : Nat := 1 <<< (32 * count)

/-- The largest lower half with which a value is accepted: `n` shifted until its first bit is the
first bit of the words read, less one. -/
def zone (n : Nat) : Nat := n <<< (32 * wordsFor n - 1 - Nat.log2 n) - 1

/-- Whether a value is accepted in a draw below `n`. -/
def accepts (n v : Nat) : Bool := v * n % wordValues (wordsFor n) ≤ zone n

section

variable {σ : Type}

/-- Read so many words as one number, the lowest word first. -/
def readWords (next : Generator σ) : Nat → σ → Nat × σ
  | 0, supply => (0, supply)
  | count + 1, supply =>
    let (low, supply) := next supply
    let (high, supply) := readWords next count supply
    (low.toNat + UInt32.size * high, supply)

/-- Draw a number below `n`: pass over values until one is accepted, and leave the words after
it. -/
def Generator.draw (next : Generator σ) (n : Nat) (supply : σ) : Option (Nat × σ) :=
  let (v, rest) := readWords next (wordsFor n) supply
  if accepts n v then some (v * n / wordValues (wordsFor n), rest) else next |>.draw n rest
partial_fixpoint

/-- The place of the item that a drawn number names among `n` items: the next one, and the first one
for the largest number. -/
def pickedPlace (n x : Nat) : Nat := (x + 1) % n

/-- Pick one of several items. -/
def choose {α : Type} (next : Generator σ) (items : List α) (supply : σ) : Option (α × σ) :=
  match next.draw 1 supply with
  | none => none
  | some (_, supply) =>
    match items with
    | [] => none
    | [item] => some (item, supply)
    | items =>
      match next.draw items.length supply with
      | none => none
      | some (x, supply) => items[pickedPlace items.length x]?.map fun item => (item, supply)

end

/-! ## Where words come from -/

/-- A supply of words: first those at hand, then those of a generator. -/
structure WordSource where
  atHand : List Word
  state : UInt64
  deriving Repr

namespace WordSource

/-- The state of the generator after one more word. -/
def advance (state : UInt64) : UInt64 := state * 6364136223846793005 + 1442695040888963407

/-- The word that a state stands for: its upper half. -/
def word (state : UInt64) : Word := (state >>> 32).toUInt32

/-- The next word of a source. -/
def next : Generator WordSource
  | ⟨v :: words, state⟩ => (v, ⟨words, state⟩)
  | ⟨[], state⟩ => (word (advance state), ⟨[], advance state⟩)

end WordSource

end EditableGrammar
