/-
The ChaCha stream with eight rounds: a key and a block number give sixteen
words.  A key is expanded from a 64-bit seed by a linear congruential
generator with permuted output.
-/

namespace Parterre.ChaCha

/-- Sixteen 32-bit words. -/
abbrev Block : Type := Vector UInt32 16

abbrev Key : Type := Vector UInt32 8

def rotateLeft (word : UInt32) (count : UInt32) : UInt32 :=
  (word <<< count) ||| (word >>> (32 - count))

/-- Mix four words of a block by add, exclusive or and rotate. -/
def quarterRound (block : Block) (i j k l : Fin 16) : Block :=
  let a := block[i] + block[j]
  let d := rotateLeft (block[l] ^^^ a) 16
  let c := block[k] + d
  let b := rotateLeft (block[j] ^^^ c) 12
  let a := a + b
  let d := rotateLeft (d ^^^ a) 8
  let c := c + d
  let b := rotateLeft (b ^^^ c) 7
  (((block.set i a).set j b).set k c).set l d

/-- One round over the columns and one over the diagonals. -/
def doubleRound (block : Block) : Block :=
  let block := quarterRound block 0 4 8 12
  let block := quarterRound block 1 5 9 13
  let block := quarterRound block 2 6 10 14
  let block := quarterRound block 3 7 11 15
  let block := quarterRound block 0 5 10 15
  let block := quarterRound block 1 6 11 12
  let block := quarterRound block 2 7 8 13
  quarterRound block 3 4 9 14

/-- The constants "expand 32-byte k", the key, a 64-bit block number and a
stream number of zero. -/
def initial (key : Key) (number : UInt64) : Block :=
  #v[0x61707865, 0x3320646e, 0x79622d32, 0x6b206574,
    key[0], key[1], key[2], key[3], key[4], key[5], key[6], key[7],
    number.toUInt32, (number >>> 32).toUInt32, 0, 0]

/-- Eight rounds, added to the words they started from. -/
def block (key : Key) (number : UInt64) : Block :=
  let start := initial key number
  let mixed := doubleRound (doubleRound (doubleRound (doubleRound start)))
  Vector.zipWith (· + ·) mixed start

/-- The next state of the key expansion. -/
def stepSeed (state : UInt64) : UInt64 :=
  state * 6364136223846793005 + 11634580027462260723

/-- The word that the key expansion shows for a state: folded high bits,
rotated to the right by the five topmost bits. -/
def seedWord (state : UInt64) : UInt32 :=
  let folded := (((state >>> 18) ^^^ state) >>> 27).toUInt32
  let count := (state >>> 59).toUInt32
  (folded >>> count) ||| (folded <<< (32 - count))

/-- Eight successive words of the key expansion. -/
def keyOfSeed (seed : UInt64) : Key :=
  Vector.ofFn fun i : Fin 8 => seedWord (Nat.repeat stepSeed (i.val + 1) seed)

end Parterre.ChaCha
