/-
The endless source of draws behind a seed.  The words of the ChaCha stream are
taken in pairs, low half first, and the upper 53 bits of a pair are a draw.
-/
import Parterre.Sampler
import Parterre.Source.ChaCha

namespace Parterre

/-- A key and the number of draws already made from it. -/
structure Seeded where
  key : ChaCha.Key
  drawn : Nat

namespace Seeded

def ofSeed (seed : UInt64) : Seeded :=
  ⟨ChaCha.keyOfSeed seed, 0⟩

/-- The pair of words behind a draw; a block holds eight pairs. -/
def word (key : ChaCha.Key) (position : Nat) : UInt64 :=
  let block := ChaCha.block key (UInt64.ofNat (position / 8))
  let first : Fin 16 := ⟨2 * (position % 8), by omega⟩
  let second : Fin 16 := ⟨2 * (position % 8) + 1, by omega⟩
  block[first].toUInt64 ||| (block[second].toUInt64 <<< 32)

/-- A multiple of `2 ^ -53` in `[0, 1)`. -/
def draw (key : ChaCha.Key) (position : Nat) : Float :=
  (word key position >>> 11).toFloat * Scalar.ratio 1 (1 <<< 53)

instance : DrawSource Seeded Float where
  next source :=
    (.ok (draw source.key source.drawn), ⟨source.key, source.drawn + 1⟩)

end Seeded

end Parterre
