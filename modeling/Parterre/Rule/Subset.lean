/-
Drawing without replacement.
-/
import Parterre.Sampler

namespace Parterre.Sampler

variable {κ α : Type} [Scalar α]

/-- Draw distinct positions of a pool, one after the other; every draw takes
its element out of the pool.  Returns the elements in the order of their draws
and the pool that is left. -/
def withoutReplacement : Nat → List κ → Sampler α (List κ × List κ)
  | 0, pool => return ([], pool)
  | count + 1, pool => do
      let position ← index pool.length
      let (chosen, rest) ←
        withoutReplacement count (pool.eraseIdx position)
      return (pool[position]?.toList ++ chosen, rest)

end Parterre.Sampler
