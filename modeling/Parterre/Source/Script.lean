/-
A finite list of draws that is replayed in order.
-/
import Parterre.Sampler

namespace Parterre

/-- Draws still to be given, and how many were given already. -/
structure Script (α : Type) where
  remaining : List α
  consumed : Nat

namespace Script

variable {α : Type}

def ofList (values : List α) : Script α :=
  ⟨values, 0⟩

variable [Scalar α]

/-- The next value.  A value outside `[0, 1)` is refused and stays in front;
after the last value every draw fails. -/
def next (script : Script α) : Except (LayoutError α) α × Script α :=
  match script.remaining with
  | [] => (.error (.randomSourceExhausted script.consumed), script)
  | value :: rest =>
      if 0 ≤ value ∧ value < 1 then
        (.ok value, ⟨rest, script.consumed + 1⟩)
      else
        (.error (.config (.drawOutside value script.consumed)), script)

instance : DrawSource (Script α) α where
  next := next

end Script

end Parterre
