/-
Computations that take uniform draws from `[0, 1)` one at a time.  A sampler
is the tree of all its answers to all draws; a source of draws picks one path.
Nothing in the library draws in any other way, so what a computation does
depends only on the values it was given.
-/
import Parterre.Error

namespace Parterre

/-- A computation that has ended, or waits for the next draw. -/
inductive Sampler (α β : Type) where
  | done (result : Except (LayoutError α) β)
  | draw (next : α → Sampler α β)

namespace Sampler

variable {α β γ : Type}

/-- Go on with the result of a sampler; a failure ends the whole. -/
def bind : Sampler α β → (β → Sampler α γ) → Sampler α γ
  | .done (.ok value), next => next value
  | .done (.error failure), _ => .done (.error failure)
  | .draw rest, next => .draw fun value => (rest value).bind next

/-- Go on in another way when a sampler fails; its draws stay used. -/
def recover : Sampler α β → (LayoutError α → Sampler α β) → Sampler α β
  | .done (.ok value), _ => .done (.ok value)
  | .done (.error failure), handler => handler failure
  | .draw rest, handler => .draw fun value => (rest value).recover handler

instance : Monad (Sampler α) where
  pure value := .done (.ok value)
  bind := bind

instance : MonadExceptOf (LayoutError α) (Sampler α) where
  throw failure := .done (.error failure)
  tryCatch := recover

instance : MonadLift (Except (LayoutError α)) (Sampler α) where
  monadLift result := .done result

theorem bind_pure_self (sampler : Sampler α β) :
    sampler.bind (fun value => .done (.ok value)) = sampler := by
  induction sampler with
  | done result => cases result <;> rfl
  | draw rest ih => exact congrArg Sampler.draw (funext ih)

theorem bind_bind {δ : Type} (sampler : Sampler α β)
    (first : β → Sampler α γ) (second : γ → Sampler α δ) :
    (sampler.bind first).bind second =
      sampler.bind fun value => (first value).bind second := by
  induction sampler with
  | done result => cases result <;> rfl
  | draw rest ih => exact congrArg Sampler.draw (funext ih)

instance : LawfulMonad (Sampler α) :=
  LawfulMonad.mk' (Sampler α) bind_pure_self (fun _ _ => rfl) bind_bind

/-- One uniform draw. -/
def unit : Sampler α α :=
  .draw fun value => pure value

variable [Scalar α]

/-- Uniform between `low` and `high`. -/
def range (low high : α) : Sampler α α := do
  let value ← unit
  return low + value * (high - low)

/-- True with the given probability. -/
def chance (probability : α) : Sampler α Bool := do
  let value ← unit
  return decide (value < probability)

/-- The slot that a draw falls into when `[0, 1)` is cut into `count` equal
parts; a product rounded up to `count` falls into the last one. -/
def slot (count : Nat) (value : α) : Nat :=
  min (Scalar.truncate (value * (count : α))) (count - 1)

/-- Uniform below `count`. -/
def index (count : Nat) : Sampler α Nat := do
  let value ← unit
  return slot count value

end Sampler

/-- A supply of draws.  A failed draw leaves the source in a state of its own
choice, and is reported as the failure of the computation that asked. -/
class DrawSource (σ : Type) (α : outParam Type) where
  next : σ → Except (LayoutError α) α × σ

namespace Sampler

variable {α β σ : Type} [DrawSource σ α]

/-- Answer every draw from a source. -/
def run : Sampler α β → σ → Except (LayoutError α) β × σ
  | .done result, source => (result, source)
  | .draw rest, source =>
      match DrawSource.next source with
      | (.ok value, source) => (rest value).run source
      | (.error failure, source) => (.error failure, source)

@[simp]
theorem run_pure (value : β) (source : σ) :
    (pure value : Sampler α β).run source = (.ok value, source) :=
  rfl

@[simp]
theorem run_throw (failure : LayoutError α) (source : σ) :
    (throw failure : Sampler α β).run source = (.error failure, source) :=
  rfl

/-- The second part of a computation draws where the first one stopped. -/
theorem run_bind {γ : Type} (sampler : Sampler α β)
    (next : β → Sampler α γ) (source : σ) :
    (sampler >>= next).run source =
      match sampler.run source with
      | (.ok value, after) => (next value).run after
      | (.error failure, after) => (.error failure, after) := by
  induction sampler generalizing source with
  | done result => cases result <;> rfl
  | draw rest ih =>
      change (Sampler.draw fun value => rest value >>= next).run source = _
      simp only [run]
      cases DrawSource.next source with
      | mk result after =>
          cases result with
          | error failure => rfl
          | ok value => exact ih value after

end Sampler

end Parterre
