/-
Computations that hold a source of draws as their state.  A failed draw is a
failure like any other, so such a computation could go on after it, look at
what is left of its source or draw from it again; only the way it is written
makes it pass the failure on.
-/
import Parterre.Sampler

namespace Parterre

/-- Computations over sources of the kind `σ`. -/
abbrev Drawing (σ α : Type) : Type → Type :=
  ExceptT (LayoutError α) (StateM σ)

namespace Drawing

variable {σ α β γ : Type}

/-- The result on a source, and what is left of the source. -/
def on (drawing : Drawing σ α β) (source : σ) : Except (LayoutError α) β × σ :=
  drawing.run.run source

theorem ext {first second : Drawing σ α β}
    (h : ∀ source, first.on source = second.on source) : first = second :=
  funext h

@[simp]
theorem on_pure (value : β) (source : σ) :
    (pure value : Drawing σ α β).on source = (.ok value, source) :=
  rfl

@[simp]
theorem on_throw (failure : LayoutError α) (source : σ) :
    (throw failure : Drawing σ α β).on source = (.error failure, source) :=
  rfl

/-- The second part of a computation goes on with the source that the first
one left. -/
theorem on_bind (drawing : Drawing σ α β) (next : β → Drawing σ α γ) (source : σ) :
    (drawing >>= next).on source =
      match drawing.on source with
      | (.ok value, after) => (next value).on after
      | (.error failure, after) => (.error failure, after) := by
  change (match drawing.on source with
    | (result, after) => (ExceptT.bindCont next result).run after) = _
  cases drawing.on source with
  | mk result after => cases result <;> rfl

variable [DrawSource σ α]

/-- One uniform draw. -/
def unit : Drawing σ α α :=
  ExceptT.mk DrawSource.next

@[simp]
theorem on_unit (source : σ) :
    (unit : Drawing σ α α).on source = DrawSource.next source :=
  rfl

variable [Scalar α]

/-- Uniform between `low` and `high`. -/
def range (low high : α) : Drawing σ α α := do
  let value ← unit
  return low + value * (high - low)

/-- True with the given probability. -/
def chance (probability : α) : Drawing σ α Bool := do
  let value ← unit
  return decide (value < probability)

/-- Uniform below `count`. -/
def index (count : Nat) : Drawing σ α Nat := do
  let value ← unit
  return Sampler.slot count value

end Drawing

namespace Sampler

variable {σ α β γ : Type} [DrawSource σ α]

/-- The computation that answers the draws of a sampler from its source. -/
def drawing (σ : Type) [DrawSource σ α] (sampler : Sampler α β) : Drawing σ α β :=
  ExceptT.mk sampler.run

theorem on_drawing (sampler : Sampler α β) (source : σ) :
    (sampler.drawing σ).on source = sampler.run source :=
  rfl

@[simp]
theorem drawing_pure (value : β) : (pure value : Sampler α β).drawing σ = pure value :=
  rfl

@[simp]
theorem drawing_throw (failure : LayoutError α) :
    (throw failure : Sampler α β).drawing σ = throw failure :=
  rfl

@[simp]
theorem drawing_liftM (result : Except (LayoutError α) β) :
    (liftM result : Sampler α β).drawing σ = liftM result :=
  rfl

@[simp]
theorem drawing_bind (sampler : Sampler α β) (next : β → Sampler α γ) :
    (sampler >>= next).drawing σ = sampler.drawing σ >>= fun value => (next value).drawing σ := by
  refine Drawing.ext fun source => ?_
  rw [Drawing.on_bind, on_drawing, on_drawing, run_bind]
  cases sampler.run source with
  | mk result after => cases result <;> rfl

@[simp]
theorem drawing_unit : (unit : Sampler α α).drawing σ = Drawing.unit := by
  refine Drawing.ext fun source => ?_
  rw [on_drawing, Drawing.on_unit, unit, run]
  cases DrawSource.next source with
  | mk result after => cases result <;> rfl

variable [Scalar α]

@[simp]
theorem drawing_range (low high : α) : (range low high).drawing σ = Drawing.range low high := by
  simp only [range, Drawing.range, drawing_bind, drawing_unit, drawing_pure]

@[simp]
theorem drawing_chance (probability : α) :
    (chance probability).drawing σ = Drawing.chance probability := by
  simp only [chance, Drawing.chance, drawing_bind, drawing_unit, drawing_pure]

@[simp]
theorem drawing_index (count : Nat) :
    (index count : Sampler α Nat).drawing σ = Drawing.index count := by
  simp only [index, Drawing.index, drawing_bind, drawing_unit, drawing_pure]

end Sampler

end Parterre
