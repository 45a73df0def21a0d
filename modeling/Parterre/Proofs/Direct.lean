/-
A run that waits for its draws, answered from a source, is the run that is
written directly over this source: the same value or failure, and the same
source left behind.
-/
import Parterre.Engine.Direct

namespace Parterre

variable {κ σ α : Type} [DrawSource σ α] [Scalar α]

@[simp]
theorem Direction.drawing_draw (bounds : Rect α) (axis : Direction) :
    (axis.draw bounds).drawing σ = axis.drawFrom bounds := by
  cases axis with
  | fixed axis => rfl
  | random =>
      simp only [draw, drawFrom, Sampler.drawing_bind, Sampler.drawing_chance, Sampler.drawing_pure]
  | longer => rfl

@[simp]
theorem ShareRange.drawing_draw (range : ShareRange α) :
    range.draw.drawing σ = range.drawFrom :=
  Sampler.drawing_range range.min range.max

@[simp]
theorem Cut.drawing_drawAcross (bounds : Rect α) (axis : Direction) (ratio : ShareRange α) :
    (Cut.drawAcross bounds axis ratio).drawing σ = Cut.drawAcrossFrom bounds axis ratio := by
  simp only [drawAcross, drawAcrossFrom, Sampler.drawing_bind, Direction.drawing_draw,
    ShareRange.drawing_draw, Sampler.drawing_pure]

@[simp]
theorem PaletteCut.drawing_draw (bounds : Rect α) (cut : PaletteCut α) :
    (cut.draw bounds).drawing σ = cut.drawFrom bounds := by
  cases cut with
  | two axis ratio => exact Cut.drawing_drawAcross bounds axis ratio
  | four => rfl

@[simp]
theorem Sampler.drawing_withoutReplacement (count : Nat) (pool : List κ) :
    (withoutReplacement count pool : Sampler α _).drawing σ =
      Drawing.withoutReplacement count pool := by
  induction count generalizing pool with
  | zero => rfl
  | succ count ih =>
      simp only [withoutReplacement, Drawing.withoutReplacement, drawing_bind, drawing_index, ih,
        drawing_pure]

@[simp]
theorem Step.drawing_expand (bounds : Rect α) (frame : κ) (step : Step κ α) :
    (step.expand bounds frame).drawing σ = step.expandFrom bounds frame := by
  cases step with
  | terminal | fill | quarter | embed => rfl
  | bisect axis ratio first second =>
      simp only [expand, expandFrom, Sampler.drawing_bind, Cut.drawing_drawAcross,
        Sampler.drawing_liftM]
  | corridor axis width ratio first strip second =>
      simp only [expand, expandFrom, Sampler.drawing_bind, Direction.drawing_draw,
        ShareRange.drawing_draw, Sampler.drawing_liftM]
  | mix candidates cut =>
      simp only [expand, expandFrom, apply_ite (Sampler.drawing σ), Sampler.drawing_throw,
        Sampler.drawing_bind, Sampler.drawing_withoutReplacement, PaletteCut.drawing_draw,
        Sampler.drawing_liftM]

mutual

theorem Rule.drawing_settle (bounds : Rect α) (rule : Rule κ α) :
    (rule.settle bounds).drawing σ = rule.settleFrom bounds := by
  cases rule with
  | always step => rfl
  | weighted branches =>
      simp only [settle, settleFrom, Sampler.drawing_bind, Sampler.drawing_unit]
      congr 1
      funext roll
      cases Weighted.select? roll (branches.map Prod.fst) with
      | none => rfl
      | some position => exact Rule.drawing_settleBranch bounds branches position
  | ifBothExceed minWidth minHeight large small =>
      simp only [settle, settleFrom, apply_ite (Sampler.drawing σ),
        Rule.drawing_settle bounds large, Rule.drawing_settle bounds small]
  | ifEitherExceeds threshold large small =>
      simp only [settle, settleFrom, apply_ite (Sampler.drawing σ),
        Rule.drawing_settle bounds large, Rule.drawing_settle bounds small]

theorem Rule.drawing_settleBranch (bounds : Rect α) (branches : List (α × Rule κ α))
    (position : Nat) :
    (Rule.settleBranch bounds branches position).drawing σ =
      Rule.settleBranchFrom bounds branches position := by
  match branches, position with
  | [], _ => rfl
  | (_, branch) :: _, 0 => exact Rule.drawing_settle bounds branch
  | _ :: rest, position + 1 => exact Rule.drawing_settleBranch bounds rest position

end

@[simp]
theorem Rule.drawing_expand (bounds : Rect α) (frame : κ) (rule : Rule κ α) :
    (rule.expand bounds frame).drawing σ = rule.expandFrom bounds frame := by
  simp only [expand, expandFrom, Sampler.drawing_bind, Rule.drawing_settle, Step.drawing_expand]

@[simp]
theorem Safeguard.drawing_draw (safeguard : Safeguard κ α) :
    safeguard.draw.drawing σ = safeguard.drawFrom := by
  obtain ⟨first, others⟩ := safeguard
  cases others with
  | nil => rfl
  | cons =>
      simp only [draw, drawFrom, Sampler.drawing_bind, Sampler.drawing_unit, Sampler.drawing_pure]

namespace Engine

variable [DecidableEq κ] [RegionKind κ] (engine : Engine κ α)

@[simp]
theorem drawing_judge (kind : κ) (bounds : Rect α) (depth : Nat) :
    (engine.judge kind bounds depth).drawing σ = engine.judgeFrom kind bounds depth := by
  simp only [judge, judgeFrom, apply_ite (Sampler.drawing σ), Sampler.drawing_bind,
    Sampler.drawing_pure, Sampler.drawing_liftM, Safeguard.drawing_draw, Rule.drawing_expand]

@[simp]
theorem drawing_advance (progress : Progress κ α) (position : Nat) :
    (engine.advance progress position).drawing σ = engine.advanceFrom progress position := by
  rw [advance, advanceFrom]
  cases progress.nodes[position]? with
  | none => rfl
  | some node => simp only [Sampler.drawing_bind, drawing_judge, Sampler.drawing_pure]

@[simp]
theorem drawing_process (limit : Nat) (progress : Progress κ α) :
    (engine.process limit progress).drawing σ = engine.processFrom limit progress := by
  induction limit generalizing progress with
  | zero =>
      cases hpop : progress.queue.pop? with
      | none =>
          rw [process, hpop, engine.processFrom_of_empty 0 hpop]
          rfl
      | some taken =>
          rw [process, hpop, engine.processFrom_zero hpop]
          rfl
  | succ limit ih =>
      cases hpop : progress.queue.pop? with
      | none =>
          rw [process, hpop, engine.processFrom_of_empty (limit + 1) hpop]
          rfl
      | some taken =>
          rw [process_succ engine limit progress hpop, engine.processFrom_succ limit hpop]
          simp only [Sampler.drawing_bind, drawing_advance, ih]

/-- The run over a source is the run that is answered from it. -/
theorem drawing_run (limit : Nat) (width height : α) :
    (engine.run limit width height).drawing σ = engine.runFrom limit width height := by
  simp only [run, runFrom, Sampler.drawing_bind, Sampler.drawing_liftM, drawing_process,
    Sampler.drawing_pure]

end Engine

end Parterre
