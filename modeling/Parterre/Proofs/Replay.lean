/-
The draws of a run.  A run that holds its source in hand could look at the source
or go on after a failed draw, but it does neither: what it returns depends on the
draws it takes and on nothing else.  Every source that begins with these draws
leads to the same layout, and a source that fails before the last of them ends
the run with its failure at once.  This holds of one draw and of everything that
is put together from computations it holds of, so of every function that draws.
-/
import Parterre.Proofs.Direct
import Parterre.Proofs.Draws
import Parterre.Proofs.WellFormed

namespace Parterre

variable {κ α β γ : Type}

namespace DrawSource

variable {σ : Type} [DrawSource σ α] {source : σ} {first second : List α}

theorem gives_append_iff : Gives source (first ++ second) ↔
    Gives source first ∧ Gives (advance^[first.length] source) second := by
  induction first generalizing source with
  | nil => simp [gives_nil]
  | cons value rest ih =>
      rw [List.cons_append, gives_cons_iff, gives_cons_iff, ih, List.length_cons,
        Function.iterate_succ_apply, and_assoc]

theorem advance_iterate_append :
    advance^[(first ++ second).length] source =
      advance^[second.length] (advance^[first.length] source) := by
  rw [List.length_append, Nat.add_comm, Function.iterate_add_apply]

end DrawSource

namespace Drawing

/-- A computation that is the same for all kinds of sources. -/
abbrev Generic (α β : Type) : Type 1 :=
  ∀ (σ : Type) [DrawSource σ α], Drawing σ α β

/-- The computation takes exactly the given draws and returns the value, on every
source that delivers them.  A draw that fails instead is the last one it takes, and
its failure is the result. -/
structure Takes (drawing : Generic α β) (draws : List α) (value : β) : Prop where
  returns : ∀ {σ : Type} [DrawSource σ α] {source : σ}, DrawSource.Gives source draws →
    (drawing σ).on source = (.ok value, DrawSource.advance^[draws.length] source)
  fails : ∀ {σ : Type} [DrawSource σ α] {source after : σ} {count : Nat}
    {failure : LayoutError α}, count < draws.length →
    DrawSource.Gives source (draws.take count) →
    DrawSource.next (DrawSource.advance^[count] source) = (.error failure, after) →
    (drawing σ).on source = (.error failure, after)

/-- Whenever the computation returns a value, it does so on the strength of draws that
its source delivered. -/
def Replays (drawing : Generic α β) : Prop :=
  ∀ (σ : Type) [DrawSource σ α] (source after : σ) (value : β),
    (drawing σ).on source = (.ok value, after) →
    ∃ draws, DrawSource.Gives source draws ∧ Takes drawing draws value

section

variable {first : Generic α β} {next : β → Generic α γ} {draws later : List α}

theorem Takes.pure (value : β) : Takes (fun _ _ => Pure.pure value : Generic α β) [] value where
  returns _ := rfl
  fails hlt := absurd hlt (Nat.not_lt_zero _)

/-- A sequence takes the draws of its parts one after the other. -/
theorem Takes.bind {value : β} {result : γ} (hfirst : Takes first draws value)
    (hnext : Takes (next value) later result) :
    Takes (fun σ _ => first σ >>= fun value => next value σ) (draws ++ later) result where
  returns {σ _ source} hgives := by
    obtain ⟨hdraws, hlater⟩ := DrawSource.gives_append_iff.mp hgives
    rw [on_bind, hfirst.returns hdraws, DrawSource.advance_iterate_append]
    exact hnext.returns hlater
  fails {σ _ source after count failure} hlt hgives hfails := by
    rw [List.length_append] at hlt
    rw [List.take_append] at hgives
    obtain ⟨hdraws, hlater⟩ := DrawSource.gives_append_iff.mp hgives
    rcases Nat.lt_or_ge count draws.length with hshort | hlong
    · rw [on_bind, hfirst.fails hshort hdraws hfails]
    · -- the first part has all its draws, so the second one meets the failure
      rw [List.take_of_length_le hlong] at hdraws hlater
      rw [on_bind, hfirst.returns hdraws]
      refine hnext.fails (Nat.sub_lt_left_of_lt_add hlong hlt) hlater ?_
      rw [← Function.iterate_add_apply, Nat.sub_add_cancel hlong]
      exact hfails

theorem replays_pure (value : β) : Replays (fun _ _ => Pure.pure value : Generic α β) := by
  intro σ _ source after result h
  rw [on_pure, Prod.mk.injEq, Except.ok.injEq] at h
  obtain ⟨rfl, -⟩ := h
  exact ⟨[], DrawSource.gives_nil source, .pure value⟩

theorem replays_throw (failure : LayoutError α) :
    Replays (fun _ _ => throw failure : Generic α β) := by
  intro σ _ source after result h
  rw [on_throw] at h
  cases h

theorem replays_liftM (result : Except (LayoutError α) β) :
    Replays (fun _ _ => liftM result : Generic α β) := by
  cases result with
  | error failure => exact replays_throw failure
  | ok value => exact replays_pure value

theorem Replays.bind (hfirst : Replays first) (hnext : ∀ value, Replays (next value)) :
    Replays (fun σ _ => first σ >>= fun value => next value σ) := by
  intro σ _ source after result h
  rw [on_bind] at h
  cases hrun : (first σ).on source with
  | mk outcome middle =>
      rw [hrun] at h
      cases outcome with
      | error failure => cases h
      | ok value =>
          obtain ⟨draws, hdraws, hvalue⟩ := hfirst σ source middle value hrun
          rw [hvalue.returns hdraws, Prod.mk.injEq] at hrun
          obtain ⟨-, rfl⟩ := hrun
          obtain ⟨later, hlater, hresult⟩ := hnext value σ _ after result h
          exact ⟨draws ++ later, DrawSource.gives_append_iff.mpr ⟨hdraws, hlater⟩,
            hvalue.bind hresult⟩

/-- One draw. -/
theorem replays_unit : Replays (fun _ _ => unit : Generic α α) := by
  intro σ _ source after value h
  rw [on_unit] at h
  have hadvance : DrawSource.advance source = after := by rw [DrawSource.advance, h]
  refine ⟨[value], DrawSource.gives_cons_iff.mpr ⟨by rw [h, hadvance], DrawSource.gives_nil _⟩, ?_⟩
  exact
    { returns := fun hgives => (DrawSource.gives_cons_iff.mp hgives).1
      fails := fun hlt _ hfails => by
        obtain rfl := Nat.lt_one_iff.mp hlt
        exact hfails }

end

section

variable [Scalar α]

theorem replays_range (low high : α) : Replays (fun _ _ => range low high) :=
  replays_unit.bind fun _ => replays_pure _

theorem replays_chance (probability : α) : Replays (fun _ _ => chance probability) :=
  replays_unit.bind fun _ => replays_pure _

theorem replays_index (count : Nat) : Replays (fun _ _ => index count : Generic α Nat) :=
  replays_unit.bind fun _ => replays_pure _

/-- A computation that goes on with a value of its own after a failed draw is none of
them: without a draw it returns this value, and with one it may return another. -/
theorem not_replays_tryCatch :
    ¬ Replays (fun _ _ => tryCatch unit fun _ => pure 0 : Generic Rat Rat) := by
  intro h
  obtain ⟨draws, hgives, htakes⟩ := h (Script Rat) (Script.ofList []) (Script.ofList []) 0 rfl
  obtain rfl := List.prefix_nil.mp (Script.gives_iff.mp hgives).1
  have hsteady := htakes.returns (DrawSource.gives_nil (⟨1 / 2⟩ : Steady Rat))
  have hvalue : ((tryCatch unit fun _ => pure 0 : Drawing (Steady Rat) Rat Rat).on ⟨1 / 2⟩).1 =
      .ok (1 / 2) := rfl
  rw [hsteady] at hvalue
  have hsame : (0 : Rat) = 1 / 2 := Except.ok.inj hvalue
  norm_num at hsame

theorem replays_withoutReplacement (count : Nat) (pool : List κ) :
    Replays (fun _ _ => withoutReplacement count pool : Generic α (List κ × List κ)) := by
  induction count generalizing pool with
  | zero => exact replays_pure _
  | succ count ih =>
      exact (replays_index pool.length).bind fun position =>
        (ih (pool.eraseIdx position)).bind fun _ => replays_pure _

end

end Drawing

/-- What a computation made of a script, it took from the first draws of the
script, as many as the script counted. -/
theorem Script.exists_takes [Scalar α] {drawing : Drawing.Generic α β} {script : List α}
    {value : β} {after : Script α} (hdrawing : Drawing.Replays drawing)
    (h : (drawing (Script α)).on (ofList script) = (.ok value, after)) :
    after.consumed ≤ script.length ∧
      Drawing.Takes drawing (script.take after.consumed) value ∧
      ∀ drawn ∈ script.take after.consumed, InUnit drawn := by
  obtain ⟨draws, hgives, htakes⟩ := hdrawing (Script α) _ _ _ h
  rw [htakes.returns hgives, advance_iterate hgives, Prod.mk.injEq] at h
  obtain ⟨-, rfl⟩ := h
  obtain ⟨hstarts, hunit⟩ := gives_iff.mp hgives
  have hdraws : script.take draws.length = draws := (List.prefix_iff_eq_take.mp hstarts).symm
  simp only [ofList, Nat.zero_add]
  rw [hdraws]
  exact ⟨hstarts.length_le, htakes, hunit⟩

open Drawing

section

variable [Scalar α]

theorem Direction.replays_drawFrom (bounds : Rect α) (axis : Direction) :
    Replays (fun _ _ => axis.drawFrom bounds) := by
  cases axis with
  | fixed axis => exact replays_pure axis
  | random => exact (replays_chance _).bind fun _ => replays_pure _
  | longer => exact replays_pure _

theorem ShareRange.replays_drawFrom (range : ShareRange α) :
    Replays (fun _ _ => range.drawFrom) :=
  replays_range range.min range.max

theorem Cut.replays_drawAcrossFrom (bounds : Rect α) (axis : Direction) (ratio : ShareRange α) :
    Replays (fun _ _ => Cut.drawAcrossFrom bounds axis ratio) :=
  (axis.replays_drawFrom bounds).bind fun _ =>
    ratio.replays_drawFrom.bind fun _ => replays_pure _

theorem PaletteCut.replays_drawFrom (bounds : Rect α) (cut : PaletteCut α) :
    Replays (fun _ _ => cut.drawFrom bounds) := by
  cases cut with
  | two axis ratio => exact Cut.replays_drawAcrossFrom bounds axis ratio
  | four => exact replays_pure _

theorem Step.replays_expandFrom (bounds : Rect α) (frame : κ) (step : Step κ α) :
    Replays (fun _ _ => step.expandFrom bounds frame) := by
  cases step with
  | terminal => exact replays_pure _
  | fill kind => exact replays_liftM _
  | bisect axis ratio first second =>
      exact (Cut.replays_drawAcrossFrom bounds axis ratio).bind fun _ => replays_liftM _
  | quarter topLeft topRight bottomLeft bottomRight => exact replays_liftM _
  | corridor axis width ratio first strip second =>
      exact (axis.replays_drawFrom bounds).bind fun _ =>
        ratio.replays_drawFrom.bind fun _ => replays_liftM _
  | mix candidates cut =>
      simp only [expandFrom]
      split
      · exact replays_throw _
      · exact (replays_withoutReplacement cut.arity candidates).bind fun _ =>
          (cut.replays_drawFrom bounds).bind fun _ => replays_liftM _
  | embed feature margin => exact replays_liftM _

mutual

theorem Rule.replays_settleFrom (bounds : Rect α) (rule : Rule κ α) :
    Replays (fun _ _ => rule.settleFrom bounds) := by
  cases rule with
  | always step =>
      simp only [settleFrom]
      exact replays_pure step
  | weighted branches =>
      simp only [settleFrom]
      refine replays_unit.bind fun roll => ?_
      cases Weighted.select? roll (branches.map Prod.fst) with
      | none => exact replays_throw _
      | some position => exact Rule.replays_settleBranchFrom bounds branches position
  | ifBothExceed minWidth minHeight large small =>
      simp only [settleFrom]
      split
      · exact Rule.replays_settleFrom bounds large
      · exact Rule.replays_settleFrom bounds small
  | ifEitherExceeds threshold large small =>
      simp only [settleFrom]
      split
      · exact Rule.replays_settleFrom bounds large
      · exact Rule.replays_settleFrom bounds small

theorem Rule.replays_settleBranchFrom (bounds : Rect α) (branches : List (α × Rule κ α))
    (position : Nat) :
    Replays (fun _ _ => Rule.settleBranchFrom bounds branches position) := by
  match branches, position with
  | [], _ =>
      simp only [settleBranchFrom]
      exact replays_throw _
  | (_, branch) :: _, 0 =>
      simp only [settleBranchFrom]
      exact Rule.replays_settleFrom bounds branch
  | _ :: rest, position + 1 =>
      simp only [settleBranchFrom]
      exact Rule.replays_settleBranchFrom bounds rest position

end

theorem Rule.replays_expandFrom (bounds : Rect α) (frame : κ) (rule : Rule κ α) :
    Replays (fun _ _ => rule.expandFrom bounds frame) :=
  (rule.replays_settleFrom bounds).bind fun step => step.replays_expandFrom bounds frame

theorem Safeguard.replays_drawFrom (safeguard : Safeguard κ α) :
    Replays (fun _ _ => safeguard.drawFrom) := by
  obtain ⟨first, others⟩ := safeguard
  cases others with
  | nil => exact replays_pure _
  | cons => exact replays_unit.bind fun _ => replays_pure _

end

namespace Engine

variable [DecidableEq κ] [RegionKind κ] [Scalar α] (engine : Engine κ α)

theorem replays_judgeFrom (kind : κ) (bounds : Rect α) (depth : Nat) :
    Replays (fun _ _ => engine.judgeFrom kind bounds depth) := by
  simp only [judgeFrom]
  split
  · split
    · exact replays_pure _
    · exact engine.settings.safeguard.replays_drawFrom.bind fun _ => replays_pure _
  · exact (replays_liftM _).bind fun rule =>
      (rule.replays_expandFrom bounds _).bind fun _ => replays_pure _

theorem replays_advanceFrom (progress : Progress κ α) (position : Nat) :
    Replays (fun _ _ => engine.advanceFrom progress position) := by
  simp only [advanceFrom]
  cases progress.nodes[position]? with
  | none => exact replays_pure _
  | some node => exact (engine.replays_judgeFrom _ _ _).bind fun _ => replays_pure _

/-- One region after the other, for as long as there are regions to spend. -/
theorem replays_processFrom (limit : Nat) (progress : Progress κ α) :
    Replays (fun _ _ => engine.processFrom limit progress) := by
  induction limit generalizing progress with
  | zero =>
      cases hpop : progress.queue.pop? with
      | none =>
          simp only [engine.processFrom_of_empty 0 hpop]
          exact replays_pure _
      | some taken =>
          simp only [engine.processFrom_zero hpop]
          exact replays_pure _
  | succ limit ih =>
      cases hpop : progress.queue.pop? with
      | none =>
          simp only [engine.processFrom_of_empty (limit + 1) hpop]
          exact replays_pure _
      | some taken =>
          simp only [engine.processFrom_succ limit hpop]
          exact (engine.replays_advanceFrom _ _).bind ih

theorem replays_runFrom (limit : Nat) (width height : α) :
    Replays (fun _ _ => engine.runFrom limit width height) :=
  (replays_liftM _).bind fun _ =>
    (engine.replays_processFrom limit _).bind fun _ => replays_pure _

/-- A run depends on the draws it takes and on nothing else of its source.  A
script that agrees with the draws taken leads to the same layout and gives as
many of them, a script that holds fewer of them is used up, and any other source
that delivers them leads to the same layout.  The run that is answered from a
source is this one. -/
theorem run_replays {limit : Nat} {width length : α} {script : List α}
    {generation : Generation κ α} {after : Script α}
    (hrun : (engine.runFrom limit width length).on (Script.ofList script) =
      (.ok (some generation), after)) :
    (∀ other : List α, other.take after.consumed = script.take after.consumed →
      (engine.runFrom limit width length).on (Script.ofList other) =
        (.ok (some generation), ⟨other.drop after.consumed, after.consumed⟩)) ∧
    (∀ count < after.consumed,
      (engine.runFrom limit width length).on (Script.ofList (script.take count)) =
        (.error (.randomSourceExhausted count), ⟨[], count⟩)) ∧
    (∀ (σ : Type) [DrawSource σ α] (source : σ),
      DrawSource.Gives source (script.take after.consumed) →
      (engine.runFrom limit width length).on source =
        (.ok (some generation), DrawSource.advance^[after.consumed] source)) ∧
    ∀ (σ : Type) [DrawSource σ α] (source : σ),
      (engine.run limit width length).run source =
        (engine.runFrom limit width length).on source := by
  obtain ⟨hle, htakes, hunit⟩ :=
    Script.exists_takes (engine.replays_runFrom limit width length) hrun
  have hlength : (script.take after.consumed).length = after.consumed :=
    List.length_take_of_le hle
  refine ⟨fun other hother => ?_, fun count hcount => ?_, fun σ _ source hgives => ?_,
    fun σ _ source => ?_⟩
  · have hgives : DrawSource.Gives (Script.ofList other) (script.take after.consumed) :=
      Script.gives_iff.mpr ⟨hother ▸ List.take_prefix _ other, hunit⟩
    rw [htakes.returns hgives, Script.advance_iterate hgives, hlength, Script.ofList,
      Nat.zero_add]
  · have htaken : (script.take after.consumed).take count = script.take count := by
      rw [List.take_take, Nat.min_eq_left hcount.le]
    have hgives : DrawSource.Gives (Script.ofList (script.take count)) (script.take count) := by
      refine Script.gives_iff.mpr ⟨List.prefix_refl _, fun value hvalue => hunit value ?_⟩
      exact List.mem_of_mem_take (htaken.symm ▸ hvalue)
    refine htakes.fails (hlength.symm ▸ hcount) (htaken.symm ▸ hgives) ?_
    -- the shorter script is used up when the next draw is due
    have hcounted : (script.take count).length = count :=
      List.length_take_of_le (hcount.le.trans hle)
    have hused := Script.advance_iterate hgives
    rw [hcounted, Script.ofList, List.drop_of_length_le hcounted.le, Nat.zero_add] at hused
    rw [Script.ofList, hused]
    rfl
  · rw [htakes.returns hgives, hlength]
  · rw [← drawing_run, Sampler.on_drawing]

end Engine

namespace Garden

theorem run_replays_small :
    ∃ generation after,
      (small.runFrom 12 400 300).on smallDraws = (.ok (some generation), after) ∧
      after.consumed = 4 ∧
      (small.runFrom 12 400 300).on
          (Script.ofList [(1 / 4 : Rat), 1 / 2, 1 / 10, 3 / 10, 9 / 10]) =
        (.ok (some generation), ⟨[9 / 10], 4⟩) ∧
      (small.runFrom 12 400 300).on (Script.ofList [(1 / 4 : Rat), 1 / 2]) =
        (.error (.randomSourceExhausted 2), ⟨[], 2⟩) ∧
      (small.run 12 400 300).run smallDraws = (.ok (some generation), after) := by
  obtain ⟨generation, after, hrun, _⟩ := small_finished
  have hconsumed : ((small.run 12 400 300).run smallDraws).2.consumed = 4 := by
    decide +kernel
  rw [hrun] at hconsumed
  have hover : (small.runFrom 12 400 300).on smallDraws = (.ok (some generation), after) := by
    rw [← Engine.drawing_run, Sampler.on_drawing, hrun]
  obtain ⟨hlonger, hshorter, _, hsame⟩ := Engine.run_replays small hover
  rw [hconsumed] at hlonger hshorter
  exact ⟨generation, after, hover, hconsumed,
    hlonger [1 / 4, 1 / 2, 1 / 10, 3 / 10, 9 / 10] rfl, hshorter 2 (by decide),
    (hsame _ smallDraws).trans hover⟩

end Garden

end Parterre
