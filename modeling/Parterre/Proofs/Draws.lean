/-
Draws that a source delivers.  A sampler that was run against a source took
certain draws from it, one after the other, and saw nothing else of it, so it
comes to the same result on every source that begins with them.  A script
delivers the draws it starts with and counts them.
-/
import Parterre.Proofs.Contraction
import Parterre.Proofs.WellFormed

namespace Parterre

variable {α β σ : Type}

namespace DrawSource

variable [DrawSource σ α]

/-- The source delivers the given draws first, in order. -/
def Gives (source : σ) (draws : List α) : Prop :=
  ∀ place value, draws[place]? = some value →
    (next (advance^[place] source)).1 = .ok value

theorem gives_nil (source : σ) : Gives source ([] : List α) := by
  intro place value hvalue
  cases hvalue

/-- The first draw comes at once, and the source after it delivers the rest. -/
theorem gives_cons_iff {source : σ} {value : α} {rest : List α} :
    Gives source (value :: rest) ↔
      next source = (.ok value, advance source) ∧ Gives (advance source) rest := by
  constructor
  · intro h
    have hfirst : (next source).1 = .ok value := h 0 value rfl
    refine ⟨Prod.ext hfirst rfl, fun place later hlater => ?_⟩
    rw [← Function.iterate_succ_apply]
    exact h (place + 1) later hlater
  · rintro ⟨hfirst, hrest⟩ place later hlater
    cases place with
    | zero =>
        cases hlater
        rw [Function.iterate_zero, id, hfirst]
    | succ place =>
        rw [Function.iterate_succ_apply]
        exact hrest place later hlater

/-- A source that never fails does not fail after some draws either. -/
theorem Supplies.advance_iterate {admits : α → Prop} {source : σ} (h : Supplies admits source)
    (count : Nat) : Supplies admits (advance^[count] source) := by
  intro more
  rw [← Function.iterate_add_apply]
  exact h (more + count)

end DrawSource

namespace Sampler

/-- The computation takes exactly the given draws and ends with the result. -/
inductive Takes : Sampler α β → List α → Except (LayoutError α) β → Prop
  | done (result : Except (LayoutError α) β) : Takes (.done result) [] result
  | draw {next : α → Sampler α β} {value : α} {draws : List α}
      {result : Except (LayoutError α) β} (hnext : Takes (next value) draws result) :
      Takes (.draw next) (value :: draws) result

variable [DrawSource σ α] {sampler : Sampler α β} {source after : σ} {draws : List α}

/-- A run that returns a value took the draws that its source delivered first,
and leaves the source behind them. -/
theorem exists_takes_of_run {value : β} (h : sampler.run source = (.ok value, after)) :
    ∃ draws, Takes sampler draws (.ok value) ∧ DrawSource.Gives source draws ∧
      after = DrawSource.advance^[draws.length] source := by
  induction sampler generalizing source with
  | done result =>
      simp only [run, Prod.mk.injEq] at h
      obtain ⟨rfl, rfl⟩ := h
      exact ⟨[], .done _, DrawSource.gives_nil source, rfl⟩
  | draw rest ih =>
      rw [run] at h
      cases hnext : DrawSource.next source with
      | mk result middle =>
          rw [hnext] at h
          cases result with
          | error failure => cases h
          | ok drawn =>
              obtain rfl : DrawSource.advance source = middle := by
                rw [DrawSource.advance, hnext]
              obtain ⟨draws, htakes, hgives, hafter⟩ := ih drawn h
              refine ⟨drawn :: draws, .draw htakes,
                DrawSource.gives_cons_iff.mpr ⟨hnext, hgives⟩, ?_⟩
              rw [List.length_cons, Function.iterate_succ_apply]
              exact hafter

/-- The result is the same on every source that delivers the draws. -/
theorem Takes.run {result : Except (LayoutError α) β} (h : Takes sampler draws result)
    (hgives : DrawSource.Gives source draws) :
    sampler.run source = (result, DrawSource.advance^[draws.length] source) := by
  induction h generalizing source with
  | done result => rfl
  | draw _ ih =>
      obtain ⟨hfirst, hrest⟩ := DrawSource.gives_cons_iff.mp hgives
      rw [Sampler.run, hfirst, List.length_cons, Function.iterate_succ_apply]
      exact ih hrest

/-- What is left of a source that never fails does not fail either. -/
theorem supplies_of_run {admits : α → Prop} {value : β}
    (hsource : DrawSource.Supplies admits source)
    (h : sampler.run source = (.ok value, after)) : DrawSource.Supplies admits after := by
  obtain ⟨draws, _, _, rfl⟩ := exists_takes_of_run h
  exact hsource.advance_iterate draws.length

end Sampler

namespace Script

variable [Scalar α] {script : Script α} {draws : List α}

/-- A script delivers the draws it starts with, if all of them lie in `[0, 1)`. -/
theorem gives_iff : DrawSource.Gives script draws ↔
    draws <+: script.remaining ∧ ∀ value ∈ draws, InUnit value := by
  induction draws generalizing script with
  | nil => simp [DrawSource.gives_nil]
  | cons value rest ih =>
      obtain ⟨remaining, consumed⟩ := script
      rw [DrawSource.gives_cons_iff, ih, List.forall_mem_cons]
      cases remaining with
      | nil =>
          refine iff_of_false (fun h => ?_) (fun h => ?_)
          · cases h.1
          · simpa using h.1.length_le
      | cons first others =>
          rw [List.cons_prefix_cons]
          by_cases hunit : InUnit first
          · have hnext : DrawSource.next (⟨first :: others, consumed⟩ : Script α) =
                (.ok first, ⟨others, consumed + 1⟩) := if_pos hunit
            rw [DrawSource.advance, hnext]
            simp only [Prod.mk.injEq, Except.ok.injEq, and_true]
            constructor
            · rintro ⟨rfl, hstarts, hrest⟩
              exact ⟨⟨rfl, hstarts⟩, hunit, hrest⟩
            · rintro ⟨⟨rfl, hstarts⟩, _, hrest⟩
              exact ⟨rfl, hstarts, hrest⟩
          · have hnext : DrawSource.next (⟨first :: others, consumed⟩ : Script α) =
                (.error (.config (.drawOutside first consumed)),
                  ⟨first :: others, consumed⟩) := if_neg hunit
            refine iff_of_false (fun h => ?_) (fun h => ?_)
            · rw [hnext] at h
              cases h.1
            · obtain ⟨⟨rfl, _⟩, hvalue, _⟩ := h
              exact hunit hvalue

/-- The script counts the draws that it delivered. -/
theorem advance_iterate (h : DrawSource.Gives script draws) :
    DrawSource.advance^[draws.length] script =
      ⟨script.remaining.drop draws.length, script.consumed + draws.length⟩ := by
  induction draws generalizing script with
  | nil => rfl
  | cons value rest ih =>
      obtain ⟨⟨others, hothers⟩, hunit⟩ := gives_iff.mp h
      obtain ⟨remaining, consumed⟩ := script
      obtain rfl : value :: (rest ++ others) = remaining := hothers
      have hnext : DrawSource.next (⟨value :: (rest ++ others), consumed⟩ : Script α) =
          (.ok value, ⟨rest ++ others, consumed + 1⟩) :=
        if_pos (hunit value List.mem_cons_self)
      have hadvance : DrawSource.advance (⟨value :: (rest ++ others), consumed⟩ : Script α) =
          ⟨rest ++ others, consumed + 1⟩ := by rw [DrawSource.advance, hnext]
      have hrest := (DrawSource.gives_cons_iff.mp h).2
      rw [hadvance] at hrest
      rw [List.length_cons, Function.iterate_succ_apply, hadvance, ih hrest, List.drop_succ_cons,
        Nat.add_assoc, Nat.add_comm 1]

end Script

end Parterre
