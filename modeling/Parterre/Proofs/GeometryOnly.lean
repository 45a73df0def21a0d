/-
Only geometry or the source makes a run fail.  What the checks of tables and
engines refuse never comes up in a run, so a failed run was refused a rectangle
or asked the source once too often.  Nothing is looked up outside its range
either: not in the arena, not in the queue, not in a pool of candidates.
-/
import Parterre.Proofs.Checked
import Parterre.Proofs.Failure
import Parterre.Proofs.WellFormed

namespace Parterre

variable {κ α β γ σ : Type}

/-- The failure is about a rectangle. -/
def LayoutError.IsGeometric (failure : LayoutError α) : Prop :=
  ∃ bounds fault, failure = .invalidGeometry bounds fault

/-- The result is a value or fails at a rectangle. -/
def Geometric (result : Except (LayoutError α) β) : Prop :=
  ∀ failure, result = .error failure → failure.IsGeometric

theorem geometric_ok (value : β) : Geometric (.ok value : Except (LayoutError α) β) := by
  intro failure h
  cases h

theorem geometric_error (bounds : Rect α) (fault : RectFault α) :
    Geometric (.error (.invalidGeometry bounds fault) : Except (LayoutError α) β) := by
  intro failure h
  cases h
  exact ⟨bounds, fault, rfl⟩

theorem Geometric.bind {first : Except (LayoutError α) β}
    {next : β → Except (LayoutError α) γ} (hfirst : Geometric first)
    (hnext : ∀ value, Geometric (next value)) : Geometric (first >>= next) := by
  intro failure h
  rcases bind_eq_error_iff.mp h with hfailed | ⟨value, _, hlater⟩
  · exact hfirst failure hfailed
  · exact hnext value failure hlater

theorem Geometric.mapM {convert : β → Except (LayoutError α) γ}
    (h : ∀ value, Geometric (convert value)) (values : List β) :
    Geometric (values.mapM convert) := by
  induction values with
  | nil => exact geometric_ok []
  | cons value rest ih =>
      rw [List.mapM_cons]
      exact (h value).bind fun _ => ih.bind fun _ => geometric_ok _

section Rectangles

variable [Scalar α]

theorem Rect.geometric_checked (bounds : Rect α) : Geometric bounds.checked := by
  unfold checked
  split_ifs
  · exact geometric_error _ _
  · exact geometric_error _ _
  · exact geometric_ok _

theorem Rect.geometric_inset (bounds : Rect α) (margin : α) :
    Geometric (bounds.inset margin) := by
  unfold inset
  split
  · exact geometric_error _ _
  · split
    · exact geometric_error _ _
    · exact geometric_checked _

theorem Cut.geometric_parts (bounds : Rect α) (cut : Cut α) : Geometric (cut.parts bounds) := by
  cases cut with
  | whole => exact geometric_ok _
  | corridor axis width share =>
      rw [parts]
      split_ifs
      · exact geometric_error _ _
      · exact .mapM Rect.geometric_checked _
  | across | quarters => exact .mapM Rect.geometric_checked _

theorem Expansion.geometric_ofEmbed (bounds : Rect α) (frame feature : κ) (margin : α) :
    Geometric (Expansion.ofEmbed bounds frame feature margin) := by
  unfold ofEmbed
  split
  · exact geometric_error _ _
  · exact (bounds.geometric_inset margin).bind fun _ => geometric_ok _

theorem Step.Fails.isGeometric {admits : α → Prop} {bounds : Rect α} {frame : κ}
    {step : Step κ α} {failure : LayoutError α}
    (h : step.Fails admits bounds frame failure) : failure.IsGeometric := by
  cases h with
  | laid _ hparts => exact Cut.geometric_parts _ _ failure hparts
  | embed hembed => exact Expansion.geometric_ofEmbed _ _ _ _ failure hembed

end Rectangles

namespace Sampler

variable [Scalar α]

/-- Draw positions of a pool, one after the other, and take out what stands
there.  Nothing is returned once a position is outside the pool. -/
def takeOut? : Nat → List κ → Sampler α (Option (List κ))
  | 0, _ => return some []
  | count + 1, pool => do
      let position ← index pool.length
      match pool[position]? with
      | none => return none
      | some chosen =>
          let later ← takeOut? count (pool.eraseIdx position)
          return later.map (chosen :: ·)

/-- Drawing without replacement stays inside the pool if there are enough
elements. -/
theorem takeOut?_eq {count : Nat} {pool : List κ} (hcount : count ≤ pool.length) :
    (takeOut? count pool : Sampler α (Option (List κ))) =
      (fun drawn => some drawn.1) <$> withoutReplacement count pool := by
  induction count generalizing pool with
  | zero => simp [takeOut?, withoutReplacement]
  | succ count ih =>
      rw [takeOut?, withoutReplacement]
      simp only [index, bind_assoc, pure_bind, map_eq_pure_bind]
      refine bind_congr fun value => ?_
      have hslot : slot pool.length value < pool.length := by
        unfold slot
        omega
      have hlength : count ≤ (pool.eraseIdx (slot pool.length value)).length := by
        rw [List.length_eraseIdx_of_lt hslot]
        omega
      rw [List.getElem?_eq_getElem hslot]
      simp only [ih hlength, map_eq_pure_bind, bind_assoc, pure_bind, Option.map_some,
        Option.toList_some, List.singleton_append]

end Sampler

/-- Queue and children stay inside the arena. -/
structure Progress.InRange (progress : Progress κ α) : Prop where
  queue : ∀ position ∈ progress.queue.toList, position < progress.nodes.size
  children : ∀ node ∈ progress.nodes.toList, ∀ child ∈ node.children,
    child < progress.nodes.size

variable [Scalar α]

theorem Progress.Orderly.inRange {progress : Progress κ α} (h : progress.Orderly) :
    progress.InRange where
  queue := fun _ hposition => h.lt_size_of_mem_queue hposition
  children := by
    intro node hnode child hchild
    have hmem : child ∈ progress.nodes.toList.flatMap Node.children :=
      List.mem_flatMap.mpr ⟨node, hnode, hchild⟩
    rw [h.children_perm.mem_iff, List.mem_range'_1] at hmem
    omega

variable [DecidableEq κ] [RegionKind κ]

namespace Engine

variable {engine : Engine κ α} {admits : α → Prop}

/-- A run refuses nothing but rectangles. -/
theorem isGeometric_of_outcome (hcomplete : RegionKind.Complete κ) {limit : Nat}
    {width height : α} {failure : LayoutError α}
    (h : Sampler.Outcome admits (engine.run limit width height) (.error failure)) :
    failure.IsGeometric := by
  rcases exists_judge_of_run h with hroot | ⟨_, _, _, _, _, _, _, hjudge⟩
  · exact Rect.geometric_checked _ failure hroot
  · obtain ⟨_, _, _, _, _, hfails⟩ := exists_step_of_judge hcomplete hjudge
    exact hfails.isGeometric

/-- A failed run was refused a rectangle, or the failure is that of the draw
behind the draws it got.  In every state of every run the queue and the children
are positions of the arena, and every subset in the table is drawn inside its
candidates and has a kind for every part of its cut. -/
theorem run_fails_geometrically [DrawSource σ α] (engine : Engine κ α)
    (hcomplete : RegionKind.Complete κ) (width height : α) :
    (∀ (limit : Nat) (source after : σ) (failure : LayoutError α),
      (engine.run limit width height).run source = (.error failure, after) →
        failure.IsGeometric ∨ DrawSource.Fails source after failure) ∧
    (∀ progress, engine.Reaches (fun _ => True)
        (.start engine.settings.root ⟨0, 0, width, height⟩) progress → progress.InRange) ∧
    ∀ candidates cut, Step.mix candidates cut ∈ engine.table.steps →
      (Sampler.takeOut? cut.arity candidates : Sampler α (Option (List κ))) =
        (fun drawn => some drawn.1) <$> Sampler.withoutReplacement cut.arity candidates ∧
      ∀ chosen rest, Sampler.Outcome (fun _ : α => True)
        (Sampler.withoutReplacement cut.arity candidates) (.ok (chosen, rest)) →
          chosen.length = cut.arity := by
  refine ⟨?_, ?_, ?_⟩
  · intro limit source after failure hrun
    rcases Sampler.failure_of_run (DrawSource.delivers_any source) hrun with houtcome | hfails
    · exact Or.inl (isGeometric_of_outcome hcomplete houtcome)
    · exact Or.inr hfails
  · intro progress hreached
    exact (hreached.orderly (Progress.orderly_start _ _)).inRange
  · intro candidates cut hmem
    obtain ⟨owner, hcheck⟩ := RuleTable.check_of_mem_steps hmem
    have henough := Step.enough_of_check hcheck
    exact ⟨Sampler.takeOut?_eq henough, fun chosen rest hchosen =>
      (Sampler.withoutReplacement_perm hchosen henough).2⟩

/-- The failure of a run. -/
def failed : Except (LayoutError α) β × σ → Option (LayoutError α)
  | (.error failure, _) => some failure
  | _ => none

omit [Scalar α] [DecidableEq κ] [RegionKind κ] in
theorem eq_of_failed {result : Except (LayoutError α) β × σ} {failure : LayoutError α}
    (h : failed result = some failure) : ∃ after, result = (.error failure, after) := by
  obtain ⟨given | _, after⟩ := result
  · cases h
    exact ⟨after, rfl⟩
  · cases h

end Engine

namespace Garden

/-- The path of a garden takes two draws, so a script of one is used up. -/
theorem run_fails_geometrically_small :
    RegionKind.Complete Kind ∧ ∃ after,
      (small.run 12 400 300).run (Script.ofList [1 / 4] : Script Rat) =
        (.error (.randomSourceExhausted 1), after) ∧
      DrawSource.Fails (Script.ofList [1 / 4] : Script Rat) after
        (.randomSourceExhausted 1) := by
  have hfailed : Engine.failed
      ((small.run 12 400 300).run (Script.ofList [1 / 4] : Script Rat)) =
        some (.randomSourceExhausted 1) := by
    decide +kernel
  obtain ⟨after, hrun⟩ := Engine.eq_of_failed hfailed
  refine ⟨Kind.mem_all, after, hrun, ?_⟩
  rcases (Engine.run_fails_geometrically small Kind.mem_all 400 300).1 12 _ after _ hrun with
    ⟨_, _, hgeometric⟩ | hfails
  · cases hgeometric
  · exact hfails

end Garden

end Parterre
