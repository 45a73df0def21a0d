/-
What an expansion can be.  Every rectangle of a layout passed the rectangle
check, every tiling consists of the parts of one cut, one kind for each part,
and every embedded feature is its region without the margin.
-/
import Mathlib.Data.List.Perm.Basic
import Parterre.Engine.Run
import Parterre.Proofs.Outcome

namespace Parterre

variable {κ α β γ ε : Type}

/-- A sequence gives a value exactly if its first part gives one that its
second part accepts. -/
theorem bind_eq_ok_iff {first : Except ε β} {next : β → Except ε γ} {value : γ} :
    first >>= next = .ok value ↔
      ∃ middle, first = .ok middle ∧ next middle = .ok value := by
  cases first with
  | error failure => simp [bind, Except.bind]
  | ok middle => simp [bind, Except.bind]

/-- The number of parts of a cut. -/
def Cut.arity : Cut α → Nat
  | .whole => 1
  | .across .. => 2
  | .quarters => 4
  | .corridor .. => 3

theorem Cut.arity_pos (cut : Cut α) : 0 < cut.arity := by
  cases cut <;> simp [arity]

variable [Scalar α]

namespace Rect

/-- Finite coordinates and sides that are not below or at zero. -/
def Proper (bounds : Rect α) : Prop :=
  bounds.isFinite = true ∧ ¬ bounds.width ≤ 0 ∧ ¬ bounds.height ≤ 0

theorem checked_eq_ok_iff {bounds rect : Rect α} :
    bounds.checked = .ok rect ↔ rect = bounds ∧ bounds.Proper := by
  unfold checked Proper
  by_cases hfinite : bounds.isFinite = true
  · by_cases hpositive : bounds.width ≤ 0 ∨ bounds.height ≤ 0
    · simp only [hfinite, hpositive, Bool.not_true, Bool.false_eq_true, if_false,
        if_true, throw, throwThe, MonadExceptOf.throw, reduceCtorEq, false_iff]
      exact fun h => hpositive.elim h.2.2.1 h.2.2.2
    · simp only [hfinite, hpositive, Bool.not_true, Bool.false_eq_true, if_false,
        pure, Except.pure, Except.ok.injEq, true_and]
      rw [not_or] at hpositive
      exact ⟨fun h => ⟨h.symm, hpositive⟩, fun h => h.1.symm⟩
  · simp [hfinite, throw, throwThe, MonadExceptOf.throw]

theorem mapM_checked_eq_ok_iff {outlines rects : List (Rect α)} :
    outlines.mapM checked = .ok rects ↔
      rects = outlines ∧ ∀ rect ∈ outlines, rect.Proper := by
  induction outlines generalizing rects with
  | nil =>
      simp only [List.mapM_nil, pure, Except.pure, Except.ok.injEq]
      exact ⟨fun h => ⟨h.symm, by simp⟩, fun h => h.1.symm⟩
  | cons outline rest ih =>
      simp only [List.mapM_cons, bind_eq_ok_iff, checked_eq_ok_iff, ih, pure,
        Except.pure, Except.ok.injEq, List.forall_mem_cons]
      constructor
      · rintro ⟨_, ⟨rfl, hfirst⟩, _, ⟨rfl, hrest⟩, rfl⟩
        exact ⟨rfl, hfirst, hrest⟩
      · rintro ⟨rfl, hfirst, hrest⟩
        exact ⟨_, ⟨rfl, hfirst⟩, _, ⟨rfl, hrest⟩, rfl⟩

/-- What is inside a margin that is not negative and does not fill the rectangle. -/
theorem inset_eq_ok_iff {bounds inner : Rect α} {margin : α} :
    bounds.inset margin = .ok inner ↔
      (0 ≤ margin ∧ bounds.isFilledBy margin = false) ∧
        inner = ⟨bounds.x + margin, bounds.y + margin,
          bounds.width - Scalar.twice margin, bounds.height - Scalar.twice margin⟩ ∧
        inner.Proper := by
  unfold inset
  split_ifs with hmargin hfilled
  · simp [hfilled]
  · rw [Bool.not_eq_true] at hfilled
    simp only [checked_eq_ok_iff, hmargin, hfilled, and_self, true_and]
    exact and_congr_right fun heq => by rw [heq]
  · simp [hmargin]

end Rect

namespace Cut

@[simp]
theorem length_outline (bounds : Rect α) (cut : Cut α) :
    (cut.outline bounds).length = cut.arity := by
  cases cut <;> rfl

/-- The parts of a cut are its outline, and those of a dividing cut are
proper. -/
theorem eq_outline_of_parts {bounds : Rect α} {cut : Cut α}
    {rects : List (Rect α)} (h : cut.parts bounds = .ok rects) :
    rects = cut.outline bounds ∧
      (cut = .whole ∨ ∀ rect ∈ rects, rect.Proper) := by
  cases cut with
  | whole =>
      simp only [parts, pure, Except.pure, Except.ok.injEq] at h
      exact ⟨h.symm, Or.inl rfl⟩
  | across axis share =>
      obtain ⟨rfl, hproper⟩ := Rect.mapM_checked_eq_ok_iff.mp h
      exact ⟨rfl, Or.inr hproper⟩
  | quarters =>
      obtain ⟨rfl, hproper⟩ := Rect.mapM_checked_eq_ok_iff.mp h
      exact ⟨rfl, Or.inr hproper⟩
  | corridor axis width share =>
      simp only [parts] at h
      split at h
      · cases h
      · obtain ⟨rfl, hproper⟩ := Rect.mapM_checked_eq_ok_iff.mp h
        exact ⟨rfl, Or.inr hproper⟩

theorem length_of_parts {bounds : Rect α} {cut : Cut α} {rects : List (Rect α)}
    (h : cut.parts bounds = .ok rects) : rects.length = cut.arity := by
  rw [(eq_outline_of_parts h).1, length_outline]

/-- The parts of a proper rectangle are proper. -/
theorem proper_of_parts {bounds rect : Rect α} {cut : Cut α}
    {rects : List (Rect α)} (hbounds : bounds.Proper)
    (h : cut.parts bounds = .ok rects) (hrect : rect ∈ rects) : rect.Proper := by
  obtain ⟨rfl, rfl | hproper⟩ := eq_outline_of_parts h
  · simp only [outline, List.mem_singleton] at hrect
    exact hrect ▸ hbounds
  · exact hproper rect hrect

end Cut

namespace Sampler

variable {admits : α → Prop}

/-- Drawing without replacement splits the pool, and takes as many elements as
asked if there are enough. -/
theorem withoutReplacement_perm {count : Nat} {pool chosen rest : List κ}
    (h : Outcome admits (withoutReplacement count pool) (.ok (chosen, rest)))
    (hcount : count ≤ pool.length) :
    (chosen ++ rest).Perm pool ∧ chosen.length = count := by
  induction count generalizing pool chosen rest with
  | zero =>
      simp only [withoutReplacement, outcome_pure_iff, Except.ok.injEq,
        Prod.mk.injEq] at h
      obtain ⟨rfl, rfl⟩ := h
      simp
  | succ count ih =>
      simp only [withoutReplacement, index, bind_assoc, pure_bind,
        outcome_bind_ok_iff, outcome_pure_iff, Except.ok.injEq,
        Prod.mk.injEq] at h
      obtain ⟨value, _, ⟨later, left⟩, hlater, rfl, rfl⟩ := h
      have hslot : slot pool.length value < pool.length := by
        unfold slot
        omega
      have hlength : count ≤ (pool.eraseIdx (slot pool.length value)).length := by
        rw [List.length_eraseIdx_of_lt hslot]
        omega
      obtain ⟨hperm, rfl⟩ := ih hlater hlength
      rw [List.getElem?_eq_getElem hslot, Option.toList_some,
        List.singleton_append]
      exact ⟨(hperm.cons _).trans (List.getElem_cons_eraseIdx_perm hslot), rfl⟩

end Sampler

section Draws

variable {admits : α → Prop} {bounds : Rect α} {failure : LayoutError α}

@[simp]
theorem Direction.not_outcome_draw_error {axis : Direction} :
    ¬ Sampler.Outcome admits (axis.draw bounds) (.error failure) := by
  cases axis <;> simp [draw, Sampler.chance]

@[simp]
theorem ShareRange.not_outcome_draw_error {range : ShareRange α} :
    ¬ Sampler.Outcome admits range.draw (.error failure) := by
  simp [draw, Sampler.range]

@[simp]
theorem Cut.not_outcome_drawAcross_error {axis : Direction} {ratio : ShareRange α} :
    ¬ Sampler.Outcome admits (Cut.drawAcross bounds axis ratio) (.error failure) := by
  simp [drawAcross, Sampler.outcome_bind_error_iff]

@[simp]
theorem PaletteCut.not_outcome_draw_error {cut : PaletteCut α} :
    ¬ Sampler.Outcome admits (cut.draw bounds) (.error failure) := by
  cases cut <;> simp [draw]

@[simp]
theorem Sampler.not_outcome_withoutReplacement_error {count : Nat} {pool : List κ} :
    ¬ Outcome admits (withoutReplacement count pool) (.error failure) := by
  induction count generalizing pool with
  | zero => simp [withoutReplacement]
  | succ count ih => simp [withoutReplacement, index, outcome_bind_error_iff, ih]

end Draws

/-- The kinds and the cut that a step may lay a region out with. -/
inductive Step.Lays (admits : α → Prop) (bounds : Rect α) :
    Step κ α → List κ → Cut α → Prop
  | fill (kind : κ) : Lays admits bounds (.fill kind) [kind] .whole
  | bisect {axis : Direction} {ratio : ShareRange α} {first second : κ}
      {direction : Axis} {share : α}
      (haxis : Sampler.Outcome admits (axis.draw bounds) (.ok direction))
      (hshare : Sampler.Outcome admits ratio.draw (.ok share)) :
      Lays admits bounds (.bisect axis ratio first second) [first, second]
        (.across direction share)
  | quarter (topLeft topRight bottomLeft bottomRight : κ) :
      Lays admits bounds (.quarter topLeft topRight bottomLeft bottomRight)
        [topLeft, topRight, bottomLeft, bottomRight] .quarters
  | corridor {axis : Direction} {width : α} {ratio : ShareRange α}
      {first strip second : κ} {direction : Axis} {share : α}
      (haxis : Sampler.Outcome admits (axis.draw bounds) (.ok direction))
      (hshare : Sampler.Outcome admits ratio.draw (.ok share)) :
      Lays admits bounds (.corridor axis width ratio first strip second)
        [first, strip, second] (.corridor direction width share)
  | mixTwo {candidates chosen rest : List κ} {axis : Direction}
      {ratio : ShareRange α} {direction : Axis} {share : α}
      (hperm : (chosen ++ rest).Perm candidates) (hlength : chosen.length = 2)
      (haxis : Sampler.Outcome admits (axis.draw bounds) (.ok direction))
      (hshare : Sampler.Outcome admits ratio.draw (.ok share)) :
      Lays admits bounds (.mix candidates (.two axis ratio)) chosen
        (.across direction share)
  | mixFour {candidates chosen rest : List κ}
      (hperm : (chosen ++ rest).Perm candidates) (hlength : chosen.length = 4) :
      Lays admits bounds (.mix candidates .four) chosen .quarters

variable {admits : α → Prop}

/-- There is one kind for each part. -/
theorem Step.Lays.length_kinds {bounds : Rect α} {step : Step κ α}
    {kinds : List κ} {cut : Cut α} (h : step.Lays admits bounds kinds cut) :
    kinds.length = cut.arity := by
  cases h with
  | mixTwo _ hlength => exact hlength
  | mixFour _ hlength => exact hlength
  | _ => rfl

theorem Expansion.ofCut_eq_ok_iff {bounds : Rect α} {kinds : List κ}
    {cut : Cut α} {expansion : Expansion κ α} :
    Expansion.ofCut bounds kinds cut = .ok expansion ↔
      ∃ rects, cut.parts bounds = .ok rects ∧
        expansion = .tiled (kinds.zip rects) := by
  simp only [Expansion.ofCut, bind_eq_ok_iff, pure, Except.pure, Except.ok.injEq]
  exact exists_congr fun _ => and_congr_right fun _ => eq_comm

theorem Expansion.ofEmbed_eq_ok_iff {bounds : Rect α} {frame feature : κ}
    {margin : α} {expansion : Expansion κ α} :
    Expansion.ofEmbed bounds frame feature margin = .ok expansion ↔
      (0 ≤ margin ∧ bounds.isFilledBy margin = false) ∧
        ∃ inner, bounds.inset margin = .ok inner ∧
          expansion = .embedded (frame, bounds) (feature, inner) margin := by
  unfold Expansion.ofEmbed
  split
  · rename_i hfault
    simp only [throw, throwThe, MonadExceptOf.throw, reduceCtorEq, false_iff]
    rintro ⟨⟨hmargin, hroom⟩, _⟩
    rcases hfault with hnegative | hfilled
    · exact hnegative hmargin
    · rw [hroom] at hfilled
      cases hfilled
  · rename_i hgood
    rw [not_or, Decidable.not_not, Bool.not_eq_true] at hgood
    simp only [bind_eq_ok_iff, pure, Except.pure, Except.ok.injEq, hgood, true_and]
    exact exists_congr fun _ => and_congr_right fun _ => eq_comm

theorem Cut.outcome_drawAcross {bounds : Rect α} {axis : Direction}
    {ratio : ShareRange α} {cut : Cut α}
    (h : Sampler.Outcome admits (Cut.drawAcross bounds axis ratio) (.ok cut)) :
    ∃ direction share, Sampler.Outcome admits (axis.draw bounds) (.ok direction) ∧
      Sampler.Outcome admits ratio.draw (.ok share) ∧
        cut = .across direction share := by
  simp only [Cut.drawAcross, Sampler.outcome_bind_ok_iff,
    Sampler.outcome_pure_iff, Except.ok.injEq] at h
  obtain ⟨direction, haxis, share, hshare, rfl⟩ := h
  exact ⟨direction, share, haxis, hshare, rfl⟩

/-- A step leaves the region alone, lays kinds out by a cut, or embeds a
feature. -/
inductive Step.Gives (admits : α → Prop) (bounds : Rect α) (frame : κ) :
    Step κ α → Expansion κ α → Prop
  | terminal : Gives admits bounds frame .terminal .final
  | laid {step : Step κ α} {kinds : List κ} {cut : Cut α} {rects : List (Rect α)}
      (hlays : step.Lays admits bounds kinds cut)
      (hparts : cut.parts bounds = .ok rects) :
      Gives admits bounds frame step (.tiled (kinds.zip rects))
  | embed {feature : κ} {margin : α} {inner : Rect α} (hmargin : 0 ≤ margin)
      (hroom : bounds.isFilledBy margin = false)
      (hinset : bounds.inset margin = .ok inner) :
      Gives admits bounds frame (.embed feature margin)
        (.embedded (frame, bounds) (feature, inner) margin)

/-- What the application of a step comes to. -/
inductive Step.Comes (admits : α → Prop) (bounds : Rect α) (frame : κ) :
    Step κ α → Except (LayoutError α) (Expansion κ α) → Prop
  | terminal : Comes admits bounds frame .terminal (.ok .final)
  | laid {step : Step κ α} {kinds : List κ} {cut : Cut α}
      {result : Except (LayoutError α) (Expansion κ α)}
      (hlays : step.Lays admits bounds kinds cut)
      (hresult : result = Expansion.ofCut bounds kinds cut) :
      Comes admits bounds frame step result
  /-- There are fewer candidates than parts. -/
  | short {candidates : List κ} {cut : PaletteCut α}
      (hshort : candidates.length < cut.arity) :
      Comes admits bounds frame (.mix candidates cut)
        (.error (.invalidRule "ChooseSubset" (.tooFewCandidates candidates.length cut.arity)))
  | embed {feature : κ} {margin : α} {result : Except (LayoutError α) (Expansion κ α)}
      (hresult : result = Expansion.ofEmbed bounds frame feature margin) :
      Comes admits bounds frame (.embed feature margin) result

theorem Step.comes_of_outcome {bounds : Rect α} {frame : κ} {step : Step κ α}
    {result : Except (LayoutError α) (Expansion κ α)}
    (h : Sampler.Outcome admits (step.expand bounds frame) result) :
    step.Comes admits bounds frame result := by
  cases step with
  | terminal =>
      obtain rfl := Sampler.outcome_pure_iff.mp h
      exact .terminal
  | fill kind => exact .laid (.fill kind) (Sampler.outcome_lift_iff.mp h)
  | bisect axis ratio first second =>
      obtain ⟨cut, hcut, hlaid⟩ :=
        h.bind_of_sure fun _ => Cut.not_outcome_drawAcross_error
      obtain ⟨direction, share, haxis, hshare, rfl⟩ := Cut.outcome_drawAcross hcut
      exact .laid (.bisect haxis hshare) (Sampler.outcome_lift_iff.mp hlaid)
  | quarter topLeft topRight bottomLeft bottomRight =>
      exact .laid (.quarter ..) (Sampler.outcome_lift_iff.mp h)
  | corridor axis width ratio first strip second =>
      obtain ⟨direction, haxis, h⟩ :=
        h.bind_of_sure fun _ => Direction.not_outcome_draw_error
      obtain ⟨share, hshare, hlaid⟩ :=
        h.bind_of_sure fun _ => ShareRange.not_outcome_draw_error
      exact .laid (.corridor haxis hshare) (Sampler.outcome_lift_iff.mp hlaid)
  | mix candidates cut =>
      rw [expand] at h
      split at h
      · rename_i hshort
        obtain rfl := Sampler.outcome_throw_iff.mp h
        exact .short hshort
      · rename_i henough
        obtain ⟨⟨chosen, rest⟩, hchosen, h⟩ :=
          h.bind_of_sure fun _ => Sampler.not_outcome_withoutReplacement_error
        obtain ⟨drawn, hdrawn, hlaid⟩ :=
          h.bind_of_sure fun _ => PaletteCut.not_outcome_draw_error
        obtain ⟨hperm, hlength⟩ :=
          Sampler.withoutReplacement_perm hchosen (Nat.le_of_not_lt henough)
        have hresult := Sampler.outcome_lift_iff.mp hlaid
        cases cut with
        | two axis ratio =>
            obtain ⟨direction, share, haxis, hshare, rfl⟩ :=
              Cut.outcome_drawAcross hdrawn
            exact .laid (.mixTwo hperm hlength haxis hshare) hresult
        | four =>
            cases Sampler.outcome_pure_iff.mp hdrawn
            exact .laid (.mixFour hperm hlength) hresult
  | embed feature margin => exact .embed (Sampler.outcome_lift_iff.mp h)

theorem Step.gives_of_outcome {bounds : Rect α} {frame : κ} {step : Step κ α}
    {expansion : Expansion κ α}
    (h : Sampler.Outcome admits (step.expand bounds frame) (.ok expansion)) :
    step.Gives admits bounds frame expansion := by
  cases comes_of_outcome h with
  | terminal => exact .terminal
  | laid hlays hresult =>
      obtain ⟨rects, hparts, rfl⟩ := Expansion.ofCut_eq_ok_iff.mp hresult.symm
      exact .laid hlays hparts
  | embed hresult =>
      obtain ⟨⟨hmargin, hroom⟩, inner, hinset, rfl⟩ :=
        Expansion.ofEmbed_eq_ok_iff.mp hresult.symm
      exact .embed hmargin hroom hinset

end Parterre
