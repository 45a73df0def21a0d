/-
When a rule is refused, over the exact rationals.  A checked rule is followed to
one step, and only two kinds of steps may find too little room in a rectangle: an
embedding whose margins take up a side, and a strip that is as wide as the side it
is taken from.  Then the rectangle itself is reported; in every other case the
rule is applied and all rectangles that it gives are proper.
-/
import Parterre.Proofs.Fitting
import Parterre.Proofs.Draws

namespace Parterre

variable {κ α β σ : Type}

namespace Sampler

variable [DrawSource σ α]

theorem run_unit (source : σ) : (unit : Sampler α α).run source = DrawSource.next source := by
  rw [unit, run]
  rcases DrawSource.next source with ⟨failure | value, after⟩ <;> rfl

theorem run_lift (result : Except (LayoutError α) β) (source : σ) :
    (liftM result : Sampler α β).run source = (result, source) :=
  rfl

/-- A computation that cannot fail returns on a source that never fails. -/
theorem exists_run_of_sure {admits : α → Prop} {sampler : Sampler α β} {source : σ}
    (hsource : DrawSource.Supplies admits source)
    (hsure : ∀ failure, ¬ Outcome admits sampler (.error failure)) :
    ∃ value after, sampler.run source = (.ok value, after) := by
  rcases hrun : sampler.run source with ⟨failure | value, after⟩
  · rcases failure_of_run hsource.delivers hrun with houtcome | hfails
    · exact absurd houtcome (hsure failure)
    · exact absurd hfails (hsource.not_fails failure)
  · exact ⟨value, after, rfl⟩

end Sampler

section Follows

variable [Scalar α] [DrawSource σ α] {bounds : Rect α} {step : Step κ α} {source after : σ}

/-- A rule is followed to a step: a guard looks at the rectangle, and a weighted
choice looks at the next draw of the source. -/
inductive Rule.Follows (bounds : Rect α) : Rule κ α → σ → Step κ α → σ → Prop
  | always {step : Step κ α} {source : σ} : Follows bounds (.always step) source step source
  | branch {branches : List (α × Rule κ α)} {roll : α} {position : Nat} {branch : α × Rule κ α}
      {step : Step κ α} {source middle after : σ}
      (hroll : DrawSource.next source = (.ok roll, middle))
      (hselect : Weighted.select? roll (branches.map Prod.fst) = some position)
      (hbranch : branches[position]? = some branch)
      (hfollows : Follows bounds branch.2 middle step after) :
      Follows bounds (.weighted branches) source step after
  | bothExceed {minWidth minHeight : α} {large small : Rule κ α} {step : Step κ α}
      {source after : σ} (hexceed : minWidth < bounds.width ∧ minHeight < bounds.height)
      (hfollows : Follows bounds large source step after) :
      Follows bounds (.ifBothExceed minWidth minHeight large small) source step after
  | notBothExceed {minWidth minHeight : α} {large small : Rule κ α} {step : Step κ α}
      {source after : σ} (hexceed : ¬ (minWidth < bounds.width ∧ minHeight < bounds.height))
      (hfollows : Follows bounds small source step after) :
      Follows bounds (.ifBothExceed minWidth minHeight large small) source step after
  | eitherExceeds {threshold : α} {large small : Rule κ α} {step : Step κ α}
      {source after : σ} (hexceed : threshold < bounds.width ∨ threshold < bounds.height)
      (hfollows : Follows bounds large source step after) :
      Follows bounds (.ifEitherExceeds threshold large small) source step after
  | noneExceeds {threshold : α} {large small : Rule κ α} {step : Step κ α}
      {source after : σ} (hexceed : ¬ (threshold < bounds.width ∨ threshold < bounds.height))
      (hfollows : Follows bounds small source step after) :
      Follows bounds (.ifEitherExceeds threshold large small) source step after

/-- The branch at a position is followed. -/
theorem Rule.settleBranch_eq {branches : List (α × Rule κ α)} {position : Nat}
    {branch : α × Rule κ α} (h : branches[position]? = some branch) :
    Rule.settleBranch bounds branches position = branch.2.settle bounds := by
  induction branches generalizing position with
  | nil => cases h
  | cons first rest ih =>
      cases position with
      | zero =>
          cases h
          rfl
      | succ position => exact ih h

/-- A weighted choice goes on with the branch that the roll selects. -/
theorem Rule.run_settle_weighted {branches : List (α × Rule κ α)} {roll : α} {position : Nat}
    {branch : α × Rule κ α} (hroll : DrawSource.next source = (.ok roll, after))
    (hselect : Weighted.select? roll (branches.map Prod.fst) = some position)
    (hbranch : branches[position]? = some branch) :
    ((Rule.weighted branches).settle bounds).run source = (branch.2.settle bounds).run after := by
  simp only [Rule.settle, Sampler.run_bind, Sampler.run_unit, hroll, hselect,
    Rule.settleBranch_eq hbranch]

/-- What is followed is what a run settles on. -/
theorem Rule.Follows.run {rule : Rule κ α} (h : rule.Follows bounds source step after) :
    (rule.settle bounds).run source = (.ok step, after) := by
  induction h with
  | always => rfl
  | branch hroll hselect hbranch _ ih =>
      rw [Rule.run_settle_weighted hroll hselect hbranch, ih]
  | bothExceed hexceed _ ih | eitherExceeds hexceed _ ih =>
      rw [Rule.settle, if_pos hexceed, ih]
  | notBothExceed hexceed _ ih | noneExceeds hexceed _ ih =>
      rw [Rule.settle, if_neg hexceed, ih]

mutual

theorem Rule.follows_of_settle (rule : Rule κ α) {source after : σ}
    (h : (rule.settle bounds).run source = (.ok step, after)) :
    rule.Follows bounds source step after := by
  cases rule with
  | always given =>
      cases h
      exact .always
  | weighted branches =>
      rw [Rule.settle, Sampler.run_bind, Sampler.run_unit] at h
      rcases hroll : DrawSource.next source with ⟨failure | roll, middle⟩
      · rw [hroll] at h
        cases h
      · rw [hroll] at h
        cases hselect : Weighted.select? roll (branches.map Prod.fst) with
        | none => simp [hselect] at h
        | some position =>
            simp only [hselect] at h
            obtain ⟨branch, hbranch, hfollows⟩ := Rule.follows_of_settleBranch branches h
            exact .branch hroll hselect hbranch hfollows
  | ifBothExceed minWidth minHeight large small =>
      rw [Rule.settle] at h
      split_ifs at h with hexceed
      · exact .bothExceed hexceed (Rule.follows_of_settle large h)
      · exact .notBothExceed hexceed (Rule.follows_of_settle small h)
  | ifEitherExceeds threshold large small =>
      rw [Rule.settle] at h
      split_ifs at h with hexceed
      · exact .eitherExceeds hexceed (Rule.follows_of_settle large h)
      · exact .noneExceeds hexceed (Rule.follows_of_settle small h)

theorem Rule.follows_of_settleBranch (branches : List (α × Rule κ α)) {position : Nat}
    {source after : σ}
    (h : (Rule.settleBranch bounds branches position).run source = (.ok step, after)) :
    ∃ branch, branches[position]? = some branch ∧
      branch.2.Follows bounds source step after := by
  cases branches with
  | nil => cases h
  | cons branch rest =>
      obtain ⟨weight, rule⟩ := branch
      cases position with
      | zero => exact ⟨(weight, rule), rfl, Rule.follows_of_settle rule h⟩
      | succ position => exact Rule.follows_of_settleBranch rest h

end

theorem Rule.follows_iff {rule : Rule κ α} :
    rule.Follows bounds source step after ↔
      (rule.settle bounds).run source = (.ok step, after) :=
  ⟨Follows.run, follows_of_settle rule⟩

/-- Behind the step that it is followed to, a rule is that step. -/
theorem Rule.Follows.run_expand {rule : Rule κ α} (h : rule.Follows bounds source step after)
    (frame : κ) :
    (rule.expand bounds frame).run source = (step.expand bounds frame).run after := by
  rw [Rule.expand, Sampler.run_bind, h.run]

end Follows

/-- The rectangles of an expansion. -/
def Expansion.rects : Expansion κ α → List (Rect α)
  | .final => []
  | .tiled parts => parts.map Prod.snd
  | .embedded frame feature _ => [frame.2, feature.2]

section Proper

variable [Scalar α] {admits : α → Prop} {bounds rect : Rect α} {frame : κ} {step : Step κ α}
  {expansion : Expansion κ α}

/-- All rectangles that a step gives are proper. -/
theorem Step.Gives.proper (h : step.Gives admits bounds frame expansion) (hbounds : bounds.Proper)
    (hrect : rect ∈ expansion.rects) : rect.Proper := by
  cases h with
  | terminal => cases hrect
  | laid _ hparts =>
      obtain ⟨part, hpart, rfl⟩ := List.mem_map.mp hrect
      exact Cut.proper_of_parts hbounds hparts (List.of_mem_zip hpart).2
  | embed _ _ hinset =>
      simp only [Expansion.rects, List.mem_cons, List.not_mem_nil, or_false] at hrect
      rcases hrect with rfl | rfl
      · exact hbounds
      · exact (Rect.inset_eq_ok_iff.mp hinset).2.2

end Proper

section Refused

variable {bounds : Rect Rat}

/-- Margins that take up a side are refused. -/
theorem Expansion.ofEmbed_of_filled {frame feature : κ} {margin : Rat}
    (h : bounds.width ≤ 2 * margin ∨ bounds.height ≤ 2 * margin) :
    Expansion.ofEmbed bounds frame feature margin =
      .error (.invalidGeometry bounds (.embedLeavesNothing margin)) := by
  have hfilled : bounds.isFilledBy margin = true := by
    rwa [Rect.isFilledBy, Scalar.twice_eq, Bool.or_eq_true, decide_eq_true_iff,
      decide_eq_true_iff]
  rw [ofEmbed, if_pos (Or.inr hfilled)]
  rfl

/-- A strip that takes up the side is refused. -/
theorem Expansion.ofCut_of_filled {kinds : List κ} {direction : Axis} {width share : Rat}
    (h : bounds.extent direction ≤ width) :
    Expansion.ofCut bounds kinds (.corridor direction width share) =
      .error (.invalidGeometry bounds (.corridorLeavesNothing width)) := by
  rw [ofCut, Cut.parts, if_pos (sub_nonpos.mpr h)]
  rfl

end Refused

namespace Step

/-- The steps that need no room at all. -/
def AlwaysFits : Step κ α → Prop
  | .corridor .. | .embed .. => False
  | _ => True

variable [DrawSource σ Rat] {bounds : Rect Rat} {frame : κ} {step : Step κ Rat} {source : σ}
  {fault : RectFault Rat}

/-- What a step lacks room for: the margins of a feature, or a strip across the
direction that is drawn next. -/
inductive Lacks (bounds : Rect Rat) (source : σ) : Step κ Rat → RectFault Rat → Prop
  | embed {feature : κ} {margin : Rat}
      (hfilled : bounds.width ≤ 2 * margin ∨ bounds.height ≤ 2 * margin) :
      Lacks bounds source (.embed feature margin) (.embedLeavesNothing margin)
  | corridor {axis : Direction} {width : Rat} {ratio : ShareRange Rat} {first strip second : κ}
      {direction : Axis} {after : σ}
      (haxis : (axis.draw bounds).run source = (.ok direction, after))
      (hfilled : bounds.extent direction ≤ width) :
      Lacks bounds source (.corridor axis width ratio first strip second)
        (.corridorLeavesNothing width)

theorem AlwaysFits.not_lacks (h : step.AlwaysFits) : ¬ step.Lacks bounds source fault := by
  intro hlacks
  cases hlacks <;> exact h

/-- A strip is laid out in the direction and at the share that are drawn. -/
theorem run_expand_corridor {axis : Direction} {width share : Rat} {ratio : ShareRange Rat}
    {first strip second : κ} {direction : Axis} {middle after : σ}
    (haxis : (axis.draw bounds).run source = (.ok direction, middle))
    (hshare : ratio.draw.run middle = (.ok share, after)) :
    ((corridor axis width ratio first strip second).expand bounds frame).run source =
      (Expansion.ofCut bounds [first, strip, second] (.corridor direction width share),
        after) := by
  simp only [expand, Sampler.run_bind, haxis, hshare, Sampler.run_lift]

variable (hsource : DrawSource.Supplies InUnit source)

include hsource

/-- A step that lacks room reports the rectangle. -/
theorem Lacks.run_expand (h : step.Lacks bounds source fault) (frame : κ) :
    ((step.expand bounds frame).run source).1 = .error (.invalidGeometry bounds fault) := by
  cases h with
  | embed hfilled =>
      rw [expand, Sampler.run_lift]
      exact Expansion.ofEmbed_of_filled hfilled
  | corridor haxis hfilled =>
      obtain ⟨share, last, hshare⟩ := Sampler.exists_run_of_sure
        (Sampler.supplies_of_run hsource haxis) fun _ => ShareRange.not_outcome_draw_error
      rw [run_expand_corridor haxis hshare]
      exact Expansion.ofCut_of_filled hfilled

variable [DecidableEq κ] [RegionKind κ] {owner : κ}

theorem HasRoom.exists_run_expand (h : step.HasRoom bounds) (hcheck : step.check owner = .ok ())
    (hbounds : bounds.Proper) (frame : κ) :
    ∃ expansion after, (step.expand bounds frame).run source = (.ok expansion, after) :=
  Sampler.exists_run_of_sure hsource fun _ houtcome =>
    h.not_fails hcheck hbounds (fails_of_outcome hcheck houtcome)

/-- A checked step that lacks no room is applied.  Only a strip is judged by the
direction that is drawn, all other steps by the sides. -/
theorem exists_run_expand (hcheck : step.check owner = .ok ()) (hbounds : bounds.Proper)
    (h : ∀ fault, ¬ step.Lacks bounds source fault) :
    ∃ expansion after, (step.expand bounds frame).run source = (.ok expansion, after) := by
  cases step with
  | embed feature margin =>
      have hsides := mt Lacks.embed (h (.embedLeavesNothing margin))
      rw [not_or, not_le, not_le] at hsides
      refine HasRoom.exists_run_expand hsource (fun axis => ?_) hcheck hbounds frame
      cases axis with
      | vertical => exact hsides.1
      | horizontal => exact hsides.2
  | corridor axis width ratio first strip second =>
      have hdirected : ∀ failure, ¬ Sampler.Outcome InUnit (axis.draw bounds) (.error failure) :=
        fun _ => Direction.not_outcome_draw_error
      have hshared : ∀ failure, ¬ Sampler.Outcome InUnit ratio.draw (.error failure) :=
        fun _ => ShareRange.not_outcome_draw_error
      obtain ⟨direction, middle, haxis⟩ := Sampler.exists_run_of_sure hsource hdirected
      have hmiddle := Sampler.supplies_of_run hsource haxis
      obtain ⟨share, after, hshare⟩ := Sampler.exists_run_of_sure hmiddle hshared
      obtain ⟨hpos, hone⟩ := ShareRange.pos_and_lt_one_of_draw
        (isValid_of_check hcheck List.mem_cons_self)
        (Sampler.outcome_of_run hmiddle.delivers hshare).1
      have hroom := not_le.mp (mt (Lacks.corridor haxis) (h (.corridorLeavesNothing width)))
      obtain ⟨rects, hparts⟩ :=
        Cut.exists_parts_corridor hbounds (width_pos_of_check hcheck) hroom hpos hone
      refine ⟨.tiled ([first, strip, second].zip rects), after, ?_⟩
      rw [run_expand_corridor haxis hshare,
        Expansion.ofCut_eq_ok_iff.mpr ⟨rects, hparts, rfl⟩]
  | _ =>
      refine HasRoom.exists_run_expand hsource ?_ hcheck hbounds frame
      trivial

end Step

variable [DecidableEq κ] [RegionKind κ] [DrawSource σ Rat] {owner frame : κ}
  {given bounds : Rect Rat} {rule : Rule κ Rat} {source : σ}

/-- A checked rule on a checked rectangle is followed to one step.  It is refused
exactly if that step lacks room, with the rectangle in the failure, and otherwise
gives rectangles with positive sides.  The steps that need no room are never
refused. -/
theorem Rule.refused_iff_lacks (hcheck : rule.check owner = .ok ())
    (hbounds : given.checked = .ok bounds) (hsource : DrawSource.Supplies InUnit source) :
    (∃ step middle, rule.Follows bounds source step middle) ∧
      ∀ step middle, rule.Follows bounds source step middle →
        (∀ failure, ((rule.expand bounds frame).run source).1 = .error failure ↔
          ∃ fault, step.Lacks bounds middle fault ∧
            failure = .invalidGeometry bounds fault) ∧
        ((∀ fault, ¬ step.Lacks bounds middle fault) →
          ∃ expansion, ((rule.expand bounds frame).run source).1 = .ok expansion ∧
            ∀ rect ∈ expansion.rects, 0 < rect.width ∧ 0 < rect.height) ∧
        (step.AlwaysFits →
          ∃ expansion, ((rule.expand bounds frame).run source).1 = .ok expansion) := by
  obtain ⟨rfl, hproper⟩ := Rect.checked_eq_ok_iff.mp hbounds
  constructor
  · have hsure : ∀ failure, ¬ Sampler.Outcome InUnit (rule.settle bounds) (.error failure) :=
      fun _ => rule.not_outcome_settle_error hcheck
    obtain ⟨step, middle, hsettle⟩ := Sampler.exists_run_of_sure hsource hsure
    exact ⟨step, middle, follows_iff.mpr hsettle⟩
  · intro step middle hfollows
    have hmiddle := Sampler.supplies_of_run hsource hfollows.run
    have hstep := rule.check_of_mem_steps hcheck
      (rule.mem_steps_of_settle (Sampler.outcome_of_run hsource.delivers hfollows.run).1)
    have happlied : (∀ fault, ¬ step.Lacks bounds middle fault) →
        ∃ expansion after, (step.expand bounds frame).run middle = (.ok expansion, after) :=
      Step.exists_run_expand hmiddle hstep hproper
    rw [hfollows.run_expand]
    refine ⟨fun failure => ⟨fun hfailed => ?_, ?_⟩, fun hroom => ?_, fun hfits => ?_⟩
    · by_cases hlacks : ∃ fault, step.Lacks bounds middle fault
      · obtain ⟨fault, hlacks⟩ := hlacks
        rw [hlacks.run_expand hmiddle, Except.error.injEq] at hfailed
        exact ⟨fault, hlacks, hfailed.symm⟩
      · obtain ⟨expansion, after, hrun⟩ := happlied (not_exists.mp hlacks)
        rw [hrun] at hfailed
        cases hfailed
    · rintro ⟨fault, hlacks, rfl⟩
      exact hlacks.run_expand hmiddle frame
    · obtain ⟨expansion, after, hrun⟩ := happlied hroom
      refine ⟨expansion, by rw [hrun], fun rect hrect => ?_⟩
      have hgives := Step.gives_of_outcome (Sampler.outcome_of_run hmiddle.delivers hrun).1
      have hside := (hgives.proper hproper hrect).extent_pos
      exact ⟨hside .vertical, hside .horizontal⟩
    · obtain ⟨expansion, after, hrun⟩ := happlied fun _ => hfits.not_lacks
      exact ⟨expansion, by rw [hrun]⟩

namespace Garden

/-- A pond or a path in a large rectangle. -/
def pondOrPath : Rule Kind Rat :=
  .ifEitherExceeds 50
    (.weighted
      [(1 / 2, .always (.embed .pond 20)),
        (1 / 2, .always (.corridor .longer 30 .corridor .zone .path .zone))])
    (.always .terminal)

/-- The rectangle is too low for the pond and wide enough for the path. -/
theorem pondOrPath_refused :
    pondOrPath.check .zone = .ok () ∧
      (⟨5, 5, 60, 40⟩ : Rect Rat).checked = .ok ⟨5, 5, 60, 40⟩ ∧
      ((pondOrPath.expand ⟨5, 5, 60, 40⟩ .grass).run (⟨1 / 4⟩ : Steady Rat)).1 =
        .error (.invalidGeometry ⟨5, 5, 60, 40⟩ (.embedLeavesNothing 20)) ∧
      ∃ expansion, ((pondOrPath.expand ⟨5, 5, 60, 40⟩ .grass).run (⟨3 / 4⟩ : Steady Rat)).1 =
          .ok expansion ∧
        ∀ rect ∈ expansion.rects, 0 < rect.width ∧ 0 < rect.height := by
  have hcheck : pondOrPath.check .zone = .ok () := by decide +kernel
  have hbounds : (⟨5, 5, 60, 40⟩ : Rect Rat).checked = .ok ⟨5, 5, 60, 40⟩ := by decide +kernel
  have hlow : DrawSource.Supplies InUnit (⟨1 / 4⟩ : Steady Rat) :=
    Steady.supplies ⟨by norm_num, by norm_num⟩
  have hhigh : DrawSource.Supplies InUnit (⟨3 / 4⟩ : Steady Rat) :=
    Steady.supplies ⟨by norm_num, by norm_num⟩
  have hfirst : Weighted.select? (1 / 4 : Rat) [1 / 2, 1 / 2] = some 0 := by decide +kernel
  have hsecond : Weighted.select? (3 / 4 : Rat) [1 / 2, 1 / 2] = some 1 := by decide +kernel
  have hpond : pondOrPath.Follows ⟨5, 5, 60, 40⟩ (⟨1 / 4⟩ : Steady Rat) (.embed .pond 20)
      ⟨1 / 4⟩ :=
    .eitherExceeds (Or.inl (by decide +kernel)) (.branch rfl hfirst rfl .always)
  have hpath : pondOrPath.Follows ⟨5, 5, 60, 40⟩ (⟨3 / 4⟩ : Steady Rat)
      (.corridor .longer 30 .corridor .zone .path .zone) ⟨3 / 4⟩ :=
    .eitherExceeds (Or.inl (by decide +kernel)) (.branch rfl hsecond rfl .always)
  have hlacks : (Step.embed Kind.pond 20).Lacks ⟨5, 5, 60, 40⟩ (⟨1 / 4⟩ : Steady Rat)
      (.embedLeavesNothing 20) :=
    .embed (Or.inr (by norm_num))
  have hroom : ∀ fault, ¬ (Step.corridor .longer 30 .corridor Kind.zone .path .zone).Lacks
      ⟨5, 5, 60, 40⟩ (⟨3 / 4⟩ : Steady Rat) fault := by
    rintro _ (_ | ⟨haxis, hfilled⟩)
    cases haxis
    revert hfilled
    decide +kernel
  exact ⟨hcheck, hbounds,
    (((Rule.refused_iff_lacks hcheck hbounds hlow).2 _ _ hpond).1 _).mpr ⟨_, hlacks, rfl⟩,
    ((Rule.refused_iff_lacks hcheck hbounds hhigh).2 _ _ hpath).2.1 hroom⟩

end Garden

end Parterre
