/-
Layouts never fail.  Over the exact rationals a step is only refused by a region
that is too small for its strip or its margins.  The conditions on the
configurations of the layouts exclude that for every region that is not stopped,
so a run with a source of draws that does not fail returns a layout.
-/
import Parterre.Proofs.DepthBound
import Parterre.Proofs.GeometryOnly
import Parterre.Proofs.Plans
import Parterre.Proofs.PointSets

namespace Parterre

namespace Rect

variable {bounds : Rect Rat}

theorem proper_slice (h : bounds.Proper) {axis : Axis} {start length : Rat}
    (hlength : 0 < length) : (bounds.slice axis start length).Proper := by
  rw [proper_iff] at h ⊢
  intro other
  by_cases heq : other = axis
  · subst heq
    rwa [extent_slice]
  · rw [extent_slice_of_ne bounds heq]
    exact h other

/-- Consecutive slices of positive lengths are proper. -/
theorem proper_of_mem_slices (h : bounds.Proper) {axis : Axis} {start : Rat}
    {lengths : List Rat} (hlengths : ∀ length ∈ lengths, 0 < length) {rect : Rect Rat}
    (hrect : rect ∈ bounds.slices axis start lengths) : rect.Proper := by
  induction lengths generalizing start with
  | nil => cases hrect
  | cons length rest ih =>
      obtain ⟨hlength, hrest⟩ := List.forall_mem_cons.mp hlengths
      rcases List.mem_cons.mp hrect with rfl | hrect
      · exact proper_slice h hlength
      · exact ih hrest hrect

theorem exists_inset {margin : Rat} (hmargin : 0 ≤ margin)
    (hroom : ∀ axis, 2 * margin < bounds.extent axis) :
    bounds.isFilledBy margin = false ∧ ∃ inner, bounds.inset margin = .ok inner :=
  ⟨isFilledBy_eq_false_iff.mpr hroom, _, inset_eq_ok_iff_room.mpr ⟨hmargin, hroom, rfl⟩⟩

end Rect

namespace Cut

variable {bounds : Rect Rat} {axis : Axis} {share : Rat}

theorem exists_parts_across (h : bounds.Proper) (hpos : 0 < share) (hone : share < 1) :
    ∃ rects, (across axis share).parts bounds = .ok rects := by
  have hside := h.extent_pos axis
  refine ⟨_, Rect.mapM_checked_eq_ok_iff.mpr ⟨rfl, fun rect hrect => ?_⟩⟩
  rw [outline_across] at hrect
  refine Rect.proper_of_mem_slices h ?_ hrect
  simp only [List.forall_mem_cons, List.not_mem_nil, false_implies, implies_true, and_true]
  exact ⟨mul_pos hside hpos, sub_pos.mpr (mul_lt_of_lt_one_right hside hone)⟩

theorem exists_parts_quarters (h : bounds.Proper) :
    ∃ rects, quarters.parts bounds = .ok rects := by
  have hhalves : ∀ side : Rat, 0 < side →
      ∀ length ∈ [Scalar.half side, side - Scalar.half side], 0 < length := by
    intro side hside
    simp only [List.forall_mem_cons, List.not_mem_nil, false_implies, implies_true, and_true,
      Scalar.half_eq]
    exact ⟨half_pos hside, by linarith⟩
  refine ⟨_, Rect.mapM_checked_eq_ok_iff.mpr ⟨rfl, fun rect hrect => ?_⟩⟩
  rw [outline_quarters] at hrect
  obtain ⟨row, hrow, hrect⟩ := List.mem_flatMap.mp hrect
  have hwidth : row.extent .vertical = bounds.width := by
    simp only [Rect.slices, List.mem_cons, List.not_mem_nil, or_false] at hrow
    rcases hrow with rfl | rfl <;> rfl
  have hproper := Rect.proper_of_mem_slices h (hhalves _ (h.extent_pos .horizontal)) hrow
  exact Rect.proper_of_mem_slices hproper (hhalves _ (h.extent_pos .vertical)) hrect

theorem exists_parts_corridor {width : Rat} (h : bounds.Proper) (hwidth : 0 < width)
    (hroom : width < bounds.extent axis) (hpos : 0 < share) (hone : share < 1) :
    ∃ rects, (corridor axis width share).parts bounds = .ok rects := by
  have hleft : 0 < bounds.extent axis - width := sub_pos.mpr hroom
  rw [parts, if_neg (not_le.mpr hleft)]
  refine ⟨_, Rect.mapM_checked_eq_ok_iff.mpr ⟨rfl, fun rect hrect => ?_⟩⟩
  rw [outline_corridor] at hrect
  refine Rect.proper_of_mem_slices h ?_ hrect
  simp only [List.forall_mem_cons, List.not_mem_nil, false_implies, implies_true, and_true]
  exact ⟨mul_pos hleft hpos, hwidth, sub_pos.mpr (mul_lt_of_lt_one_right hleft hone)⟩

end Cut

variable {κ : Type}

/-- A strip is narrower than both sides, and a margin fits twice in both sides
with room left. -/
def Step.HasRoom (bounds : Rect Rat) : Step κ Rat → Prop
  | .corridor _ width _ _ _ _ => ∀ axis, width < bounds.extent axis
  | .embed _ margin => ∀ axis, 2 * margin < bounds.extent axis
  | _ => True

variable [DecidableEq κ] [RegionKind κ]

/-- The cut that a checked step with room lays is not refused. -/
theorem Step.Lays.exists_parts {owner : κ} {step : Step κ Rat} {bounds : Rect Rat}
    {kinds : List κ} {cut : Cut Rat} (h : step.Lays InUnit bounds kinds cut)
    (hroom : step.HasRoom bounds) (hcheck : step.check owner = .ok ())
    (hbounds : bounds.Proper) : ∃ rects, cut.parts bounds = .ok rects := by
  have hshares : ∀ range ∈ step.ranges, ∀ share,
      Sampler.Outcome InUnit range.draw (.ok share) → 0 < share ∧ share < 1 :=
    fun range hrange share hdraw =>
      ShareRange.pos_and_lt_one_of_draw (Step.isValid_of_check hcheck hrange) hdraw
  cases h with
  | fill kind => exact ⟨[bounds], rfl⟩
  | bisect _ hshare =>
      obtain ⟨hpos, hone⟩ := hshares _ List.mem_cons_self _ hshare
      exact Cut.exists_parts_across hbounds hpos hone
  | mixTwo _ _ _ hshare =>
      obtain ⟨hpos, hone⟩ := hshares _ List.mem_cons_self _ hshare
      exact Cut.exists_parts_across hbounds hpos hone
  | quarter | mixFour => exact Cut.exists_parts_quarters hbounds
  | corridor _ hshare =>
      obtain ⟨hpos, hone⟩ := hshares _ List.mem_cons_self _ hshare
      exact Cut.exists_parts_corridor hbounds (Step.width_pos_of_check hcheck) (hroom _)
        hpos hone

/-- A checked step that has room is never refused. -/
theorem Step.HasRoom.not_fails {owner : κ} {step : Step κ Rat} {bounds : Rect Rat} {frame : κ}
    {failure : LayoutError Rat} (h : step.HasRoom bounds) (hcheck : step.check owner = .ok ())
    (hbounds : bounds.Proper) : ¬ step.Fails InUnit bounds frame failure := by
  intro hfails
  cases hfails with
  | laid hlays hparts =>
      obtain ⟨rects, hrects⟩ := hlays.exists_parts h hcheck hbounds
      rw [hrects] at hparts
      cases hparts
  | @embed feature margin _ hembed =>
      have hmargin := Step.margin_of_check hcheck
      obtain ⟨hfree, inner, hinner⟩ := Rect.exists_inset hmargin h
      have hgood : Expansion.ofEmbed bounds frame feature margin =
          .ok (.embedded (frame, bounds) (feature, inner) margin) :=
        Expansion.ofEmbed_eq_ok_iff.mpr ⟨⟨hmargin, hfree⟩, inner, hinner, rfl⟩
      rw [hgood] at hembed
      cases hembed

namespace Engine

/-- Every step that a region of sufficient size arrives at has room. -/
def HasRoom (engine : Engine κ Rat) : Prop :=
  ∀ kind rule step bounds, bounds.Proper → engine.settings.isUndersized bounds = false →
    engine.table.rule? kind = some rule →
    Sampler.Outcome InUnit (rule.settle bounds) (.ok step) → step.HasRoom bounds

/-- All steps have room, and a run on a proper area with draws in the unit interval
is never refused anything and returns a layout. -/
structure Succeeds (engine : Engine κ Rat) : Prop where
  room : engine.HasRoom
  returns : ∀ (σ : Type) [DrawSource σ Rat] (source : σ) (width height : Rat),
    DrawSource.Supplies InUnit source → 0 < width → 0 < height →
    (∃ enough generation after, ∀ limit ≥ enough,
      (engine.run limit width height).run source = (.ok (some generation), after)) ∧
    ∀ limit failure after,
      (engine.run limit width height).run source ≠ (.error failure, after)

variable {engine : Engine κ Rat}

/-- A run whose steps have room is not refused. -/
theorem HasRoom.not_outcome_error (h : engine.HasRoom) (hcomplete : RegionKind.Complete κ)
    {limit : Nat} {width height : Rat} {failure : LayoutError Rat} (hwidth : 0 < width)
    (hheight : 0 < height) :
    ¬ Sampler.Outcome InUnit (engine.run limit width height) (.error failure) := by
  intro houtcome
  rcases exists_judge_of_run houtcome with hroot | ⟨_, _, node, _, _, _, hproper, hjudge⟩
  · have hproper : (⟨0, 0, width, height⟩ : Rect Rat).Proper :=
      ⟨rfl, not_le.mpr hwidth, not_le.mpr hheight⟩
    rw [Rect.checked_eq_ok_iff.mpr ⟨rfl, hproper⟩] at hroot
    cases hroot
  · obtain ⟨hlarge, rule, step, hrule, hsettle, hrefused⟩ :=
      exists_step_of_judge hcomplete hjudge
    have hcheck := rule.check_of_mem_steps (RuleTable.check_of_rule? hrule)
      (rule.mem_steps_of_settle hsettle)
    have hstep := h node.kind rule step node.bounds hproper hlarge hrule hsettle
    exact hstep.not_fails hcheck hproper hrefused

/-- If all steps have room, every run returns. -/
theorem HasRoom.succeeds (h : engine.HasRoom) (hcomplete : RegionKind.Complete κ) :
    engine.Succeeds where
  room := h
  returns := by
    intro σ _ source width height hsource hwidth hheight
    have hsafe : ∀ limit failure after,
        (engine.run limit width height).run source ≠ (.error failure, after) := by
      intro limit failure after hrun
      rcases Sampler.failure_of_run hsource.delivers hrun with houtcome | hfails
      · exact h.not_outcome_error hcomplete hwidth hheight houtcome
      · exact hsource.not_fails failure hfails
    refine ⟨?_, hsafe⟩
    obtain ⟨enough, hended⟩ := ends_inUnit hcomplete σ source width height hsource.delivers
    rcases hrun : (engine.run enough width height).run source with
      ⟨failure | _ | generation, after⟩
    · exact absurd hrun (hsafe enough failure after)
    · rw [hrun] at hended
      exact absurd rfl hended
    · exact ⟨enough, generation, after, fun limit hmore => run_of_le hmore hrun (by simp)⟩

end Engine

namespace Garden

variable {config : Config Rat} {bounds : Rect Rat}

/-- A region that is still divided is wider than the path, and parcels of the
sizes that features need are wider than two of their margins. -/
structure Config.Roomy (config : Config Rat) : Prop where
  path : config.pathWidth < config.minDim
  pond : 2 * config.pond.margin ≤ config.pond.minParcelSize
  fountain : 2 * config.fountain.margin ≤ config.fountain.minParcelSize
  treasure : 2 * config.treasure.margin ≤ config.treasure.minParcelSize

theorem Feature.two_mul_margin_le {name : String} {feature : Feature Rat}
    (h : feature.check name = .ok ()) : 2 * feature.margin ≤ feature.minParcelSize := by
  unfold check at h
  split_ifs at h with hsmall
  rw [← Scalar.twice_eq]
  exact not_lt.mp hsmall

theorem Treasure.two_mul_margin_le {treasure : Treasure Rat} (h : treasure.check = .ok ()) :
    2 * treasure.margin ≤ treasure.minParcelSize := by
  unfold check at h
  split_ifs at h with hsmall
  rw [← Scalar.twice_eq]
  exact not_lt.mp hsmall

theorem Config.pathWidth_lt (h : config.checkPath = .ok ()) :
    config.pathWidth < config.minDim := by
  unfold checkPath at h
  split_ifs at h with hwide
  exact not_le.mp hwide

theorem Config.roomy_of_check (h : config.check = .ok ()) : config.Roomy := by
  simp only [check, bind_eq_ok_iff] at h
  obtain ⟨_, _, _, _, _, _, _, hpath, _, _, _, _, _, _, _, _, _, hpond, _, hfountain, _,
    htreasure, _⟩ := h
  exact ⟨pathWidth_lt hpath, Feature.two_mul_margin_le hpond,
    Feature.two_mul_margin_le hfountain, Treasure.two_mul_margin_le htreasure⟩

/-- A feature has room in a parcel of the size that it needs. -/
theorem hasRoom_embed {kind : Kind} {margin minimum : Rat} (h : 2 * margin ≤ minimum)
    (hlarge : minimum < bounds.width ∧ minimum < bounds.height) :
    (Step.embed kind margin).HasRoom bounds := by
  intro axis
  cases axis with
  | vertical => exact h.trans_lt hlarge.1
  | horizontal => exact h.trans_lt hlarge.2

theorem Config.Roomy.feature (h : config.Roomy) {kind : Kind} {size : Feature Rat}
    (hfeature : config.feature? kind = some size) : 2 * size.margin ≤ size.minParcelSize := by
  cases kind with
  | pond =>
      cases hfeature
      exact h.pond
  | fountain =>
      cases hfeature
      exact h.fountain
  | treasure =>
      cases hfeature
      exact h.treasure
  | _ => cases hfeature

/-- The steps of a garden have room, if the rectangle is not too small for the
path. -/
theorem Plans.hasRoom {kind : Kind} {step : Step Kind Rat} (hplans : Plans config bounds kind step)
    (h : config.Roomy) (hlarge : ∀ axis, config.minDim ≤ bounds.extent axis) :
    step.HasRoom bounds := by
  cases hplans with
  | path => exact fun axis => h.path.trans_le (hlarge axis)
  | feature hfeature hroom => exact hasRoom_embed (h.feature hfeature) hroom
  | _ => trivial

theorem hasRoom_of_engine {built : Engine Kind Rat} (h : engine config = .ok built) :
    built.HasRoom := by
  intro kind given step bounds _ hlarge hrule hsettle
  obtain ⟨hcheck, _, _, hsettings⟩ := of_engine h
  apply (plans_of_settle h hrule hsettle).hasRoom (Config.roomy_of_check hcheck)
  intro axis
  have hside := Engine.minDim_le_extent hlarge axis
  rwa [hsettings] at hside

end Garden

namespace Planting

variable {config : Config Rat} {bounds : Rect Rat}

/-- A planting has neither strips nor margins. -/
theorem hasRoom_of_engine {built : Engine Kind Rat} (h : engine config = .ok built) :
    built.HasRoom := by
  intro kind given step bounds _ _ hrule hsettle
  cases plans_of_settle h hrule hsettle <;> trivial

end Planting

/-- The engines that are accepted for a garden or a planting never fail. -/
theorem accepted_layouts_succeed :
    (∀ (config : Garden.Config Rat) (engine : Engine Garden.Kind Rat),
      Garden.engine config = .ok engine → engine.Succeeds) ∧
    ∀ (config : Planting.Config Rat) (engine : Engine Planting.Kind Rat),
      Planting.engine config = .ok engine → engine.Succeeds :=
  ⟨fun _ _ h => (Garden.hasRoom_of_engine h).succeeds Garden.complete,
    fun _ _ h => (Planting.hasRoom_of_engine h).succeeds Planting.complete⟩

theorem small_layouts_succeed :
    ∃ planting, Garden.engine Garden.Config.small = .ok Garden.small ∧
      Planting.engine Planting.Config.small = .ok planting ∧
      DrawSource.Supplies InUnit (⟨1 / 2⟩ : Steady Rat) ∧
      (∃ enough generation after, ∀ limit ≥ enough,
        (Garden.small.run limit 400 300).run (⟨1 / 2⟩ : Steady Rat) =
          (.ok (some generation), after)) ∧
      ∃ enough generation after, ∀ limit ≥ enough,
        (planting.run limit 400 300).run (⟨1 / 2⟩ : Steady Rat) =
          (.ok (some generation), after) := by
  have haccepted : (Planting.engine Planting.Config.small).toOption.isSome = true := by
    decide +kernel
  have hsource : DrawSource.Supplies InUnit (⟨1 / 2⟩ : Steady Rat) :=
    Steady.supplies ⟨by norm_num, by norm_num⟩
  obtain ⟨hgarden, hplanting⟩ := accepted_layouts_succeed
  cases hbuilt : Planting.engine Planting.Config.small with
  | error failure =>
      rw [hbuilt] at haccepted
      cases haccepted
  | ok planting =>
      have hfirst := (hgarden _ _ Garden.engine_small).returns _ _ 400 300 hsource
        (by norm_num) (by norm_num)
      have hsecond := (hplanting _ _ hbuilt).returns _ _ 400 300 hsource
        (by norm_num) (by norm_num)
      exact ⟨planting, Garden.engine_small, rfl, hsource, hfirst.1, hsecond.1⟩

end Parterre
