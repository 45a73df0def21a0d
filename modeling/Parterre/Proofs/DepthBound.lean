/-
The depth of a layout is logarithmic.  Over the exact rationals every cut takes a
factor off some side, and a side is below the minimum after so many factors.
Between two cuts the kinds follow each other at full size, each of them once.
-/
import Parterre.Proofs.Contraction
import Parterre.Proofs.Depth
import Parterre.Proofs.Layouts

namespace Parterre

variable {κ σ : Type}

/-- The largest factor of some ranges, and at least a half. -/
def ShareRange.largestFactor : List (ShareRange Rat) → Rat
  | [] => 1 / 2
  | range :: rest => Max.max range.factor (largestFactor rest)

theorem ShareRange.half_le_largestFactor (ranges : List (ShareRange Rat)) :
    1 / 2 ≤ largestFactor ranges := by
  induction ranges with
  | nil => exact le_rfl
  | cons range rest ih => exact ih.trans (le_max_right _ _)

theorem ShareRange.factor_le_largestFactor {ranges : List (ShareRange Rat)}
    {range : ShareRange Rat} (h : range ∈ ranges) : range.factor ≤ largestFactor ranges := by
  induction ranges with
  | nil => cases h
  | cons first rest ih =>
      rcases List.mem_cons.mp h with rfl | hrest
      · exact le_max_left _ _
      · exact (ih hrest).trans (le_max_right _ _)

theorem ShareRange.largestFactor_lt_one {ranges : List (ShareRange Rat)}
    (h : ∀ range ∈ ranges, range.isValid = true) : largestFactor ranges < 1 := by
  induction ranges with
  | nil => norm_num [largestFactor]
  | cons range rest ih =>
      obtain ⟨hrange, hrest⟩ := List.forall_mem_cons.mp h
      exact max_lt (factor_lt_one hrange) (ih hrest)

variable [DecidableEq κ] [RegionKind κ]

/-- The widths of the strips that a step lays. -/
def Step.stripWidths : Step κ Rat → List Rat
  | .corridor _ width _ _ _ _ => [width]
  | _ => []

namespace RuleTable

/-- The largest factor of all ranges of a table, and at least a half. -/
def factor (table : RuleTable κ Rat) : Rat :=
  ShareRange.largestFactor (table.steps.flatMap Step.ranges)

theorem factor_lt_one (table : RuleTable κ Rat) : table.factor < 1 := by
  apply ShareRange.largestFactor_lt_one
  intro range hrange
  obtain ⟨step, hstep, hrange⟩ := List.mem_flatMap.mp hrange
  obtain ⟨owner, hcheck⟩ := check_of_mem_steps hstep
  exact Step.isValid_of_check hcheck hrange

theorem factor_pos (table : RuleTable κ Rat) : 0 < table.factor :=
  lt_of_lt_of_le (by norm_num) (ShareRange.half_le_largestFactor _)

/-- The parts that a step of the table lays. -/
theorem contracts_of_lays {table : RuleTable κ Rat} {step : Step κ Rat} {bounds : Rect Rat}
    {kinds : List κ} {cut : Cut Rat} {rects : List (Rect Rat)} (hstep : step ∈ table.steps)
    (hlays : step.Lays InUnit bounds kinds cut) (hbounds : bounds.Proper)
    (hdivides : cut ≠ .whole) (hparts : cut.parts bounds = .ok rects) {part : κ × Rect Rat}
    (hpart : part ∈ kinds.zip rects) :
    part.2.Contracts table.factor bounds ∨
      ∃ axis width ratio first second direction start,
        step = .corridor axis width ratio first part.1 second ∧
          part.2 = bounds.slice direction start width ∧ width < bounds.extent direction := by
  obtain ⟨owner, hcheck⟩ := check_of_mem_steps hstep
  refine hlays.contracts hcheck (fun range hrange => ?_) (ShareRange.half_le_largestFactor _)
    table.factor_lt_one hbounds hdivides hparts hpart
  exact ShareRange.factor_le_largestFactor (List.mem_flatMap.mpr ⟨step, hstep, hrange⟩)

end RuleTable

namespace Engine

/-- How often a side can be cut before it is below the minimum. -/
noncomputable def cuts (engine : Engine κ Rat) (side : Rat) : Nat :=
  sInf {count | side * engine.table.factor ^ count < engine.settings.minDim}

variable (engine : Engine κ Rat) {side part : Rat}

theorem isLeast_cuts (side : Rat) :
    IsLeast {count | side * engine.table.factor ^ count < engine.settings.minDim}
      (engine.cuts side) := by
  have hmin : 0 < engine.settings.minDim := engine.minDim_of_accepted.1
  have hsome : ∃ count, side * engine.table.factor ^ count < engine.settings.minDim := by
    rcases le_or_gt side 0 with hside | hside
    · refine ⟨0, ?_⟩
      rw [pow_zero, mul_one]
      exact hside.trans_lt hmin
    · obtain ⟨count, hcount⟩ :=
        exists_pow_lt_of_lt_one (div_pos hmin hside) engine.table.factor_lt_one
      refine ⟨count, ?_⟩
      rwa [lt_div_iff₀ hside, mul_comm] at hcount
  exact ⟨Nat.sInf_mem hsome, fun _ hcount => Nat.sInf_le hcount⟩

theorem cuts_spec (side : Rat) :
    side * engine.table.factor ^ engine.cuts side < engine.settings.minDim :=
  (engine.isLeast_cuts side).1

theorem cuts_le {count : Nat}
    (h : side * engine.table.factor ^ count < engine.settings.minDim) :
    engine.cuts side ≤ count :=
  (engine.isLeast_cuts side).2 h

theorem cuts_pos (h : engine.settings.minDim ≤ side) : 0 < engine.cuts side := by
  by_contra hzero
  have hspec := engine.cuts_spec side
  rw [Nat.eq_zero_of_not_pos hzero, pow_zero, mul_one] at hspec
  exact absurd h (not_le.mpr hspec)

theorem cuts_mono (h : part ≤ side) : engine.cuts part ≤ engine.cuts side := by
  have hpower := pow_pos engine.table.factor_pos (engine.cuts side)
  apply engine.cuts_le
  exact (mul_le_mul_of_nonneg_right h hpower.le).trans_lt (engine.cuts_spec side)

/-- A cut by the factor is one of the cuts of a side that reaches the minimum. -/
theorem cuts_lt (hside : engine.settings.minDim ≤ side)
    (h : part ≤ side * engine.table.factor) : engine.cuts part < engine.cuts side := by
  obtain ⟨count, hcount⟩ := Nat.exists_eq_add_one.mpr (engine.cuts_pos hside)
  have hspec := engine.cuts_spec side
  have hpower := pow_pos engine.table.factor_pos count
  rw [hcount, Nat.lt_succ_iff]
  apply engine.cuts_le
  calc part * engine.table.factor ^ count
      ≤ side * engine.table.factor * engine.table.factor ^ count :=
        mul_le_mul_of_nonneg_right h hpower.le
    _ = side * engine.table.factor ^ engine.cuts side := by
        rw [hcount, pow_succ', mul_assoc]
    _ < engine.settings.minDim := hspec

/-- How many widths of strips are below a side. -/
def narrower (engine : Engine κ Rat) (side : Rat) : Nat :=
  ((engine.table.steps.flatMap Step.stripWidths).toFinset.filter (· < side)).card

theorem narrower_mono (h : part ≤ side) : engine.narrower part ≤ engine.narrower side :=
  Finset.card_le_card
    (Finset.monotone_filter_right _ fun _ _ (hwidth : _ < part) => hwidth.trans_le h)

/-- The width of a strip is below the side it is taken from, but not below
itself. -/
theorem narrower_lt {width : Rat} (hmem : width ∈ engine.table.steps.flatMap Step.stripWidths)
    (h : width < side) : engine.narrower width < engine.narrower side := by
  apply Finset.card_lt_card
  refine ⟨Finset.monotone_filter_right _ fun _ _ (hless : _ < width) => hless.trans h,
    fun hsubset => ?_⟩
  have hself := hsubset (Finset.mem_filter.mpr ⟨List.mem_toFinset.mpr hmem, h⟩)
  exact lt_irrefl width (Finset.mem_filter.mp hself).2

end Engine

/-- The numbers of both sides together. -/
def Rect.total (number : Rat → Nat) (bounds : Rect Rat) : Nat :=
  number bounds.width + number bounds.height

theorem Rect.total_lt {number : Rat → Nat} {rect bounds : Rect Rat}
    (hle : ∀ axis, number (rect.extent axis) ≤ number (bounds.extent axis)) (axis : Axis)
    (hlt : number (rect.extent axis) < number (bounds.extent axis)) :
    rect.total number < bounds.total number := by
  have hwidth := hle .vertical
  have hheight := hle .horizontal
  simp only [extent, total] at *
  cases axis with
  | vertical => exact Nat.add_lt_add_of_lt_of_le hlt hheight
  | horizontal => exact Nat.add_lt_add_of_le_of_lt hwidth hlt

namespace Engine

variable {engine : Engine κ Rat} {bounds rect : Rect Rat}

theorem minDim_le_extent (h : engine.settings.isUndersized bounds = false) (axis : Axis) :
    engine.settings.minDim ≤ bounds.extent axis := by
  rw [Settings.isUndersized, Bool.or_eq_false_iff] at h
  cases axis with
  | vertical => exact not_lt.mp (of_decide_eq_false h.1)
  | horizontal => exact not_lt.mp (of_decide_eq_false h.2)

/-- A contracted rectangle can be cut less often. -/
theorem total_cuts_lt (hlarge : engine.settings.isUndersized bounds = false)
    (h : rect.Contracts engine.table.factor bounds) :
    rect.total engine.cuts < bounds.total engine.cuts := by
  obtain ⟨hle, axis, hless⟩ := h
  exact Rect.total_lt (fun other => engine.cuts_mono (hle other)) axis
    (engine.cuts_lt (minDim_le_extent hlarge axis) hless)

/-- Parts of a cut can be cut less often, or they are narrower than more strips. -/
theorem divides_total :
    engine.Divides InUnit (Rect.total fun side => engine.cuts side + engine.narrower side) := by
  intro kind rule step bounds kinds cut rects hbounds hlarge hrule hstep hlays hdivides hparts
    rect hrect
  have hlength : rects.length ≤ kinds.length := by
    rw [Cut.length_of_parts hparts, hlays.length_kinds]
  rw [← List.map_snd_zip hlength] at hrect
  obtain ⟨part, hpart, rfl⟩ := List.mem_map.mp hrect
  have hmem := RuleTable.mem_steps_of_ends hrule hstep
  rcases RuleTable.contracts_of_lays hmem hlays hbounds hdivides hparts hpart with
    ⟨hle, axis, hless⟩ |
      ⟨_, width, _, _, _, axis, start, rfl, hslice, hless⟩
  · refine Rect.total_lt (fun other => ?_) axis ?_
    · exact Nat.add_le_add (engine.cuts_mono (hle other)) (engine.narrower_mono (hle other))
    · exact Nat.add_lt_add_of_lt_of_le (engine.cuts_lt (minDim_le_extent hlarge axis) hless)
        (engine.narrower_mono (hle axis))
  · have hwidth : width ∈ engine.table.steps.flatMap Step.stripWidths :=
      List.mem_flatMap.mpr ⟨_, hmem, List.mem_singleton_self _⟩
    have hle : ∀ other, (bounds.slice axis start width).extent other ≤ bounds.extent other :=
      Rect.extent_slice_le hless.le
    rw [hslice]
    refine Rect.total_lt (fun other => ?_) axis ?_
    · exact Nat.add_le_add (engine.cuts_mono (hle other)) (engine.narrower_mono (hle other))
    · rw [Rect.extent_slice]
      exact Nat.add_lt_add_of_le_of_lt (engine.cuts_mono hless.le)
        (engine.narrower_lt hwidth hless)

/-- Every run of admitted draws ends. -/
theorem ends_inUnit (hcomplete : RegionKind.Complete κ) : engine.Ends InUnit :=
  ends_of_divides hcomplete (fun _ hvalue => hvalue.1) _ divides_total

/-- Regions that are stopped by their size or final by their kind have rank zero.
Any other one ranks by the cuts that its sides still take, each of which starts a
new round through the kinds, and by the kinds that follow at full size. -/
noncomputable def rank (engine : Engine κ Rat) (kind : κ) (bounds : Rect Rat) : Nat :=
  if engine.settings.isUndersized bounds || engine.table.isTerminal kind then 0
  else (bounds.total engine.cuts - 2) * (RegionKind.all : List κ).length +
    engine.table.height engine.settings.frame kind + 1

/-- A region that is not undersized takes a cut on both sides. -/
theorem two_le_total_cuts (hlarge : engine.settings.isUndersized bounds = false) :
    2 ≤ bounds.total engine.cuts :=
  Nat.add_le_add (engine.cuts_pos (minDim_le_extent hlarge .vertical))
    (engine.cuts_pos (minDim_le_extent hlarge .horizontal))

theorem height_lt_length (hcomplete : RegionKind.Complete κ) (kind : κ) :
    engine.table.height engine.settings.frame kind < (RegionKind.all : List κ).length :=
  (RuleTable.height_lt_card hcomplete engine.checkShrinks_of_accepted kind).trans_le
    hcomplete.card_le

theorem rank_le (hcomplete : RegionKind.Complete κ) (kind : κ) (bounds : Rect Rat) :
    engine.rank kind bounds ≤
      bounds.total engine.cuts * (RegionKind.all : List κ).length := by
  rw [rank]
  split_ifs with hstops
  · exact Nat.zero_le _
  · rw [Bool.not_eq_true, Bool.or_eq_false_iff] at hstops
    have hheight := engine.height_lt_length hcomplete kind
    obtain ⟨rounds, hrounds⟩ := Nat.exists_eq_add_of_le (two_le_total_cuts hstops.1)
    rw [hrounds, Nat.add_sub_cancel_left, Nat.add_mul]
    omega

theorem rank_of_open {kind : κ} (hlarge : engine.settings.isUndersized bounds = false)
    (hopen : engine.table.isTerminal kind = false) :
    engine.rank kind bounds = (bounds.total engine.cuts - 2) * (RegionKind.all : List κ).length +
      engine.table.height engine.settings.frame kind + 1 := by
  rw [rank, hlarge, hopen]
  rfl

theorem rank_of_terminal {kind : κ} (h : engine.table.isTerminal kind = true)
    (bounds : Rect Rat) : engine.rank kind bounds = 0 := by
  rw [rank, h, Bool.or_true, if_pos rfl]

/-- At the same size a kind ranks above those it leads to. -/
theorem rank_lt_of_leads (hcomplete : RegionKind.Complete κ) {kind other : κ}
    (hlarge : engine.settings.isUndersized bounds = false)
    (hopen : engine.table.isTerminal kind = false)
    (hleads : engine.table.Leads engine.settings.frame kind other) :
    engine.rank other bounds < engine.rank kind bounds := by
  have hheight := RuleTable.height_lt hcomplete engine.checkShrinks_of_accepted hleads
  rw [rank_of_open hlarge hopen, rank]
  split_ifs
  · exact Nat.succ_pos _
  · exact Nat.succ_lt_succ (Nat.add_lt_add_left hheight _)

/-- A contracted region ranks lower whatever its kind is. -/
theorem rank_lt_of_contracts (hcomplete : RegionKind.Complete κ) {kind : κ}
    (hlarge : engine.settings.isUndersized bounds = false)
    (hopen : engine.table.isTerminal kind = false)
    (h : rect.Contracts engine.table.factor bounds) (other : κ) :
    engine.rank other rect < engine.rank kind bounds := by
  rw [rank_of_open hlarge hopen, rank]
  split_ifs with hstops
  · exact Nat.succ_pos _
  · rw [Bool.not_eq_true, Bool.or_eq_false_iff] at hstops
    have hheight := engine.height_lt_length hcomplete other
    have hless := total_cuts_lt hlarge h
    -- one round fewer outweighs any height, which is below the number of kinds
    obtain ⟨rounds, hrounds⟩ := Nat.exists_eq_add_of_le (two_le_total_cuts hstops.1)
    have hround : rounds + 1 ≤ bounds.total engine.cuts - 2 := by omega
    rw [hrounds, Nat.add_sub_cancel_left]
    apply Nat.succ_lt_succ
    calc rounds * (RegionKind.all : List κ).length +
          engine.table.height engine.settings.frame other
        < rounds * (RegionKind.all : List κ).length + (RegionKind.all : List κ).length :=
          Nat.add_lt_add_left hheight _
      _ = (rounds + 1) * (RegionKind.all : List κ).length := (Nat.succ_mul _ _).symm
      _ ≤ (bounds.total engine.cuts - 2) * (RegionKind.all : List κ).length :=
          Nat.mul_le_mul_right _ hround
      _ ≤ _ := Nat.le_add_right _ _

/-- The strips of all corridors are final. -/
def StripsEnd (engine : Engine κ Rat) : Prop :=
  ∀ axis width ratio first strip second,
    Step.corridor axis width ratio first strip second ∈ engine.table.steps →
      engine.table.rule? strip = some (.always .terminal)

/-- The rank falls at every step: a region of full size leads to a kind further
down, and a part of a cut takes fewer cuts, or it is a strip and final. -/
theorem falls_rank (hcomplete : RegionKind.Complete κ) (hstrips : engine.StripsEnd) :
    engine.Falls InUnit fun _ => engine.rank := by
  intro depth kind bounds verdict hproper hverdict part hpart
  obtain ⟨hgoes, rule, step, expansion, hrule, hsettle, hgives, hmem⟩ :=
    pending_of_judge hverdict hpart
  have hlarge := (Bool.or_eq_false_iff.mp hgoes).1
  have hcheck := RuleTable.check_of_rule? hrule
  have hstep := rule.mem_ends_of_settle (fun _ hvalue => hvalue.1) hcheck hsettle
  have hopen : engine.table.isTerminal kind = false := by
    rw [Bool.eq_false_iff, Ne, RuleTable.isTerminal_iff, hrule, Option.some.injEq]
    rintro rfl
    obtain rfl := List.mem_singleton.mp hstep
    cases hgives with
    | terminal => cases hmem
    | laid hlays => cases hlays
  change engine.rank part.1 part.2 < engine.rank kind bounds
  rcases hgives.pending_cases hmem with
    ⟨hsame, hfollows⟩ | ⟨kinds, cut, rects, hlays, hdivides, hparts, hpair⟩
  · rw [hsame]
    exact rank_lt_of_leads hcomplete hlarge hopen
      (RuleTable.leads_of_mem_ends hrule hstep hfollows)
  · have hinside := RuleTable.mem_steps_of_ends hrule hstep
    rcases RuleTable.contracts_of_lays hinside hlays hproper hdivides hparts hpair with
      hcontracts | ⟨axis, width, ratio, first, second, _, _, rfl, _, _⟩
    · exact rank_lt_of_contracts hcomplete hlarge hopen hcontracts part.1
    · have hfinal := RuleTable.isTerminal_iff.mpr (hstrips _ _ _ _ _ _ hinside)
      rw [rank_of_terminal hfinal, rank_of_open hlarge hopen]
      exact Nat.succ_pos _

/-- Every run of draws in the unit interval ends.  If all strips are final, a
layout is not deeper than the cuts that its two sides take, times the kinds. -/
theorem ends_and_maxDepth_le [DrawSource σ Rat] (engine : Engine κ Rat)
    (hcomplete : RegionKind.Complete κ) :
    engine.Ends InUnit ∧
    (engine.StripsEnd → ∀ width height : Rat, ∃ across down,
      IsLeast {count | width * engine.table.factor ^ count < engine.settings.minDim} across ∧
      IsLeast {count | height * engine.table.factor ^ count < engine.settings.minDim} down ∧
      ∀ (limit : Nat) (source after : σ) (generation : Generation κ Rat),
        DrawSource.Delivers InUnit source →
        (engine.run limit width height).run source = (.ok (some generation), after) →
        generation.stats.maxDepth ≤ (across + down) * (RegionKind.all : List κ).length) := by
  refine ⟨ends_inUnit hcomplete, fun hstrips width height => ?_⟩
  refine ⟨engine.cuts width, engine.cuts height, engine.isLeast_cuts width,
    engine.isLeast_cuts height, ?_⟩
  intro limit source after generation hsource hrun
  calc generation.stats.maxDepth
      ≤ engine.rank engine.settings.root ⟨0, 0, width, height⟩ :=
        maxDepth_le_rank (falls_rank hcomplete hstrips) hsource hrun
    _ ≤ (engine.cuts width + engine.cuts height) * (RegionKind.all : List κ).length :=
        rank_le hcomplete _ _

end Engine

namespace Garden

/-- The only strip of a garden is its path. -/
theorem stripsEnd_of_engine {config : Config Rat} {built : Engine Kind Rat}
    (h : engine config = .ok built) : built.StripsEnd := by
  intro axis width ratio first strip second hstep
  obtain ⟨_, htable, _⟩ := of_engine h
  obtain ⟨kind, hmem⟩ := RuleTable.exists_kind_of_mem_steps htable hstep
  have hpath : strip = .path := by
    cases kind with
    | root =>
        cases List.mem_singleton.mp hmem
        rfl
    | _ =>
        simp [rule, parcelRule, featureRule, grassRule, Rule.steps, Rule.branchSteps] at hmem
  rw [hpath, RuleTable.rule?_of_ofFunction complete htable]
  rfl

theorem maxDepth_le_small :
    RegionKind.Complete Kind ∧ small.StripsEnd ∧ small.Ends InUnit ∧
    ∃ generation after across down,
      (small.run 12 400 300).run smallDraws = (.ok (some generation), after) ∧
      generation.stats.maxDepth = 3 ∧
      IsLeast {count | 400 * small.table.factor ^ count < small.settings.minDim} across ∧
      IsLeast {count | 300 * small.table.factor ^ count < small.settings.minDim} down ∧
      generation.stats.maxDepth ≤ (across + down) * Kind.all.length := by
  obtain ⟨generation, after, hrun, hstats⟩ := small_finished
  have hstrips := stripsEnd_of_engine engine_small
  obtain ⟨hends, hbound⟩ := Engine.ends_and_maxDepth_le (σ := Script Rat) small complete
  obtain ⟨across, down, hacross, hdown, hdepth⟩ := hbound hstrips 400 300
  refine ⟨complete, hstrips, hends, generation, after, across, down, hrun, by rw [hstats],
    hacross, hdown, ?_⟩
  exact hdepth 12 smallDraws after generation (Script.delivers_inUnit _) hrun

end Garden

end Parterre
