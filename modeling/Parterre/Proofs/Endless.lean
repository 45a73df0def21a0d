/-
Runs that never end.  A valid range of shares may round away what a cut takes
off.  Then a region of which strips are cut off stays as wide as it is, level
after level, although no kind leads back to itself at full size; so a valid
range is safe in every engine without a depth limit exactly if it bites.
-/
import Parterre.Proofs.Narrowing

namespace Parterre

open Binary64

/-- A strip that is cut off, and the rest of the region. -/
inductive Peel where
  | strip
  | rest
  deriving DecidableEq

namespace Peel

instance : RegionKind Peel where
  all := [.strip, .rest]
  name
    | .strip => "Strip"
    | .rest => "Rest"

theorem complete : RegionKind.Complete Peel := by
  intro kind
  cases kind <;> decide

/-- Strips are final, and the rest is cut again. -/
def rules (range : ShareRange Float) : List (Peel × Rule Peel Float) :=
  [(.strip, .always .terminal),
    (.rest, .always (.bisect (.fixed .vertical) range .strip .rest))]

theorem check_rules {range : ShareRange Float} (h : range.isValid = true) :
    RuleTable.check (rules range) = .ok () := by
  have hratio : ShareRange.check Peel.rest range = .ok () := if_pos h
  have hentries : RuleTable.checkEntries [] (rules range) = .ok () := by
    simp [rules, RuleTable.checkEntries, Rule.check, Step.check, hratio, bind, Except.bind,
      pure, Except.pure]
  rw [RuleTable.check, hentries]
  rfl

/-- The table that peels strips off. -/
def table (range : ShareRange Float) (h : range.isValid = true) : RuleTable Peel Float :=
  ⟨rules range, check_rules h⟩

def settings (minDim : Float) : Settings Peel Float where
  root := .rest
  minDim := minDim
  safeguard := .single .strip
  frame := .strip
  maxDepth := none
  keepAtMaxDepth := false

variable {range : ShareRange Float} {minDim : Float}

/-- Neither the strip nor the rest leads anywhere at full size. -/
theorem checkShrinks_table (h : range.isValid = true) :
    (table range h).checkShrinks .strip = .ok () := by
  have hways : (table range h).ways .strip = [(.strip, []), (.rest, [])] := rfl
  have hnone : (RegionKind.all : List Peel).find?
      (Ways.leadsToItself [(.strip, []), (.rest, [])]) = none := by decide +kernel
  rw [RuleTable.checkShrinks, hways, Ways.check, hnone]
  rfl

theorem check_settings (h : range.isValid = true)
    (hminDim : 0 < minDim ∧ minDim.isFinite = true) :
    Engine.check (table range h) (settings minDim) = .ok () := by
  have hone : (0 : Float) < 1 := by decide +kernel
  have hsafeguard : (Safeguard.single Peel.strip : Safeguard Peel Float).check = .ok () := by
    simp [Safeguard.check, Safeguard.single, Safeguard.choices, hone, pure, Except.pure]
  have hsettings : (settings minDim).check = .ok () := by
    rw [Settings.check, if_neg]
    · exact hsafeguard
    · rw [not_or, Decidable.not_not, Decidable.not_not]
      exact hminDim
  rw [Engine.check, hsettings]
  exact checkShrinks_table h

/-- The engine that peels strips off. -/
def engine (range : ShareRange Float) (minDim : Float) (h : range.isValid = true)
    (hminDim : 0 < minDim ∧ minDim.isFinite = true) : Engine Peel Float :=
  ⟨table range h, settings minDim, check_settings h hminDim⟩

end Peel

/-- A width that reaches the minimum and that stays the same when the share is
taken off. -/
structure Stuck (minDim share width : Float) : Prop where
  min_le : minDim ≤ width
  absorbed : Absorbed width (width * share)
  sub_eq : width - width * share = width

/-- What is left of a side that does not get shorter is stuck, since operations
see nothing but the unpacked number. -/
theorem exists_stuck {minDim share : Float} (hminDim : 0 < minDim ∧ minDim.isFinite = true)
    (h : ¬ ShareBites minDim share) : ∃ width, Stuck minDim share width := by
  simp only [ShareBites, not_forall] at h
  obtain ⟨side, hfinite, hmin, hfirst, hfinite', hlost⟩ := h
  have hpositive := (lt_iff rfl hminDim.2).mp hminDim.1
  have hside : 0 < exact side := hpositive.trans_le ((le_iff hminDim.2 hfinite).mp hmin)
  have habsorbed := absorbed_of_not_lt hside ((lt_iff rfl hfinite').mp hfirst) hlost
  have hunpack := habsorbed.unpack_sub
  have hproduct : (side - side * share) * share = side * share :=
    congrArg (fun number => Float.ofModel (.pack
      (Float.Model.UnpackedFloat.mul .binary64 number share.toModel.unpack))) hunpack
  have hrest : side - side * share - side * share = side - side * share :=
    congrArg (fun number => Float.ofModel (.pack
      (Float.Model.UnpackedFloat.sub .binary64 number (side * share).toModel.unpack))) hunpack
  have hexact := habsorbed.exact_sub
  refine ⟨side - side * share, ?_, ?_, ?_⟩
  · rw [le_iff hminDim.2 habsorbed.sub_finite, hexact]
    exact (le_iff hminDim.2 hfinite).mp hmin
  · rw [hproduct]
    exact ⟨hexact.symm ▸ hside, habsorbed.part_pos, habsorbed.part_finite,
      hrest.symm ▸ habsorbed.sub_finite, by rw [hrest]⟩
  · rw [hproduct, hrest]

namespace Peel

variable {range : ShareRange Float} {minDim draw width : Float}

/-- The share that a draw gives. -/
def share (range : ShareRange Float) (draw : Float) : Float :=
  range.min + draw * (range.max - range.min)

/-- A region as wide as it is high. -/
def block (x width : Float) : Rect Float :=
  ⟨x, 0, width, width⟩

/-- A strip of the share and the rest behind it. -/
def parts (share x width : Float) : List (Peel × Rect Float) :=
  [(.strip, ⟨x, 0, width * share, width⟩), (.rest, block (x + width * share) width)]

theorem proper_rect {x first second : Float} (hx : x.isFinite = true) (hfirst : 0 < exact first)
    (hsecond : 0 < exact second) : (⟨x, 0, first, second⟩ : Rect Float).Proper := by
  have hfinite := isFinite_of_exact_pos hfirst
  have hfinite' := isFinite_of_exact_pos hsecond
  refine ⟨?_, ?_, ?_⟩
  · simp only [Rect.isFinite, Bool.and_eq_true]
    exact ⟨⟨⟨hx, rfl⟩, hfinite⟩, hfinite'⟩
  · rw [le_iff hfinite rfl, exact_zero, not_le]
    exact hfirst
  · rw [le_iff hfinite' rfl, exact_zero, not_le]
    exact hsecond

variable (h : range.isValid = true) (hminDim : 0 < minDim ∧ minDim.isFinite = true)

theorem parts_block {x : Float} (hstuck : Stuck minDim (share range draw) width)
    (hx : x.isFinite = true) (hlow : 0 ≤ exact x) (hhigh : exact x ≤ exact width) :
    (Cut.across .vertical (share range draw)).parts (block x width) =
      .ok [⟨x, 0, width * share range draw, width⟩,
        block (x + width * share range draw) width] := by
  have hwidth := hstuck.absorbed.side_pos
  have hnext := (hstuck.absorbed.add_between hx hlow hhigh).1
  have houtline : (Cut.across .vertical (share range draw)).outline (block x width) =
      [⟨x, 0, width * share range draw, width⟩,
        block (x + width * share range draw) width] := by
    simp only [Cut.outline, block, Rect.extent, Rect.origin, Rect.slice, hstuck.sub_eq]
  refine Rect.mapM_checked_eq_ok_iff.mpr ⟨houtline.symm, ?_⟩
  rw [houtline]
  simp only [List.forall_mem_cons, List.not_mem_nil, false_implies, implies_true, and_true]
  exact ⟨proper_rect hx hstuck.absorbed.part_pos hwidth, proper_rect hnext hwidth hwidth⟩

/-- The rest is cut into a strip and a rest of the same size. -/
theorem judge_rest {x : Float} (hstuck : Stuck minDim (share range draw) width)
    (hx : x.isFinite = true) (hlow : 0 ≤ exact x) (hhigh : exact x ≤ exact width)
    (depth : Nat) :
    ((engine range minDim h hminDim).judge .rest (block x width) depth).run
        (⟨draw⟩ : Steady Float) =
      (.ok (.expanded (.tiled (parts (share range draw) x width))), ⟨draw⟩) := by
  have hlarge : ¬ width < minDim := by
    have hfinite := hstuck.absorbed.side_finite
    rw [lt_iff hfinite hminDim.2, not_lt]
    exact (le_iff hminDim.2 hfinite).mp hstuck.min_le
  have hundersized : (settings minDim).isUndersized (block x width) = false := by
    rw [Settings.isUndersized, Bool.or_eq_false_iff]
    exact ⟨decide_eq_false hlarge, decide_eq_false hlarge⟩
  have hexpansion : Expansion.ofCut (block x width) [Peel.strip, Peel.rest]
      (.across .vertical (share range draw)) =
        .ok (.tiled (parts (share range draw) x width)) := by
    rw [Expansion.ofCut, parts_block hstuck hx hlow hhigh]
    rfl
  have hstep : (Step.expand (block x width) Peel.strip
      (.bisect (.fixed .vertical) range .strip .rest)).run (⟨draw⟩ : Steady Float) =
        (Expansion.ofCut (block x width) [Peel.strip, Peel.rest]
          (.across .vertical (share range draw)), ⟨draw⟩) := rfl
  have hgoes : ((engine range minDim h hminDim).settings.isUndersized (block x width) ||
      (engine range minDim h hminDim).settings.isCapped depth) = false := by
    rw [Bool.or_eq_false_iff]
    exact ⟨hundersized, rfl⟩
  have hrule : (engine range minDim h hminDim).table.rule .rest =
      .ok (.always (.bisect (.fixed .vertical) range .strip .rest)) := rfl
  rw [Engine.judge, hgoes, hrule]
  change ((Step.expand (block x width) Peel.strip
    (.bisect (.fixed .vertical) range .strip .rest)) >>= fun expansion =>
      (pure (.expanded expansion) : Sampler Float (Verdict Peel Float))).run _ = _
  rw [Sampler.run_bind, hstep, hexpansion]
  rfl

/-- A strip is left alone, whether it is too small or not. -/
theorem judge_strip (bounds : Rect Float) (depth : Nat) (source : Steady Float) :
    ∃ verdict, ((engine range minDim h hminDim).judge .strip bounds depth).run source =
        (.ok verdict, source) ∧ verdict.pending = [] := by
  rw [Engine.judge]
  split_ifs with hstopped hkeeps
  · exact ⟨.stopped .strip, rfl, rfl⟩
  · exact ⟨.stopped .strip, rfl, rfl⟩
  · exact ⟨.expanded .final, rfl, rfl⟩

/-- Strips have no pending children and take no draws. -/
theorem judgeLevel_strips (strips : List (Rect Float)) (depth : Nat) (source : Steady Float) :
    ∃ judged, ((engine range minDim h hminDim).judgeLevel depth
        (strips.map fun bounds => (Peel.strip, bounds))).run source = (.ok judged, source) ∧
      (judged.flatMap fun region => region.verdict.pending) = [] := by
  induction strips with
  | nil => exact ⟨[], rfl, rfl⟩
  | cons bounds rest ih =>
      obtain ⟨judged, hjudged, hnone⟩ := ih
      obtain ⟨verdict, hverdict, hpending⟩ := judge_strip h hminDim bounds depth source
      refine ⟨⟨.strip, bounds, verdict⟩ :: judged, ?_, ?_⟩
      · rw [List.map_cons, Engine.judgeLevel, Sampler.run_bind, hverdict]
        simp only [Sampler.run_bind, hjudged]
        rfl
      · rw [List.flatMap_cons, hpending, hnone, List.append_nil]

/-- A level with strips and a rest that is stuck is followed by another one. -/
theorem levels_endless {x : Float} (hstuck : Stuck minDim (share range draw) width)
    (hx : x.isFinite = true) (hlow : 0 ≤ exact x) (hhigh : exact x ≤ exact width)
    (strips : List (Rect Float)) (height depth : Nat) :
    ((engine range minDim h hminDim).levels height depth
        (strips.map (fun bounds => (Peel.strip, bounds)) ++ [(.rest, block x width)])).run
          (⟨draw⟩ : Steady Float) = (.ok none, ⟨draw⟩) := by
  have hsome : strips.map (fun bounds => (Peel.strip, bounds)) ++
      [(Peel.rest, block x width)] ≠ [] := List.append_ne_nil_of_right_ne_nil _ (by simp)
  induction height generalizing depth x strips with
  | zero =>
      rw [Engine.levels_zero _ depth hsome]
      rfl
  | succ height ih =>
      obtain ⟨judged, hjudged, hnone⟩ :=
        judgeLevel_strips h hminDim strips depth (⟨draw⟩ : Steady Float)
      have hrest := judge_rest h hminDim hstuck hx hlow hhigh depth
      obtain ⟨hnext, hnextLow, hnextHigh⟩ := hstuck.absorbed.add_between hx hlow hhigh
      have hbelow := ih hnext hnextLow hnextHigh
        [⟨x, 0, width * share range draw, width⟩] (depth + 1) (by simp)
      have hlevel : ((engine range minDim h hminDim).judgeLevel depth
          (strips.map (fun bounds => (Peel.strip, bounds)) ++ [(.rest, block x width)])).run
            (⟨draw⟩ : Steady Float) =
          (.ok (judged ++ [⟨.rest, block x width,
            .expanded (.tiled (parts (share range draw) x width))⟩]), ⟨draw⟩) := by
        rw [Engine.judgeLevel_append, Sampler.run_bind, hjudged]
        simp only [Sampler.run_bind, Engine.judgeLevel, hrest, Sampler.run_pure]
      have hpending : (judged ++ [(⟨.rest, block x width,
          .expanded (.tiled (parts (share range draw) x width))⟩ : Judged Peel Float)]).flatMap
            (fun region => region.verdict.pending) =
          [⟨x, 0, width * share range draw, width⟩].map (fun bounds => (Peel.strip, bounds)) ++
            [(.rest, block (x + width * share range draw) width)] := by
        rw [List.flatMap_append, hnone]
        rfl
      rw [Engine.levels_succ _ height depth hsome, Sampler.run_bind, hlevel]
      simp only [Sampler.run_bind, hpending, hbelow]
      rfl

/-- No number of regions is enough for a region that is stuck. -/
theorem run_endless (hstuck : Stuck minDim (share range draw) width) (limit : Nat) :
    (((engine range minDim h hminDim).run limit width width).run
      (⟨draw⟩ : Steady Float)).1 = .ok none := by
  have hwidth := hstuck.absorbed.side_pos
  have hroot : Rect.checked (⟨0, 0, width, width⟩ : Rect Float) = .ok (block 0 width) :=
    Rect.checked_eq_ok_iff.mpr ⟨rfl, proper_rect rfl hwidth hwidth⟩
  cases hrun : ((engine range minDim h hminDim).run limit width width).run
      (⟨draw⟩ : Steady Float) with
  | mk result after =>
      by_contra hended
      obtain ⟨height, hheight⟩ := Engine.runByLevels_of_run hrun hended
      have hlevels := hheight height (Nat.le_refl _)
      have hendless := levels_endless h hminDim hstuck (x := 0) rfl le_rfl hwidth.le [] height 0
      rw [Engine.runByLevels_of_checked hroot] at hlevels
      rw [List.map_nil, List.nil_append] at hendless
      have hresult := congrArg Prod.fst (hendless.symm.trans hlevels)
      rcases result with failure | _ | generation
      · cases hresult
      · exact hended rfl
      · cases hresult

/-- If the range does not bite the engine does not end: some draw, given again
and again, cuts strips off a region for ever. -/
theorem not_ends (hbites : ¬ range.Bites minDim) :
    ¬ (engine range minDim h hminDim).Ends Uniform := by
  simp only [ShareRange.Bites, not_forall] at hbites
  obtain ⟨draw, huniform, hlost⟩ := hbites
  obtain ⟨width, hstuck⟩ := exists_stuck hminDim hlost
  intro hends
  obtain ⟨limit, hlimit⟩ := hends (Steady Float) ⟨draw⟩ width width (Steady.delivers huniform)
  exact hlimit (run_endless h hminDim hstuck limit)

theorem ranges_engine : (engine range minDim h hminDim).table.ranges = [range] :=
  rfl

end Peel

/-- Valid ranges bite exactly if every engine of that minimum ends that limits its
depth or cuts its regions with nothing but these ranges; and ranges that do not
start too close to zero bite. -/
theorem Engine.ends_iff_bites (ranges : List (ShareRange Float)) (minDim : Float)
    (hvalid : ∀ range ∈ ranges, range.isValid = true)
    (hminDim : 0 < minDim ∧ minDim.isFinite = true) :
    ((∀ range ∈ ranges, range.Bites minDim) ↔
      ∀ (κ : Type) [DecidableEq κ] [RegionKind κ] (engine : Engine κ Float),
        RegionKind.Complete κ → engine.settings.minDim = minDim →
        (engine.settings.maxDepth = none → engine.table.ranges ⊆ ranges) →
        engine.Ends Uniform) ∧
    ((∀ range ∈ ranges, 2 ^ (-52 : Int) ≤ exact range.min) →
      ∀ range ∈ ranges, range.Bites minDim) := by
  refine ⟨⟨?_, ?_⟩, ?_⟩
  · intro hbites κ _ _ engine hcomplete hsame hranges
    apply ends_of_bites hcomplete
    intro hdepth range hrange
    rw [hsame]
    exact hbites range (hranges hdepth hrange)
  · intro hends range hrange
    by_contra hlost
    have hrange' := hvalid range hrange
    refine Peel.not_ends hrange' hminDim hlost
      (hends Peel (Peel.engine range minDim hrange' hminDim) Peel.complete rfl fun _ => ?_)
    rw [Peel.ranges_engine]
    exact fun other hother => List.mem_singleton.mp hother ▸ hrange
  · intro hlow range hrange
    exact ShareRange.bites_of_le (hvalid range hrange) (hlow range hrange) hminDim

namespace Peel

/-- A range of one tiny share. -/
def tiny : ShareRange Float :=
  ⟨1e-20, 1e-20⟩

theorem tiny_isValid : tiny.isValid = true := by
  decide +kernel

theorem one_accepted : (0 : Float) < 1 ∧ (1 : Float).isFinite = true := by
  decide +kernel

theorem stuck_tiny : Stuck 1 (share tiny 0.5) 1 := by
  have hpart : (0 : Float) < 1 * share tiny 0.5 := by decide +kernel
  have hfinite : (1 * share tiny 0.5).isFinite = true := by decide +kernel
  have hsub : 1 - 1 * share tiny 0.5 = 1 := by decide +kernel
  refine ⟨by decide +kernel, ⟨?_, (lt_iff rfl hfinite).mp hpart, hfinite, ?_, ?_⟩, hsub⟩
  · rw [exact_one]
    exact one_pos
  · rw [hsub]
    rfl
  · rw [hsub]

/-- A square of side one whose strips are a tiny share of it is never done. -/
theorem tiny_endless :
    RegionKind.Complete Peel ∧ DrawSource.Delivers Uniform (⟨0.5⟩ : Steady Float) ∧
      (∀ limit, (((engine tiny 1 tiny_isValid one_accepted).run limit 1 1).run
        (⟨0.5⟩ : Steady Float)).1 = .ok none) ∧
      ¬ (engine tiny 1 tiny_isValid one_accepted).Ends Uniform := by
  have hdraws : DrawSource.Delivers Uniform (⟨0.5⟩ : Steady Float) :=
    Steady.delivers ⟨by decide +kernel, by decide +kernel⟩
  have hrun := run_endless tiny_isValid one_accepted stuck_tiny
  refine ⟨complete, hdraws, hrun, fun hends => ?_⟩
  obtain ⟨limit, hlimit⟩ := hends (Steady Float) ⟨0.5⟩ 1 1 hdraws
  exact hlimit (hrun limit)

theorem not_bites_tiny : ¬ tiny.Bites 1 := by
  intro hbites
  have hlost := hbites 0.5 ⟨by decide +kernel, by decide +kernel⟩ 1 rfl (by decide +kernel)
    (by decide +kernel) (by decide +kernel)
  exact absurd hlost (by decide +kernel)

theorem split_isValid : (ShareRange.split : ShareRange Float).isValid = true := by
  decide +kernel

theorem le_split_min : 2 ^ (-52 : Int) ≤ exact (ShareRange.split : ShareRange Float).min := by
  have hunpack : (0.25 : Float).toModel.unpack =
      .finite .positive (2 ^ 52) (-54) (by decide) := rfl
  have hquarter : exact 0.25 = 1 / 4 := by
    rw [exact, hunpack, unpackedValue, signed]
    norm_num
  have hle : (0.25 : Float) ≤ (ShareRange.split : ShareRange Float).min := by decide +kernel
  rw [le_iff rfl (by decide +kernel), hquarter] at hle
  exact le_trans (by norm_num) hle

/-- Strips of the usual shares are cut off only so often, and tiny ones are not. -/
theorem split_ends_tiny_endless :
    (engine .split 1 split_isValid one_accepted).Ends Uniform ∧ ¬ tiny.Bites 1 ∧
      ¬ ∀ (κ : Type) [DecidableEq κ] [RegionKind κ] (engine : Engine κ Float),
        RegionKind.Complete κ → engine.settings.minDim = 1 →
        (engine.settings.maxDepth = none → engine.table.ranges ⊆ [tiny]) →
        engine.Ends Uniform := by
  obtain ⟨husual, hlow⟩ := Engine.ends_iff_bites [.split] 1
    (List.forall_mem_singleton.mpr split_isValid) one_accepted
  obtain ⟨htiny, _⟩ := Engine.ends_iff_bites [tiny] 1
    (List.forall_mem_singleton.mpr tiny_isValid) one_accepted
  have hbites := hlow (List.forall_mem_singleton.mpr le_split_min)
  refine ⟨husual.mp hbites Peel (engine .split 1 split_isValid one_accepted) complete rfl
    fun _ => List.Subset.refl _, not_bites_tiny, fun hends => ?_⟩
  exact not_bites_tiny (htiny.mpr hends tiny List.mem_cons_self)

end Peel

end Parterre
