/-
How a finished tree grows.  Every region is what some verdict on its kind and
rectangle makes of the trees of its pending children; only the features of
embedded pairs are not decided about.
-/
import Parterre.Proofs.LevelOrder

namespace Parterre

variable {κ α σ : Type}

/-- Regions that related trees have the rectangles of are the regions
themselves. -/
theorem map_bounds_of_forall₂ {parts : List (κ × Rect α)} {below : List (Region κ α)}
    (h : List.Forall₂ (fun part region => region.bounds = part.2) parts below) :
    below.map Region.bounds = parts.map Prod.snd := by
  induction h with
  | nil => rfl
  | cons hfirst _ ih => rw [List.map_cons, List.map_cons, hfirst, ih]

@[simp]
theorem Verdict.bounds_graft (verdict : Verdict κ α) (kind : κ) (bounds : Rect α)
    (below : List (Region κ α)) : (verdict.graft kind bounds below).bounds = bounds := by
  rcases verdict with replacement | (_ | parts | ⟨frame, feature, margin⟩) <;> rfl

/-- A child of a region is the tree of a pending child or a final feature. -/
theorem Verdict.mem_children_graft {verdict : Verdict κ α} {kind : κ} {bounds : Rect α}
    {below : List (Region κ α)} {child : Region κ α}
    (h : child ∈ (verdict.graft kind bounds below).children) :
    child ∈ below ∨ child = .final child.kind child.bounds := by
  rcases verdict with replacement | (_ | parts | ⟨frame, feature, margin⟩)
  · cases h
  · cases h
  · exact Or.inl h
  · rcases List.mem_append.mp h with hbelow | hfeature
    · exact Or.inl hbelow
    · obtain rfl := List.mem_singleton.mp hfeature
      exact Or.inr rfl

theorem Region.wellFormed_final [Scalar α] (kind : κ) (bounds : Rect α) :
    (Region.final kind bounds).WellFormed := by
  constructor <;> simp [Region.final, Region.state, Region.composition, Region.children]

namespace Engine

variable [DecidableEq κ] [RegionKind κ] [Scalar α]

mutual

/-- The tree grows from a region of the given depth, kind and rectangle. -/
inductive Grown (engine : Engine κ α) (admits : α → Prop) :
    Nat → κ → Rect α → Region κ α → Prop
  | node {depth : Nat} {kind : κ} {bounds : Rect α} {verdict : Verdict κ α}
      {below : List (Region κ α)}
      (hverdict : Sampler.Outcome admits (engine.judge kind bounds depth) (.ok verdict))
      (hbelow : GrownAll engine admits (depth + 1) verdict.pending below) :
      Grown engine admits depth kind bounds (verdict.graft kind bounds below)

/-- The trees grow from the regions of one depth. -/
inductive GrownAll (engine : Engine κ α) (admits : α → Prop) :
    Nat → List (κ × Rect α) → List (Region κ α) → Prop
  | nil {depth : Nat} : GrownAll engine admits depth [] []
  | cons {depth : Nat} {part : κ × Rect α} {parts : List (κ × Rect α)}
      {region : Region κ α} {regions : List (Region κ α)}
      (hfirst : Grown engine admits depth part.1 part.2 region)
      (hrest : GrownAll engine admits depth parts regions) :
      GrownAll engine admits depth (part :: parts) (region :: regions)

end

variable {engine : Engine κ α} {admits : α → Prop}

/-- Induction over growth: what every verdict hands on from the trees of the
pending children to the region holds of every grown tree. -/
@[elab_as_elim]
theorem Grown.induct {motive : Nat → κ → Rect α → Region κ α → Prop}
    (node : ∀ depth kind bounds verdict below,
      Sampler.Outcome admits (engine.judge kind bounds depth) (.ok verdict) →
      List.Forall₂ (fun part region => motive (depth + 1) part.1 part.2 region)
        verdict.pending below →
      motive depth kind bounds (verdict.graft kind bounds below))
    {depth : Nat} {kind : κ} {bounds : Rect α} {region : Region κ α}
    (h : engine.Grown admits depth kind bounds region) :
    motive depth kind bounds region := by
  apply @Grown.rec κ α _ _ _ engine admits
    (fun depth kind bounds region _ => motive depth kind bounds region)
    (fun depth parts regions _ => List.Forall₂
      (fun part region => motive depth part.1 part.2 region) parts regions)
  · intro depth kind bounds verdict below hverdict _ ih
    exact node depth kind bounds verdict below hverdict ih
  · exact .nil
  · intro depth part parts region regions _ _ hfirst hrest
    exact .cons hfirst hrest
  · exact h

theorem grownAll_iff {depth : Nat} {parts : List (κ × Rect α)} {regions : List (Region κ α)} :
    engine.GrownAll admits depth parts regions ↔
      List.Forall₂ (fun part region => engine.Grown admits depth part.1 part.2 region)
        parts regions := by
  constructor
  · intro h
    induction parts generalizing regions with
    | nil =>
        cases h
        exact .nil
    | cons part rest ih =>
        cases h with
        | cons hfirst hrest => exact .cons hfirst (ih hrest)
  · intro h
    induction h with
    | nil => exact .nil
    | cons hfirst _ ih => exact .cons hfirst ih

/-- Every region of a grown tree is grown itself, but for the features. -/
theorem Grown.of_mem_walk {depth : Nat} {kind : κ} {bounds : Rect α} {region found : Region κ α}
    (h : engine.Grown admits depth kind bounds region) (hfound : found ∈ region.walk) :
    (∃ depth kind bounds, engine.Grown admits depth kind bounds found) ∨
      found = .final found.kind found.bounds := by
  suffices hboth : engine.Grown admits depth kind bounds region ∧ ∀ found ∈ region.walk,
      (∃ depth kind bounds, engine.Grown admits depth kind bounds found) ∨
        found = .final found.kind found.bounds from hboth.2 found hfound
  refine Grown.induct (motive := fun depth kind bounds region =>
    engine.Grown admits depth kind bounds region ∧ ∀ found ∈ region.walk,
      (∃ depth kind bounds, engine.Grown admits depth kind bounds found) ∨
        found = .final found.kind found.bounds) ?_ h
  intro depth kind bounds verdict below hverdict ih
  have hgrown : engine.Grown admits depth kind bounds (verdict.graft kind bounds below) :=
    .node hverdict (grownAll_iff.mpr (ih.imp fun _ _ hpart => hpart.1))
  refine ⟨hgrown, fun found hfound => ?_⟩
  rcases Region.mem_walk_iff.mp hfound with rfl | ⟨child, hchild, hmem⟩
  · exact Or.inl ⟨depth, kind, bounds, hgrown⟩
  · rcases Verdict.mem_children_graft hchild with hbelow | hfeature
    · obtain ⟨_, _, _, hwalk⟩ := exists_of_forall₂_of_mem ih hbelow
      exact hwalk found hmem
    · rw [hfeature, Region.walk_of_leaf rfl, List.mem_singleton] at hmem
      rw [hmem]
      exact Or.inr rfl

theorem Grown.bounds_eq {depth : Nat} {kind : κ} {bounds : Rect α} {region : Region κ α}
    (h : engine.Grown admits depth kind bounds region) : region.bounds = bounds := by
  cases h
  exact Verdict.bounds_graft _ _ _ _

/-- What fits is well formed. -/
theorem Grown.wellFormed {depth : Nat} {kind : κ} {bounds : Rect α} {region : Region κ α}
    (h : engine.Grown admits depth kind bounds region) : region.WellFormed := by
  cases h with
  | @node _ _ _ verdict below hverdict hbelow =>
      have hparts := grownAll_iff.mp hbelow
      cases fits_of_outcome hverdict with
      | stopped replacement => exact Region.wellFormed_final replacement bounds
      | final => exact Region.wellFormed_final kind bounds
      | tiled hsome =>
          have hchildren : below ≠ [] := by
            rintro rfl
            exact hsome (List.forall₂_nil_right_iff.mp hparts)
          constructor <;> simp [Verdict.graft, Region.state, Region.composition,
            Region.children, hchildren]
      | @embedded frame feature margin hframe hinset =>
          obtain ⟨frameTree, rest, hfirst, hrest, rfl⟩ := List.forall₂_cons_left_iff.mp hparts
          obtain rfl := List.forall₂_nil_left_iff.mp hrest
          constructor
          case pair =>
            intro other hother
            cases hother
            exact ⟨frameTree, .final feature.1 feature.2, rfl,
              hfirst.bounds_eq.trans hframe, rfl, rfl, hinset⟩
          all_goals simp [Verdict.graft, Region.state, Region.composition, Region.children]

theorem Grown.wellFormed_of_mem_walk {depth : Nat} {kind : κ} {bounds : Rect α}
    {region found : Region κ α} (h : engine.Grown admits depth kind bounds region)
    (hfound : found ∈ region.walk) : found.WellFormed := by
  rcases h.of_mem_walk hfound with ⟨_, _, _, hgrown⟩ | hfinal
  · exact hgrown.wellFormed
  · rw [hfinal]
    exact Region.wellFormed_final _ _

theorem GrownAll.split {depth : Nat} {first second : List (κ × Rect α)}
    {regions : List (Region κ α)}
    (h : engine.GrownAll admits depth (first ++ second) regions) :
    engine.GrownAll admits depth first (regions.take first.length) ∧
      engine.GrownAll admits depth second (regions.drop first.length) := by
  induction first generalizing regions with
  | nil => exact ⟨.nil, h⟩
  | cons part rest ih =>
      cases h with
      | cons hfirst hrest =>
          obtain ⟨hown, hothers⟩ := ih hrest
          exact ⟨.cons hfirst hown, hothers⟩

/-- Trees that grow from the pending children of a level make the level
grow. -/
theorem grownAll_graftAll {depth : Nat} {regions : List (κ × Rect α)}
    {judged : List (Judged κ α)} {below : List (Region κ α)}
    (hjudged : Sampler.Outcome admits (engine.judgeLevel depth regions) (.ok judged))
    (hbelow : engine.GrownAll admits (depth + 1)
      (judged.flatMap fun region => region.verdict.pending) below) :
    engine.GrownAll admits depth regions (graftAll judged below) := by
  have hparts := forall₂_of_outcome_judgeLevel hjudged
  clear hjudged
  induction hparts generalizing below with
  | nil => exact .nil
  | cons hfirst _ ih =>
      obtain ⟨rfl, hverdict⟩ := hfirst
      obtain ⟨hown, hlater⟩ := GrownAll.split hbelow
      exact .cons (.node hverdict hown) (ih hlater)

theorem grownAll_of_levels {height depth : Nat} {regions : List (κ × Rect α)}
    {trees : List (Region κ α)}
    (h : Sampler.Outcome admits (engine.levels height depth regions)
      (.ok (some trees))) :
    engine.GrownAll admits depth regions trees := by
  induction height generalizing depth regions trees with
  | zero =>
      by_cases hregions : regions = []
      · subst hregions
        simp only [levels_nil, Sampler.outcome_pure_iff, Except.ok.injEq,
          Option.some.injEq] at h
        subst h
        exact .nil
      · simp [engine.levels_zero depth hregions] at h
  | succ height ih =>
      by_cases hregions : regions = []
      · subst hregions
        simp only [levels_nil, Sampler.outcome_pure_iff, Except.ok.injEq,
          Option.some.injEq] at h
        subst h
        exact .nil
      · simp only [engine.levels_succ height depth hregions,
          Sampler.outcome_bind_ok_iff, Sampler.outcome_pure_iff, Except.ok.injEq] at h
        obtain ⟨judged, hjudged, below, hbelow, htrees⟩ := h
        obtain ⟨given, rfl, rfl⟩ := Option.map_eq_some_iff.mp htrees.symm
        exact grownAll_graftAll hjudged (ih hbelow)

/-- The tree of a run grows from its root. -/
theorem grown_of_run [DrawSource σ α] {limit : Nat} {width length : α}
    {source after : σ} {generation : Generation κ α}
    (hsource : DrawSource.Delivers admits source)
    (hrun : (engine.run limit width length).run source =
      (.ok (some generation), after)) :
    engine.Grown admits 0 engine.settings.root ⟨0, 0, width, length⟩
      generation.root := by
  obtain ⟨height, hheight⟩ := runByLevels_of_run hrun (by simp)
  obtain ⟨houtcome, _⟩ :=
    Sampler.outcome_of_run hsource (hheight height (Nat.le_refl _))
  simp only [runByLevels, Sampler.outcome_bind_ok_iff, Sampler.outcome_lift_iff] at houtcome
  obtain ⟨bounds, hbounds, hlevels⟩ := houtcome
  obtain ⟨rfl, _⟩ := Rect.checked_eq_ok_iff.mp hbounds.symm
  cases grownAll_of_levels hlevels with
  | cons hfirst _ => exact hfirst

theorem wellFormed_of_run [DrawSource σ α] {limit : Nat} {width length : α}
    {source after : σ} {generation : Generation κ α}
    (hrun : (engine.run limit width length).run source = (.ok (some generation), after)) :
    ∀ region ∈ generation.root.walk, region.WellFormed :=
  fun _ => (grown_of_run (DrawSource.delivers_any source) hrun).wellFormed_of_mem_walk

end Engine

end Parterre
