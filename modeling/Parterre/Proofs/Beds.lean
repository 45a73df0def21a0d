/-
What plantings look like.  The kinds of a division are drawn from the palette of the
bed without replacement, so the beds of one division differ unless they are too
small or replaced at the limit of the depth.
-/
import Parterre.Proofs.Ancestry
import Parterre.Proofs.Plans

namespace Parterre

variable {α σ : Type}

section Untouched

variable {κ : Type} [DecidableEq κ] [RegionKind κ] [Scalar α] {engine : Engine κ α}

/-- The region at the end of the way is not too small, and at the limit of the depth
it keeps the kind that it was given. -/
def Engine.Untouched (engine : Engine κ α) (lineage : Lineage κ α) (way : List Nat)
    (region : Region κ α) : Prop :=
  ¬ engine.settings.Undersized region.bounds ∧
    ∀ line, lineage.at? way = some line → engine.settings.Capped way.length →
      engine.Keeps line.region.kind region.bounds

theorem Engine.le_of_not_undersized [Scalar.Compares α] {bounds : Rect α} (h : bounds.Proper)
    (hlarge : ¬ engine.settings.Undersized bounds) :
    engine.settings.minDim ≤ bounds.width ∧ engine.settings.minDim ≤ bounds.height := by
  have hfinite := engine.minDim_of_accepted.2
  obtain ⟨hwidth, hheight⟩ := not_or.mp hlarge
  constructor
  · exact Scalar.Compares.le_of_not_lt hfinite (h.finite .vertical) hwidth
  · exact Scalar.Compares.le_of_not_lt hfinite (h.finite .horizontal) hheight

/-- Untouched regions have the kinds that they were given. -/
theorem Engine.Decides.kind_eq {depth : Nat} {line : Lineage κ α} {region : Region κ α}
    (h : engine.Decides depth line region) (hlarge : ¬ engine.settings.Undersized region.bounds)
    (hkeeps : engine.settings.Capped depth → engine.Keeps line.region.kind region.bounds) :
    region.kind = line.region.kind := by
  by_cases hstops : engine.settings.Stops region.bounds depth
  · exact (h.stopped hstops).2.1 (hkeeps (hstops.resolve_left hlarge))
  · by_cases hleaf : region.children = []
    · exact congrArg Region.kind (h.ended hstops hleaf).1
    · exact (h.handed hleaf).1

end Untouched

namespace Planting

variable [Scalar α] {admits : α → Prop} {config : Config α} {bounds : Rect α}

/-- The number of beds that a bed is divided into. -/
def divisions (kind : Kind) : Nat :=
  if kind = .root then 4 else 2

/-- What may be decided about a bed. -/
inductive Allows (kind : Kind) : Verdict Kind α → Prop
  | stopped (replacement : Kind) : Allows kind (.stopped replacement)
  | done (hfinal : kind.IsFinal) : Allows kind (.expanded .final)
  | divided {parts : List (Kind × Rect α)} (hlength : parts.length = divisions kind)
      (hdistinct : (parts.map Prod.fst).Nodup)
      (hpalette : ∀ part ∈ parts, part.1 ∈ palette kind) :
      Allows kind (.expanded (.tiled parts))

/-- No kind is in a palette twice. -/
theorem nodup_palette (kind : Kind) : (palette kind).Nodup := by
  cases kind <;> decide

/-- Kinds that are taken out of the palette lay out a bed. -/
theorem allows_of_perm {kind : Kind} {chosen rest : List Kind} {cut : Cut α}
    {rects : List (Rect α)} (hperm : (chosen ++ rest).Perm (palette kind))
    (hparts : cut.parts bounds = .ok rects) (hchosen : chosen.length = divisions kind)
    (harity : cut.arity = divisions kind) :
    Allows kind (.expanded (.tiled (chosen.zip rects))) := by
  have hrects : rects.length = divisions kind := (Cut.length_of_parts hparts).trans harity
  have hkinds : (chosen.zip rects).map Prod.fst = chosen :=
    List.map_fst_zip (by rw [hchosen, hrects])
  refine .divided ?_ ?_ ?_
  · rw [List.length_zip, hchosen, hrects, Nat.min_self]
  · rw [hkinds]
    exact (hperm.nodup_iff.mpr (nodup_palette kind)).of_append_left
  · intro part hpart
    have hmem := List.mem_map_of_mem (f := Prod.fst) hpart
    rw [hkinds] at hmem
    exact hperm.mem_iff.mp (List.mem_append_left rest hmem)

theorem Plans.allows {kind : Kind} {step : Step Kind α} {frame : Kind}
    {expansion : Expansion Kind α} (h : Plans config kind step)
    (hgives : step.Gives admits bounds frame expansion) :
    Allows kind (.expanded expansion) := by
  cases h with
  | quarters =>
      cases hgives with
      | laid hlays hparts =>
          cases hlays with
          | mixFour hperm hlength => exact allows_of_perm hperm hparts hlength rfl
  | halves hroot _ =>
      cases hgives with
      | laid hlays hparts =>
          cases hlays with
          | mixTwo hperm hlength _ _ =>
              have htwo : divisions kind = 2 := if_neg hroot
              exact allows_of_perm hperm hparts (hlength.trans htwo.symm) htwo.symm
  | done hfinal =>
      cases hgives with
      | terminal => exact .done hfinal
      | laid hlays _ => cases hlays

section Built

variable {built : Engine Kind α}

theorem rule?_eq_terminal_iff (h : engine config = .ok built) {kind : Kind} :
    built.table.rule? kind = some (.always .terminal) ↔ kind.IsFinal := by
  rw [RuleTable.rule?_of_ofFunction complete (of_engine h).2.1, Option.some.injEq]
  constructor
  · intro hrule
    cases kind with
    | grass | fountain => decide
    | _ => cases hrule
  · intro hfinal
    cases kind with
    | grass | fountain => rfl
    | _ => exact absurd hfinal (by decide)

theorem allows_of_judge (h : engine config = .ok built) {kind : Kind} {depth : Nat}
    {verdict : Verdict Kind α}
    (hjudge : Sampler.Outcome admits (built.judge kind bounds depth) (.ok verdict)) :
    Allows kind verdict := by
  rcases Engine.outcome_judge hjudge with
    ⟨_, replacement, rfl, _⟩ | ⟨_, given, step, expansion, hrule, hsettle, hgives, rfl⟩
  · exact .stopped replacement
  · exact (plans_of_settle h hrule hsettle).allows hgives

end Built

/-- What a bed looks like at the end of a way.  Nothing is embedded, a bed is divided
into the number of beds of its kind, those of them that are untouched have different
kinds of its palette, and only the limit of the depth leaves kinds that are not
final. -/
structure Looks (config : Config α) (built : Engine Kind α) (lineage : Lineage Kind α)
    (way : List Nat) (region : Region Kind α) : Prop where
  plain : ∀ margin, region.composition ≠ some (.embedded margin)
  divided : region.state = .expanded → region.children.length = divisions region.kind
  mixed : ∀ place child, region.children[place]? = some child →
    built.Untouched lineage (way ++ [place]) child →
      child.kind ∈ palette region.kind ∧
      ∀ other sibling, region.children[other]? = some sibling → other ≠ place →
        built.Untouched lineage (way ++ [other]) sibling → sibling.kind ≠ child.kind
  leaf : region.children = [] → ¬ region.kind.IsFinal →
    config.keepKindsAtMaxDepth = true ∧ config.maxDepth = some way.length ∧
      config.minDim ≤ region.bounds.width ∧ config.minDim ≤ region.bounds.height

section Lines

variable {built : Engine Kind α} {depth : Nat} {line : Lineage Kind α}

/-- Nothing is embedded in a bed. -/
theorem features_eq_nil (h : engine config = .ok built)
    (hrecords : built.Records admits depth line) : line.region.verdict.features = [] := by
  have hallows := allows_of_judge h hrecords.verdict
  cases hverdict : line.region.verdict with
  | stopped replacement => rfl
  | expanded expansion =>
      rw [hverdict] at hallows
      cases hallows <;> rfl

theorem composition_ne_embedded (h : engine config = .ok built)
    (hrecords : built.Records admits depth line) (margin : α) :
    line.tree.composition ≠ some (.embedded margin) := by
  intro hcomposition
  obtain ⟨frame, feature, hverdict⟩ := Lineage.composition_tree_iff.mp hcomposition
  have hnone := features_eq_nil h hrecords
  rw [hverdict] at hnone
  cases hnone

/-- Every bed has a line. -/
theorem exists_line (h : engine config = .ok built) (hrecords : built.Records admits depth line)
    {way : List Nat} {region : Region Kind α} (hregion : line.tree.at? way = some region) :
    ∃ found, line.at? way = some found ∧ found.tree = region := by
  rcases hrecords.at_cases hregion with
    hfound | ⟨_, above, parent, frame, margin, _, hparent, hverdict⟩
  · exact hfound
  · have hnone := features_eq_nil h (hrecords.of_at hparent)
    rw [hverdict] at hnone
    cases hnone

/-- The lines below a bed have different kinds of its palette. -/
theorem kinds_of_expanded (h : engine config = .ok built)
    (hrecords : built.Records admits depth line) (hstate : line.tree.state = .expanded) :
    line.children.length = divisions line.region.kind ∧
      (line.children.map fun child => child.region.kind).Nodup ∧
      ∀ child ∈ line.children, child.region.kind ∈ palette line.region.kind := by
  have hallows := allows_of_judge h hrecords.verdict
  have hgiven := hrecords.given_children
  rw [line.tree_eq_graft] at hstate
  have hfirst : line.children.map (fun child => child.region.kind) =
      line.region.verdict.pending.map Prod.fst := by
    rw [← hgiven, List.map_map]
    rfl
  generalize line.region.verdict = verdict at *
  cases hallows with
  | stopped _ => cases hstate
  | done _ => cases hstate
  | divided hlength hdistinct hpalette =>
      refine ⟨?_, ?_, ?_⟩
      · rw [← hlength, ← List.length_map (f := Lineage.given), hgiven]
        rfl
      · rw [hfirst]
        exact hdistinct
      · intro child hchild
        have hpart := List.mem_map_of_mem (f := Lineage.given) hchild
        rw [hgiven] at hpart
        exact hpalette _ hpart

theorem divided_of_records (h : engine config = .ok built)
    (hrecords : built.Records admits depth line) (hstate : line.tree.state = .expanded) :
    line.tree.children.length = divisions line.tree.kind := by
  rw [Lineage.kind_tree hstate, ← (kinds_of_expanded h hrecords hstate).1,
    hrecords.children_tree, features_eq_nil h hrecords, List.map_nil, List.append_nil,
    List.length_map]

/-- An untouched bed of a division has the kind that its line was given. -/
theorem line_of_untouched (h : engine config = .ok built)
    (hrecords : built.Records admits 0 line) {way : List Nat} {found : Lineage Kind α}
    (hfound : line.at? way = some found) {place : Nat} {child : Region Kind α}
    (hchild : found.tree.children[place]? = some child)
    (huntouched : built.Untouched line (way ++ [place]) child) :
    ∃ next, found.children[place]? = some next ∧ child.kind = next.region.kind := by
  have hlines := hrecords.of_at hfound
  rcases hlines.child_cases hchild with ⟨next, hnext, rfl⟩ | ⟨_, _, frame, margin, hverdict⟩
  · have hway : line.at? (way ++ [place]) = some next := by
      rw [Lineage.at?_append, hfound, Option.bind_some, Lineage.at?, hnext]
      rfl
    have hdecides := (hrecords.of_at hway).decides
    obtain ⟨hlarge, hkeeps⟩ := huntouched
    rw [Nat.zero_add] at hdecides
    exact ⟨next, hnext, hdecides.kind_eq hlarge (hkeeps next hway)⟩
  · have hnone := features_eq_nil h hlines
    rw [hverdict] at hnone
    cases hnone

/-- The untouched beds of a division have different kinds of the palette. -/
theorem mixed_of_records (h : engine config = .ok built)
    (hrecords : built.Records admits 0 line) {way : List Nat} {found : Lineage Kind α}
    (hfound : line.at? way = some found) {place : Nat} {child : Region Kind α}
    (hchild : found.tree.children[place]? = some child)
    (huntouched : built.Untouched line (way ++ [place]) child) :
    child.kind ∈ palette found.tree.kind ∧
      ∀ other sibling, found.tree.children[other]? = some sibling → other ≠ place →
        built.Untouched line (way ++ [other]) sibling → sibling.kind ≠ child.kind := by
  have hstate : found.tree.state = .expanded :=
    Lineage.expanded_of_children (List.ne_nil_of_mem (List.mem_of_getElem? hchild))
  obtain ⟨_, hdistinct, hpalette⟩ := kinds_of_expanded h (hrecords.of_at hfound) hstate
  obtain ⟨next, hnext, hkind⟩ := line_of_untouched h hrecords hfound hchild huntouched
  rw [Lineage.kind_tree hstate, hkind]
  refine ⟨hpalette next (List.mem_of_getElem? hnext), ?_⟩
  intro other sibling hsibling hne hstays hsame
  obtain ⟨last, hlast, hlastKind⟩ := line_of_untouched h hrecords hfound hsibling hstays
  apply hne
  have hplaces : (found.children.map fun child => child.region.kind)[other]? =
      (found.children.map fun child => child.region.kind)[place]? := by
    rw [List.getElem?_map, List.getElem?_map, hnext, hlast, Option.map_some, Option.map_some,
      ← hlastKind, hsame]
  have hlt := (List.getElem?_eq_some_iff.mp hlast).1
  exact (List.getElem?_inj (by simpa using hlt) hdistinct).mp hplaces

/-- Only the limit of the depth leaves a kind that is not final. -/
theorem leaf_of_records [Scalar.Compares α] (h : engine config = .ok built)
    (hrecords : built.Records admits 0 line) (hproper : line.region.bounds.Proper)
    {way : List Nat} {found : Lineage Kind α} (hfound : line.at? way = some found)
    (hleaf : found.tree.children = []) (hopen : ¬ found.tree.kind.IsFinal) :
    config.keepKindsAtMaxDepth = true ∧ config.maxDepth = some way.length ∧
      config.minDim ≤ found.tree.bounds.width ∧ config.minDim ≤ found.tree.bounds.height := by
  have hlines := hrecords.of_at hfound
  have hdecides := hlines.decides
  rw [Nat.zero_add] at hdecides
  obtain ⟨_, _, _, hsettings⟩ := of_engine h
  by_cases hstops : built.settings.Stops found.tree.bounds way.length
  · obtain ⟨_, hkept, hreplaced⟩ := hdecides.stopped hstops
    by_cases hkeeps : built.Keeps found.region.kind found.tree.bounds
    · rw [hkept hkeeps] at hopen
      obtain ⟨hlarge, hkeep⟩ := hkeeps.resolve_left (mt (rule?_eq_terminal_iff h).mp hopen)
      obtain ⟨cap, hcap, hreached⟩ := hstops.resolve_left hlarge
      have hle : way.length ≤ cap := by
        rcases hrecords.length_le (hrecords.at_tree hfound) hcap with rfl | hle
        · exact Nat.zero_le cap
        · rwa [Nat.zero_add] at hle
      obtain rfl := Nat.le_antisymm hle hreached
      have hsides := Engine.le_of_not_undersized (hrecords.proper hproper hfound)
        (found.bounds_tree ▸ hlarge)
      rw [hsettings] at hkeep hcap hsides
      rw [Lineage.bounds_tree]
      exact ⟨hkeep, hcap, hsides⟩
    · have hfinal := Engine.rule?_of_mem_kinds (hreplaced hkeeps)
      exact absurd ((rule?_eq_terminal_iff h).mp hfinal) hopen
  · -- no rule but that of a final kind leaves a bed alone
    obtain ⟨hfinal, hverdict, _⟩ := hdecides.ended hstops hleaf
    have hallows := allows_of_judge h hlines.verdict
    rw [hverdict] at hallows
    rw [hfinal] at hopen
    cases hallows with
    | done hkind => exact absurd hkind hopen

end Lines

/-- In the layouts of a planting every bed looks as the rules of the planting say,
whatever is drawn.  The kinds that the beds were given are in the lineage that the
same draws lead to. -/
theorem run_beds [Scalar.Compares α] [DrawSource σ α] {built : Engine Kind α}
    (h : engine config = .ok built) {limit : Nat} {width length : α} {source after : σ}
    {generation : Generation Kind α}
    (hrun : (built.run limit width length).run source = (.ok (some generation), after)) :
    ∃ height lineage,
      (built.lineages height 0 [(built.settings.root, ⟨0, 0, width, length⟩)]).run source =
        (.ok (some [lineage]), after) ∧
      lineage.tree = generation.root ∧
      ∀ way region, generation.root.at? way = some region →
        (∃ line, lineage.at? way = some line ∧ built.Decides way.length line region) ∧
        Looks config built lineage way region := by
  obtain ⟨height, lineage, hlineages, htree, hgiven, hproper, hrecords⟩ :=
    Engine.exists_proper_lineage hrun
  refine ⟨height, lineage, hlineages, htree, ?_⟩
  rw [← htree]
  intro way region hregion
  obtain ⟨line, hline, rfl⟩ := exists_line h hrecords hregion
  have hlines := hrecords.of_at hline
  have hdecides := hlines.decides
  rw [Nat.zero_add] at hdecides
  refine ⟨⟨line, hline, hdecides⟩, ?_⟩
  exact {
    plain := composition_ne_embedded h hlines
    divided := divided_of_records h hlines
    mixed := fun _ _ hchild huntouched => mixed_of_records h hrecords hline hchild huntouched
    leaf := leaf_of_records h hrecords hproper hline }

/-- The quarters of the small planting are large enough, so all four kinds of beds
are there. -/
theorem run_beds_small :
    ∃ generation after,
      (small.run 40 100 90).run (⟨1 / 4⟩ : Steady Rat) = (.ok (some generation), after) ∧
      generation.root.children.map Region.kind = [.forest, .flowerGarden, .fountain, .pond] ∧
      ∃ lineage, lineage.tree = generation.root ∧
        ∀ way region, generation.root.at? way = some region →
          Looks .small small lineage way region := by
  have hfinished : (Engine.finished ((small.run 40 100 90).run (⟨1 / 4⟩ : Steady Rat))).map
      (fun generation => generation.root.children.map Region.kind) =
      some [.forest, .flowerGarden, .fountain, .pond] := by
    decide +kernel
  obtain ⟨generation, hgeneration, hkinds⟩ := Option.map_eq_some_iff.mp hfinished
  obtain ⟨after, hrun⟩ := Engine.eq_of_finished hgeneration
  obtain ⟨_, lineage, _, htree, hlooks⟩ := run_beds engine_small hrun
  exact ⟨generation, after, hrun, hkinds, lineage, htree,
    fun way region hregion => (hlooks way region hregion).2⟩

end Planting

end Parterre
