/-
What stopping does to kinds.  A region that is too small or too deep ends as a
leaf, and only there may the kind it was given be replaced by one of the
safeguard; all other regions keep the kind they were given.
-/
import Parterre.Proofs.Lineage
import Parterre.Proofs.WellFormed

namespace Parterre

variable {κ α σ : Type}

/-- The way leads to the feature of an embedded pair. -/
def Region.IsFeatureAt (root : Region κ α) (way : List Nat) : Prop :=
  ∃ above parent margin, way = above ++ [1] ∧ root.at? above = some parent ∧
    parent.composition = some (.embedded margin)

theorem Lineage.composition_tree_iff {line : Lineage κ α} {margin : α} :
    line.tree.composition = some (.embedded margin) ↔
      ∃ frame feature, line.region.verdict = .expanded (.embedded frame feature margin) := by
  obtain ⟨⟨kind, bounds, verdict⟩, children⟩ := line
  rcases verdict with replacement | (_ | parts | ⟨frame, feature, gap⟩) <;>
    simp [tree, Lineage.region, Verdict.graft, Region.composition, Region.final]

namespace Settings

variable {settings : Settings κ α}

/-- There is a limit for the depth, and the depth has reached it. -/
def Capped (settings : Settings κ α) (depth : Nat) : Prop :=
  ∃ cap, settings.maxDepth = some cap ∧ cap ≤ depth

theorem isCapped_iff {depth : Nat} : settings.isCapped depth = true ↔ settings.Capped depth := by
  rw [isCapped, Capped]
  cases settings.maxDepth with
  | none => simp
  | some cap => simp

variable [Scalar α]

/-- Some side is shorter than the minimum. -/
def Undersized (settings : Settings κ α) (bounds : Rect α) : Prop :=
  bounds.width < settings.minDim ∨ bounds.height < settings.minDim

theorem isUndersized_iff {bounds : Rect α} :
    settings.isUndersized bounds = true ↔ settings.Undersized bounds := by
  simp [isUndersized, Undersized]

/-- The region is not expanded. -/
def Stops (settings : Settings κ α) (bounds : Rect α) (depth : Nat) : Prop :=
  settings.Undersized bounds ∨ settings.Capped depth

end Settings

variable [Scalar α]

theorem Safeguard.mem_kinds_of_draw {safeguard : Safeguard κ α} {admits : α → Prop} {kind : κ}
    (h : Sampler.Outcome admits safeguard.draw (.ok kind)) : kind ∈ safeguard.kinds := by
  have hlast : ∀ choice ∈ safeguard.choices, choice.2 ∈ safeguard.kinds :=
    fun choice hchoice => List.mem_map.mpr ⟨choice, hchoice, rfl⟩
  rw [draw] at h
  split at h
  · obtain rfl := Except.ok.inj (Sampler.outcome_pure_iff.mp h)
    exact hlast _ List.mem_cons_self
  · simp only [Sampler.outcome_bind_ok_iff, Sampler.outcome_pure_iff, Except.ok.injEq] at h
    obtain ⟨value, _, rfl⟩ := h
    rw [pick]
    split
    · rename_i position _
      rw [kindAt]
      cases hchoice : safeguard.choices[position]? with
      | none => exact hlast _ (List.getLast_mem _)
      | some choice => exact hlast _ (List.mem_of_getElem? hchoice)
    · exact hlast _ (List.getLast_mem _)

variable [DecidableEq κ] [RegionKind κ]

namespace Engine

variable {engine : Engine κ α} {admits : α → Prop}

/-- The rule of the kind may make the expansion of a region. -/
def Resolves (engine : Engine κ α) (kind : κ) (bounds : Rect α) (expansion : Expansion κ α) :
    Prop :=
  ∃ rule, engine.table.rule? kind = some rule ∧
    Sampler.Outcome (fun _ => True) (rule.expand bounds engine.settings.frame) (.ok expansion)

/-- A stopped region of the kind keeps it: its rule leaves every region alone, or
only the depth stops it and kinds are kept there. -/
def Keeps (engine : Engine κ α) (kind : κ) (bounds : Rect α) : Prop :=
  engine.table.rule? kind = some (.always .terminal) ∨
    ¬ engine.settings.Undersized bounds ∧ engine.settings.keepAtMaxDepth = true

theorem keepsKind_iff {kind : κ} {bounds : Rect α} :
    engine.keepsKind kind bounds = true ↔ engine.Keeps kind bounds := by
  rw [keepsKind, Keeps, Bool.or_eq_true, Bool.and_eq_true, Bool.not_eq_true',
    ← Bool.not_eq_true, Settings.isUndersized_iff, RuleTable.isTerminal_iff]

/-- The kinds of the safeguard are final. -/
theorem rule?_of_mem_kinds {kind : κ} (h : kind ∈ engine.settings.safeguard.kinds) :
    engine.table.rule? kind = some (.always .terminal) := by
  obtain ⟨_, _, hkinds⟩ := bind_eq_ok_iff.mp engine.accepted
  split at hkinds
  · cases hkinds
  · rename_i hnone
    have hterminal := List.find?_eq_none.mp hnone kind h
    rw [decide_eq_true_eq, Decidable.not_not] at hterminal
    exact RuleTable.isTerminal_iff.mp hterminal

/-- A region is stopped as it must be, or expanded by its rule. -/
inductive Settles (engine : Engine κ α) (depth : Nat) (kind : κ) (bounds : Rect α) :
    Verdict κ α → Prop
  | kept (hstops : engine.settings.Stops bounds depth)
      (hkeeps : engine.Keeps kind bounds) : Settles engine depth kind bounds (.stopped kind)
  | replaced {final : κ}
      (hstops : engine.settings.Stops bounds depth)
      (hkeeps : ¬ engine.Keeps kind bounds) (hfinal : final ∈ engine.settings.safeguard.kinds) :
      Settles engine depth kind bounds (.stopped final)
  | expanded {expansion : Expansion κ α}
      (hgoes : ¬ engine.settings.Stops bounds depth)
      (hresolves : engine.Resolves kind bounds expansion) :
      Settles engine depth kind bounds (.expanded expansion)

theorem settles_of_judge {depth : Nat} {kind : κ} {bounds : Rect α} {verdict : Verdict κ α}
    (h : Sampler.Outcome admits (engine.judge kind bounds depth) (.ok verdict)) :
    engine.Settles depth kind bounds verdict := by
  unfold judge at h
  split at h
  · rename_i hstops
    rw [Bool.or_eq_true, Settings.isUndersized_iff, Settings.isCapped_iff] at hstops
    split at h
    · rename_i hkeeps
      obtain rfl := Except.ok.inj (Sampler.outcome_pure_iff.mp h)
      exact .kept hstops (keepsKind_iff.mp hkeeps)
    · rename_i hkeeps
      simp only [Sampler.outcome_bind_ok_iff, Sampler.outcome_pure_iff,
        Except.ok.injEq] at h
      obtain ⟨final, hfinal, rfl⟩ := h
      exact .replaced hstops (mt keepsKind_iff.mpr hkeeps) (Safeguard.mem_kinds_of_draw hfinal)
  · rename_i hgoes
    rw [Bool.or_eq_true, Settings.isUndersized_iff, Settings.isCapped_iff] at hgoes
    simp only [Sampler.outcome_bind_ok_iff, Sampler.outcome_lift_iff,
      Sampler.outcome_pure_iff, Except.ok.injEq] at h
    obtain ⟨rule, hrule, expansion, hexpansion, rfl⟩ := h
    exact .expanded hgoes ⟨rule, RuleTable.rule_eq_ok_iff.mp hrule.symm,
      hexpansion.mono fun _ _ => trivial⟩

/-- How a region of the given depth ends, when its line says what it was given:
a stopped region is a leaf and keeps its kind or takes one of the safeguard, a
leaf that was not stopped was left alone by the rule of its kind, and every other
region was expanded by that rule, which gave the children their kinds. -/
structure Decides (engine : Engine κ α) (depth : Nat) (line : Lineage κ α)
    (region : Region κ α) : Prop where
  bounds : region.bounds = line.region.bounds
  goes : region.state = .expanded → ¬ engine.settings.Stops region.bounds depth
  stopped : engine.settings.Stops region.bounds depth →
    region = .final region.kind region.bounds ∧
      (engine.Keeps line.region.kind region.bounds → region.kind = line.region.kind) ∧
      (¬ engine.Keeps line.region.kind region.bounds →
        region.kind ∈ engine.settings.safeguard.kinds)
  ended : ¬ engine.settings.Stops region.bounds depth → region.children = [] →
    region = .final line.region.kind region.bounds ∧
      line.region.verdict = .expanded .final ∧
      engine.Resolves line.region.kind region.bounds .final
  handed : region.children ≠ [] → region.kind = line.region.kind ∧ ∃ expansion,
    line.region.verdict = .expanded expansion ∧
      engine.Resolves line.region.kind region.bounds expansion ∧
      line.children.map Lineage.given = (Verdict.expanded expansion).pending

theorem Decides.of_stops {depth : Nat} {line : Lineage κ α} {final : κ}
    (hstops : engine.settings.Stops line.region.bounds depth)
    (hkept : engine.Keeps line.region.kind line.region.bounds → final = line.region.kind)
    (hreplaced : ¬ engine.Keeps line.region.kind line.region.bounds →
      final ∈ engine.settings.safeguard.kinds) :
    engine.Decides depth line (.final final line.region.bounds) where
  bounds := rfl
  goes := fun hstate => by cases hstate
  stopped := fun _ => ⟨rfl, hkept, hreplaced⟩
  ended := fun hgoes => absurd hstops hgoes
  handed := fun hsome => absurd rfl hsome

/-- Every line decides about its region. -/
theorem Records.decides {depth : Nat} {line : Lineage κ α}
    (h : engine.Records admits depth line) : engine.Decides depth line line.tree := by
  have hsettles := settles_of_judge h.verdict
  have hfits := fits_of_outcome h.verdict
  have hgiven := h.given_children
  obtain ⟨⟨kind, bounds, verdict⟩, children⟩ := line
  simp only [Lineage.region, Lineage.children] at hsettles hfits hgiven
  cases hsettles with
  | kept hstops hkeeps => exact .of_stops hstops (fun _ => rfl) (absurd hkeeps)
  | replaced hstops hkeeps hfinal =>
      exact .of_stops hstops (fun hyes => absurd hyes hkeeps) fun _ => hfinal
  | @expanded expansion hgoes hresolves =>
      cases expansion with
      | final =>
          exact {
            bounds := rfl
            goes := fun hstate => by cases hstate
            stopped := fun hstops => absurd hstops hgoes
            ended := fun _ _ => ⟨rfl, rfl, hresolves⟩
            handed := fun hsome => absurd rfl hsome }
      | tiled parts =>
          have hsome : Lineage.treeAll children ≠ [] := by
            rw [Lineage.treeAll_eq_map, Ne, List.map_eq_nil_iff]
            rintro rfl
            cases hfits with
            | tiled hparts => exact hparts hgiven.symm
          exact {
            bounds := rfl
            goes := fun _ => hgoes
            stopped := fun hstops => absurd hstops hgoes
            ended := fun _ hnone => absurd hnone hsome
            handed := fun _ => ⟨rfl, _, rfl, hresolves, hgiven⟩ }
      | embedded frame feature margin =>
          exact {
            bounds := rfl
            goes := fun _ => hgoes
            stopped := fun hstops => absurd hstops hgoes
            ended := fun _ hnone => absurd hnone (List.append_ne_nil_of_right_ne_nil _ (by simp))
            handed := fun _ => ⟨rfl, _, rfl, hresolves, hgiven⟩ }

/-- The region at the end of the way is a leaf with the kind and the rectangle of
the feature of an embedding, which the rule of the region above asked for. -/
def Embeds (engine : Engine κ α) (line : Lineage κ α) (way : List Nat) (region : Region κ α) :
    Prop :=
  region = .final region.kind region.bounds ∧ ∃ above parent frame margin rule,
    way = above ++ [1] ∧ line.at? above = some parent ∧
    parent.region.verdict = .expanded (.embedded frame (region.kind, region.bounds) margin) ∧
    engine.table.rule? parent.region.kind = some rule ∧
    Sampler.Outcome (fun _ => True) (rule.settle parent.region.bounds)
      (.ok (.embed region.kind margin))

namespace Records

variable {depth : Nat} {line : Lineage κ α} {way : List Nat} {region : Region κ α}

/-- Only regions that are not stopped have children. -/
theorem not_stops (h : engine.Records admits depth line) (hsome : line.tree.children ≠ []) :
    ¬ engine.settings.Stops line.tree.bounds depth := by
  intro hstops
  apply hsome
  rw [(h.decides.stopped hstops).1]
  rfl

/-- No region is deeper than the limit. -/
theorem length_le (h : engine.Records admits depth line)
    (hregion : line.tree.at? way = some region) {cap : Nat}
    (hcap : engine.settings.maxDepth = some cap) : way = [] ∨ depth + way.length ≤ cap := by
  induction way generalizing depth line with
  | nil => exact Or.inl rfl
  | cons place rest ih =>
      right
      obtain ⟨child, hchild, hrest⟩ := Option.bind_eq_some_iff.mp hregion
      have hsome : line.tree.children ≠ [] := List.ne_nil_of_mem (List.mem_of_getElem? hchild)
      have hdepth : depth < cap := by
        by_contra hreached
        exact h.not_stops hsome (Or.inr ⟨cap, hcap, Nat.le_of_not_lt hreached⟩)
      rw [List.length_cons]
      cases rest with
      | nil =>
          rw [List.length_nil]
          omega
      | cons later rest =>
          rcases h.child_cases hchild with ⟨next, hnext, rfl⟩ | ⟨_, hfinal, _⟩
          · have hlater := (ih (h.of_child hnext) hrest).resolve_left (by simp)
            omega
          · rw [hfinal] at hrest
            cases hrest

/-- No line leads to a feature. -/
theorem at?_eq_none_of_isFeatureAt (h : engine.Records admits depth line)
    (hfeature : line.tree.IsFeatureAt way) : line.at? way = none := by
  obtain ⟨above, parent, margin, rfl, hparent, hcomposition⟩ := hfeature
  rcases h.at_cases hparent with ⟨found, hfound, rfl⟩ | ⟨hfinal, _⟩
  · obtain ⟨frame, feature, hverdict⟩ := Lineage.composition_tree_iff.mp hcomposition
    have hlength := congrArg List.length (h.of_at hfound).given_children
    rw [hverdict, List.length_map] at hlength
    have hnone : found.children[1]? = none := List.getElem?_eq_none (Nat.le_of_eq hlength)
    rw [Lineage.at?_append, hfound, Option.bind_some, Lineage.at?, hnone, Option.bind_none]
  · rw [hfinal] at hcomposition
    cases hcomposition

theorem embeds (h : engine.Records admits depth line)
    (hregion : line.tree.at? way = some region) (hfeature : line.tree.IsFeatureAt way) :
    engine.Embeds line way region := by
  rcases h.at_cases hregion with
    ⟨found, hfound, _⟩ | ⟨hfinal, above, parent, frame, margin, rfl, hparent, hverdict⟩
  · rw [h.at?_eq_none_of_isFeatureAt hfeature] at hfound
    cases hfound
  · have hjudge := (h.of_at hparent).verdict
    rw [hverdict] at hjudge
    rcases outcome_judge hjudge with
      ⟨_, _, hstopped, _⟩ | ⟨_, rule, step, expansion, hrule, hsettle, hgives, hexpanded⟩
    · cases hstopped
    · cases hexpanded
      cases hgives with
      | embed =>
          exact ⟨hfinal, above, parent, _, _, rule, rfl, hparent, hverdict, hrule,
            hsettle.mono fun _ _ => trivial⟩

theorem exists_decides (h : engine.Records admits depth line)
    (hregion : line.tree.at? way = some region) (hground : ¬ line.tree.IsFeatureAt way) :
    ∃ found, line.at? way = some found ∧
      engine.Decides (depth + way.length) found region := by
  rcases h.at_cases hregion with
    ⟨found, hfound, rfl⟩ | ⟨_, above, parent, frame, margin, rfl, hparent, hverdict⟩
  · exact ⟨found, hfound, (h.of_at hfound).decides⟩
  · refine absurd ⟨above, parent.tree, margin, rfl, h.at_tree hparent, ?_⟩ hground
    exact Lineage.composition_tree_iff.mpr ⟨_, _, hverdict⟩

end Records

/-- In a run that returns a layout every region is found in its place, at the
given distance from the root: none is deeper than the limit, the features of
embeddings are as they were embedded, and every other region ends as was decided
about what it was given. -/
theorem run_relabels [DrawSource σ α] (engine : Engine κ α) {limit : Nat} {width length : α}
    {source after : σ} {generation : Generation κ α}
    (hrun : (engine.run limit width length).run source = (.ok (some generation), after)) :
    ∃ height lineage,
      (engine.lineages height 0 [(engine.settings.root, ⟨0, 0, width, length⟩)]).run source =
        (.ok (some [lineage]), after) ∧
      lineage.tree = generation.root ∧
      lineage.given = (engine.settings.root, ⟨0, 0, width, length⟩) ∧
      ∀ way region, generation.root.at? way = some region →
        (∀ cap, engine.settings.maxDepth = some cap → way.length ≤ cap) ∧
        (generation.root.IsFeatureAt way → engine.Embeds lineage way region) ∧
        (¬ generation.root.IsFeatureAt way → ∃ line, lineage.at? way = some line ∧
          engine.Decides way.length line region) := by
  obtain ⟨height, lineage, hlineages, htree, hgiven, hrecords⟩ := exists_lineage_of_run hrun
  refine ⟨height, lineage, hlineages, htree, hgiven, fun way region hregion => ?_⟩
  rw [← htree] at hregion ⊢
  refine ⟨fun cap hcap => ?_, hrecords.embeds hregion, fun hground => ?_⟩
  · rcases hrecords.length_le hregion hcap with rfl | hle
    · exact Nat.zero_le cap
    · rwa [Nat.zero_add] at hle
  · have hdecides := hrecords.exists_decides hregion hground
    rwa [Nat.zero_add] at hdecides

end Engine

namespace Garden

/-- The path leaves a strip on its left that is too narrow for a zone, and a
forest on its right. -/
def narrowDraws : Script Rat :=
  .ofList [1 / 4, 0, 3 / 10]

theorem run_relabels_narrow :
    ∃ generation after,
      (small.run 12 300 300).run narrowDraws = (.ok (some generation), after) ∧
      ∃ strip, generation.root.at? [0] = some strip ∧ strip.kind = .grass ∧
        strip.bounds = ⟨0, 0, 50, 300⟩ ∧
        ∃ lineage line : Lineage Kind Rat, lineage.tree = generation.root ∧
          lineage.at? [0] = some line ∧ small.Decides 1 line strip := by
  have hfinished : (Engine.finished ((small.run 12 300 300).run narrowDraws)).bind
      (fun generation => (generation.root.at? [0]).map fun strip =>
        (strip.kind, strip.bounds)) = some (.grass, ⟨0, 0, 50, 300⟩) := by
    decide +kernel
  obtain ⟨generation, hgeneration, hstrip⟩ := Option.bind_eq_some_iff.mp hfinished
  obtain ⟨after, hrun⟩ := Engine.eq_of_finished hgeneration
  obtain ⟨strip, hregion, hparts⟩ := Option.map_eq_some_iff.mp hstrip
  obtain ⟨hkind, hbounds⟩ := Prod.mk.inj hparts
  refine ⟨generation, after, hrun, strip, hregion, hkind, hbounds, ?_⟩
  obtain ⟨height, lineage, _, htree, _, hplaces⟩ := Engine.run_relabels small hrun
  obtain ⟨_, _, hground⟩ := hplaces [0] strip hregion
  have hnot : ¬ generation.root.IsFeatureAt [0] := by
    rintro ⟨above, parent, margin, hway, _, _⟩
    have hlast := congrArg List.getLast? hway
    simp at hlast
  obtain ⟨line, hline, hdecides⟩ := hground hnot
  exact ⟨lineage, line, htree, hline, hdecides⟩

end Garden

end Parterre
