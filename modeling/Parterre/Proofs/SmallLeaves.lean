/-
Leaves that are too small.  A region that is too small keeps its kind only if the
rule of the kind leaves every region alone, and otherwise takes such a kind from the
safeguard.  Features are not decided about: a feature has the kind that the rule of
the region above embeds, whatever its size and whatever the rule of its kind.
-/
import Parterre.Proofs.Checked
import Parterre.Proofs.Relabelling

namespace Parterre

variable {κ α σ : Type}

theorem Region.mem_leaves_iff {region leaf : Region κ α} :
    leaf ∈ region.leaves ↔ (∃ way, region.at? way = some leaf) ∧ leaf.children = [] := by
  rw [leaves, List.mem_filter, mem_walk_iff_at?, isLeaf, List.isEmpty_iff]

variable [DecidableEq κ] [RegionKind κ] [Scalar α]

namespace Engine

variable {engine : Engine κ α} {admits : α → Prop}

/-- The way leads to a feature of the given kind that the rule of the region above
embeds. -/
def AsksFor (engine : Engine κ α) (root : Region κ α) (way : List Nat) (kind : κ) : Prop :=
  ∃ above parent rule margin, way = above ++ [1] ∧ root.at? above = some parent ∧
    parent.composition = some (.embedded margin) ∧
    engine.table.rule? parent.kind = some rule ∧ .embed kind margin ∈ rule.steps

theorem AsksFor.mem_steps {root : Region κ α} {way : List Nat} {kind : κ}
    (h : engine.AsksFor root way kind) : ∃ margin, .embed kind margin ∈ engine.table.steps := by
  obtain ⟨_, parent, rule, margin, _, _, _, hrule, hstep⟩ := h
  have hentry := RuleTable.mem_of_rule? hrule
  exact ⟨margin, List.mem_flatMap.mpr ⟨(parent.kind, rule), hentry, hstep⟩⟩

/-- A region that is too small ends with a final kind. -/
theorem Decides.isTerminal_of_undersized {depth : Nat} {line : Lineage κ α} {region : Region κ α}
    (h : engine.Decides depth line region) (hsmall : engine.settings.Undersized region.bounds) :
    engine.table.isTerminal region.kind = true := by
  obtain ⟨_, hkept, hreplaced⟩ := h.stopped (Or.inl hsmall)
  apply RuleTable.isTerminal_iff.mpr
  by_cases hkeeps : engine.Keeps line.region.kind region.bounds
  · rw [hkept hkeeps]
    exact hkeeps.resolve_right fun hlarge => hlarge.1 hsmall
  · exact rule?_of_mem_kinds (hreplaced hkeeps)

/-- The rule of the region above a feature embeds it. -/
theorem Records.asksFor {depth : Nat} {line : Lineage κ α} {way : List Nat} {region : Region κ α}
    (h : engine.Records admits depth line) (hregion : line.tree.at? way = some region)
    (hfeature : line.tree.IsFeatureAt way) : engine.AsksFor line.tree way region.kind := by
  obtain ⟨_, above, parent, frame, margin, rule, hway, hparent, hverdict, hrule, hsettle⟩ :=
    h.embeds hregion hfeature
  have hcomposition : parent.tree.composition = some (.embedded margin) :=
    Lineage.composition_tree_iff.mpr ⟨_, _, hverdict⟩
  have hkind : parent.tree.kind = parent.region.kind := by
    obtain ⟨⟨kind, bounds, verdict⟩, children⟩ := parent
    subst hverdict
    rfl
  refine ⟨above, parent.tree, rule, margin, hway, h.at_tree hparent, hcomposition, ?_, ?_⟩
  · rw [hkind]
    exact hrule
  · exact rule.mem_steps_of_settle hsettle

/-- In a run that returns a layout a leaf that is too small has a final kind or is a
feature that the rule of the region above embeds.  So if only final kinds are
embedded, all leaves that are too small have final kinds. -/
theorem run_undersized_leaves [DrawSource σ α] (engine : Engine κ α) {limit : Nat}
    {width length : α} {source after : σ} {generation : Generation κ α}
    (hrun : (engine.run limit width length).run source = (.ok (some generation), after)) :
    (∀ way leaf, generation.root.at? way = some leaf → leaf.children = [] →
      engine.settings.Undersized leaf.bounds →
      engine.table.isTerminal leaf.kind = true ∨
        engine.AsksFor generation.root way leaf.kind) ∧
    ((∀ feature margin, .embed feature margin ∈ engine.table.steps →
        engine.table.isTerminal feature = true) →
      ∀ leaf ∈ generation.root.leaves, engine.settings.Undersized leaf.bounds →
        engine.table.isTerminal leaf.kind = true) := by
  obtain ⟨_, lineage, _, htree, _, hrecords⟩ := exists_lineage_of_run hrun
  have hplaces : ∀ way leaf, generation.root.at? way = some leaf →
      engine.settings.Undersized leaf.bounds → engine.table.isTerminal leaf.kind = true ∨
        engine.AsksFor generation.root way leaf.kind := by
    intro way leaf hleaf hsmall
    rw [← htree] at hleaf ⊢
    by_cases hfeature : lineage.tree.IsFeatureAt way
    · exact Or.inr (hrecords.asksFor hleaf hfeature)
    · obtain ⟨_, _, hdecides⟩ := hrecords.exists_decides hleaf hfeature
      exact Or.inl (hdecides.isTerminal_of_undersized hsmall)
  refine ⟨fun way leaf hleaf _ => hplaces way leaf hleaf, ?_⟩
  intro hfeatures leaf hleaf hsmall
  obtain ⟨⟨way, hway⟩, _⟩ := Region.mem_leaves_iff.mp hleaf
  rcases hplaces way leaf hway hsmall with hterminal | hasked
  · exact hterminal
  · obtain ⟨margin, hstep⟩ := hasked.mem_steps
    exact hfeatures leaf.kind margin hstep

end Engine

namespace Garden

/-- Only final kinds are embedded in the small garden, where a narrow strip takes its
kind from the safeguard. -/
theorem run_undersized_leaves_narrow :
    ∃ generation after,
      (small.run 12 300 300).run narrowDraws = (.ok (some generation), after) ∧
      (∃ strip ∈ generation.root.leaves, strip.kind = .grass ∧
        small.settings.Undersized strip.bounds) ∧
      ∀ leaf ∈ generation.root.leaves, small.settings.Undersized leaf.bounds →
        small.table.isTerminal leaf.kind = true := by
  have hfinished : (Engine.finished ((small.run 12 300 300).run narrowDraws)).bind
      (fun generation => (generation.root.at? [0]).map fun strip =>
        (strip.kind, strip.isLeaf, small.settings.isUndersized strip.bounds)) =
      some (.grass, true, true) := by
    decide +kernel
  obtain ⟨generation, hgeneration, hstrip⟩ := Option.bind_eq_some_iff.mp hfinished
  obtain ⟨after, hrun⟩ := Engine.eq_of_finished hgeneration
  obtain ⟨strip, hregion, hparts⟩ := Option.map_eq_some_iff.mp hstrip
  simp only [Prod.mk.injEq] at hparts
  obtain ⟨hkind, hleaf, hsmall⟩ := hparts
  have hmem : strip ∈ generation.root.leaves :=
    Region.mem_leaves_iff.mpr ⟨⟨[0], hregion⟩, List.isEmpty_iff.mp hleaf⟩
  have hsteps : ∀ step ∈ small.table.steps, ∀ feature margin, step = .embed feature margin →
      small.table.isTerminal feature = true := by
    have hall : small.table.steps.all (fun
      | .embed feature _ => small.table.isTerminal feature
      | _ => true) = true := by
      decide +kernel
    rintro _ hstep feature margin rfl
    exact List.all_eq_true.mp hall _ hstep
  refine ⟨generation, after, hrun,
    ⟨strip, hmem, hkind, Settings.isUndersized_iff.mp hsmall⟩, ?_⟩
  exact (Engine.run_undersized_leaves small hrun).2
    fun feature margin hstep => hsteps _ hstep feature margin rfl

/-- The garden is a zone set into grass with a wide margin, and zones are not final. -/
def pavilionRule : Kind → Rule Kind Float
  | .root => .always (.embed .zone 80)
  | .zone => .always (.fill .grass)
  | _ => .always .terminal

def pavilion : Engine Kind Float :=
  (do let table ← RuleTable.ofFunction pavilionRule
      Engine.ofSettings table
        { root := .root
          minDim := 60
          safeguard := .single .grass
          frame := .grass
          maxDepth := none
          keepAtMaxDepth := false } : Except (LayoutError Float) (Engine Kind Float)).toOption.get
    (by decide +kernel)

/-- A square that is large enough gets a feature that is too small, and the feature
keeps a kind that is not final. -/
theorem pavilion_leaf_not_terminal :
    ∃ generation after,
      (pavilion.run 2 200 200).run (.ofList [] : Script Float) = (.ok (some generation), after) ∧
      ∃ leaf ∈ generation.root.leaves, pavilion.settings.Undersized leaf.bounds ∧
        pavilion.table.isTerminal leaf.kind = false := by
  have hfinished : (Engine.finished ((pavilion.run 2 200 200).run (.ofList [] : Script Float))).bind
      (fun generation => (generation.root.at? [1]).map fun leaf =>
        (leaf.isLeaf, pavilion.settings.isUndersized leaf.bounds,
          pavilion.table.isTerminal leaf.kind)) = some (true, true, false) := by
    decide +kernel
  obtain ⟨generation, hgeneration, hfeature⟩ := Option.bind_eq_some_iff.mp hfinished
  obtain ⟨after, hrun⟩ := Engine.eq_of_finished hgeneration
  obtain ⟨leaf, hregion, hparts⟩ := Option.map_eq_some_iff.mp hfeature
  simp only [Prod.mk.injEq] at hparts
  obtain ⟨hleaf, hsmall, hopen⟩ := hparts
  have hmem : leaf ∈ generation.root.leaves :=
    Region.mem_leaves_iff.mpr ⟨⟨[1], hregion⟩, List.isEmpty_iff.mp hleaf⟩
  exact ⟨generation, after, hrun, leaf, hmem, Settings.isUndersized_iff.mp hsmall, hopen⟩

end Garden

end Parterre
