/-
The lineage of a run.  A run is followed by the lineage that the same draws lead
to: its tree is the layout, every region of the layout but the features has its
line there, and a line records what was decided about its region and what the
children were given.
-/
import Parterre.Engine.Lineage
import Parterre.Proofs.LevelOrder
import Parterre.Proofs.Places

namespace Parterre

variable {κ α σ : Type}

namespace Lineage

theorem at?_append (first second : List Nat) (line : Lineage κ α) :
    line.at? (first ++ second) = (line.at? first).bind (at? second) := by
  induction first generalizing line with
  | nil => rfl
  | cons place rest ih =>
      rw [List.cons_append, at?, at?]
      cases line.children[place]? with
      | none => rfl
      | some child => exact ih child

theorem treeAll_eq_map (lines : List (Lineage κ α)) : treeAll lines = lines.map tree := by
  induction lines with
  | nil => rfl
  | cons line rest ih => rw [treeAll, ih, List.map_cons]

/-- The trees of a level are handed out like its lineages. -/
theorem treeAll_joinAll (judged : List (Judged κ α)) (lines : List (Lineage κ α)) :
    treeAll (joinAll judged lines) = graftAll judged (treeAll lines) := by
  induction judged generalizing lines with
  | nil => rfl
  | cons region rest ih =>
      simp only [joinAll, treeAll, tree, graftAll, ih]
      simp only [treeAll_eq_map, List.map_take, List.map_drop]

theorem given_joinAll (judged : List (Judged κ α)) (lines : List (Lineage κ α)) :
    (joinAll judged lines).map given =
      judged.map fun region => (region.kind, region.bounds) := by
  induction judged generalizing lines with
  | nil => rfl
  | cons region rest ih => simp only [joinAll, List.map_cons, ih, given, Lineage.region]

end Lineage

variable [Scalar α] [DecidableEq κ] [RegionKind κ]

namespace Engine

variable {engine : Engine κ α} {admits : α → Prop}

/-- The line of a region of the given depth says what was decided about it and
about everything below. -/
inductive Records (engine : Engine κ α) (admits : α → Prop) : Nat → Lineage κ α → Prop
  | node {depth : Nat} {region : Judged κ α} {children : List (Lineage κ α)}
      (hverdict : Sampler.Outcome admits (engine.judge region.kind region.bounds depth)
        (.ok region.verdict))
      (hgiven : children.map Lineage.given = region.verdict.pending)
      (hchildren : ∀ child ∈ children, Records engine admits (depth + 1) child) :
      Records engine admits depth (.node region children)

/-- Level by level, the trees of the lineages are the layout. -/
theorem levels_eq_lineages (engine : Engine κ α) (height depth : Nat)
    (regions : List (κ × Rect α)) :
    engine.levels height depth regions =
      Option.map Lineage.treeAll <$> engine.lineages height depth regions := by
  induction height generalizing depth regions with
  | zero => cases regions <;> rfl
  | succ height ih =>
      cases regions with
      | nil => rfl
      | cons part rest =>
          simp only [levels, lineages, ih, map_eq_pure_bind, bind_assoc, pure_bind,
            Option.map_map]
          congr 1
          funext judged
          congr 1
          funext below
          cases below with
          | none => rfl
          | some lines =>
              simp only [Option.map_some, Function.comp_apply, Lineage.treeAll_joinAll]

theorem records_joinAll {depth : Nat} {judged : List (Judged κ α)}
    {lines : List (Lineage κ α)}
    (hjudged : ∀ region ∈ judged, Sampler.Outcome admits
      (engine.judge region.kind region.bounds depth) (.ok region.verdict))
    (hgiven : lines.map Lineage.given = judged.flatMap fun region => region.verdict.pending)
    (hlines : ∀ line ∈ lines, engine.Records admits (depth + 1) line) :
    ∀ line ∈ Lineage.joinAll judged lines, engine.Records admits depth line := by
  induction judged generalizing lines with
  | nil => simp [Lineage.joinAll]
  | cons region rest ih =>
      obtain ⟨hverdict, hothers⟩ := List.forall_mem_cons.mp hjudged
      rw [List.flatMap_cons] at hgiven
      have hown := congrArg (List.take region.verdict.pending.length) hgiven
      have hlater := congrArg (List.drop region.verdict.pending.length) hgiven
      rw [List.take_left, ← List.map_take] at hown
      rw [List.drop_left, ← List.map_drop] at hlater
      refine List.forall_mem_cons.mpr ⟨.node hverdict hown fun child hchild => ?_, ?_⟩
      · exact hlines child (List.mem_of_mem_take hchild)
      · exact ih hothers hlater fun line hline => hlines line (List.mem_of_mem_drop hline)

/-- The lineages of the regions of a level record what was decided. -/
theorem records_of_lineages {height depth : Nat} {regions : List (κ × Rect α)}
    {lines : List (Lineage κ α)}
    (h : Sampler.Outcome admits (engine.lineages height depth regions) (.ok (some lines))) :
    lines.map Lineage.given = regions ∧
      ∀ line ∈ lines, engine.Records admits depth line := by
  induction height generalizing depth regions lines with
  | zero =>
      cases regions with
      | nil =>
          cases Sampler.outcome_pure_iff.mp h
          simp
      | cons part rest => cases Sampler.outcome_pure_iff.mp h
  | succ height ih =>
      cases regions with
      | nil =>
          cases Sampler.outcome_pure_iff.mp h
          simp
      | cons part rest =>
          simp only [lineages, Sampler.outcome_bind_ok_iff, Sampler.outcome_pure_iff,
            Except.ok.injEq] at h
          obtain ⟨judged, hjudged, below, hbelow, hlines⟩ := h
          obtain ⟨given, rfl, rfl⟩ := Option.map_eq_some_iff.mp hlines.symm
          obtain ⟨hgiven, hrecords⟩ := ih hbelow
          refine ⟨?_, records_joinAll ?_ hgiven hrecords⟩
          · rw [Lineage.given_joinAll, map_of_outcome_judgeLevel hjudged]
          · intro region hregion
            obtain ⟨_, _, _, hverdict⟩ :=
              exists_of_forall₂_of_mem (forall₂_of_outcome_judgeLevel hjudged) hregion
            exact hverdict

namespace Records

variable {depth : Nat} {line : Lineage κ α}

theorem verdict (h : engine.Records admits depth line) :
    Sampler.Outcome admits (engine.judge line.region.kind line.region.bounds depth)
      (.ok line.region.verdict) := by
  cases h with
  | node hverdict _ _ => exact hverdict

theorem given_children (h : engine.Records admits depth line) :
    line.children.map Lineage.given = line.region.verdict.pending := by
  cases h with
  | node _ hgiven _ => exact hgiven

/-- The children of a region are those of its line and its features. -/
theorem children_tree (h : engine.Records admits depth line) :
    line.tree.children = line.children.map Lineage.tree ++
      line.region.verdict.features.map fun part => .final part.1 part.2 := by
  have hgiven := h.given_children
  obtain ⟨⟨kind, bounds, verdict⟩, children⟩ := line
  rcases verdict with replacement | (_ | parts | ⟨frame, feature, margin⟩)
  · obtain rfl := List.map_eq_nil_iff.mp hgiven
    rfl
  · obtain rfl := List.map_eq_nil_iff.mp hgiven
    rfl
  · simp [Lineage.tree, Lineage.treeAll_eq_map, Verdict.graft, Verdict.features,
      Region.children, Lineage.children, Lineage.region]
  · simp [Lineage.tree, Lineage.treeAll_eq_map, Verdict.graft, Verdict.features,
      Region.children, Lineage.children, Lineage.region]

/-- A child of a region has a line of its own, or it is the feature behind the
frame. -/
theorem child_cases (h : engine.Records admits depth line) {place : Nat} {child : Region κ α}
    (hchild : line.tree.children[place]? = some child) :
    (∃ next, line.children[place]? = some next ∧ next.tree = child) ∨
      (place = 1 ∧ child = .final child.kind child.bounds ∧ ∃ frame margin,
        line.region.verdict = .expanded (.embedded frame (child.kind, child.bounds) margin)) := by
  have hgiven := congrArg List.length h.given_children
  rw [h.children_tree] at hchild
  by_cases hlt : place < line.children.length
  · rw [List.getElem?_append_left (by simpa using hlt), List.getElem?_map] at hchild
    exact Or.inl (Option.map_eq_some_iff.mp hchild)
  · rw [List.getElem?_append_right (by simpa using Nat.le_of_not_lt hlt),
      List.getElem?_map] at hchild
    obtain ⟨part, hpart, rfl⟩ := Option.map_eq_some_iff.mp hchild
    rw [List.length_map] at hpart hgiven
    right
    rcases hverdict : line.region.verdict with
      replacement | (_ | parts | ⟨frame, feature, margin⟩) <;>
      rw [hverdict] at hpart hgiven
    case expanded.embedded =>
      have hindex := (List.getElem?_eq_some_iff.mp hpart).1
      simp only [Verdict.pending, Verdict.features, List.length_singleton] at hgiven hindex
      obtain rfl : place = 1 := by omega
      rw [hgiven] at hpart
      cases hpart
      exact ⟨rfl, rfl, frame, margin, rfl⟩
    all_goals cases hpart

theorem of_child (h : engine.Records admits depth line) {place : Nat} {next : Lineage κ α}
    (hnext : line.children[place]? = some next) : engine.Records admits (depth + 1) next := by
  cases h with
  | node _ _ hchildren => exact hchildren next (List.mem_of_getElem? hnext)

/-- What is recorded about a region is recorded about every region below. -/
theorem of_at (h : engine.Records admits depth line) {way : List Nat} {found : Lineage κ α}
    (hfound : line.at? way = some found) :
    engine.Records admits (depth + way.length) found := by
  induction way generalizing depth line with
  | nil =>
      cases hfound
      exact h
  | cons place rest ih =>
      obtain ⟨next, hnext, hrest⟩ := Option.bind_eq_some_iff.mp hfound
      rw [List.length_cons, Nat.add_comm rest.length, ← Nat.add_assoc]
      exact ih (h.of_child hnext) hrest

/-- Every line has its region in the tree. -/
theorem at_tree (h : engine.Records admits depth line) {way : List Nat} {found : Lineage κ α}
    (hfound : line.at? way = some found) : line.tree.at? way = some found.tree := by
  induction way generalizing depth line with
  | nil =>
      cases hfound
      rfl
  | cons place rest ih =>
      obtain ⟨next, hnext, hrest⟩ := Option.bind_eq_some_iff.mp hfound
      have hlt := (List.getElem?_eq_some_iff.mp hnext).1
      have hplace : line.tree.children[place]? = some next.tree := by
        rw [h.children_tree, List.getElem?_append_left (by simpa using hlt),
          List.getElem?_map, hnext, Option.map_some]
      rw [Region.at?, hplace]
      exact ih (h.of_child hnext) hrest

/-- Every region of the tree has a line, or it is a feature. -/
theorem at_cases (h : engine.Records admits depth line) {way : List Nat} {region : Region κ α}
    (hregion : line.tree.at? way = some region) :
    (∃ found, line.at? way = some found ∧ found.tree = region) ∨
      (region = .final region.kind region.bounds ∧ ∃ above parent frame margin,
        way = above ++ [1] ∧ line.at? above = some parent ∧ parent.region.verdict =
          .expanded (.embedded frame (region.kind, region.bounds) margin)) := by
  induction way generalizing depth line with
  | nil =>
      cases hregion
      exact Or.inl ⟨line, rfl, rfl⟩
  | cons place rest ih =>
      obtain ⟨child, hchild, hrest⟩ := Option.bind_eq_some_iff.mp hregion
      rcases h.child_cases hchild with ⟨next, hnext, rfl⟩ | ⟨rfl, hfinal, frame, margin, hverdict⟩
      · rcases ih (h.of_child hnext) hrest with
          ⟨found, hfound, hregion⟩ | ⟨hfinal, above, parent, frame, margin, rfl, hparent, hverdict⟩
        · exact Or.inl ⟨found, by rw [Lineage.at?, hnext]; exact hfound, hregion⟩
        · exact Or.inr ⟨hfinal, place :: above, parent, frame, margin, rfl,
            by rw [Lineage.at?, hnext]; exact hparent, hverdict⟩
      · cases rest with
        | nil =>
            cases hrest
            exact Or.inr ⟨hfinal, [], line, frame, margin, rfl, rfl, hverdict⟩
        | cons later rest =>
            rw [hfinal] at hrest
            cases hrest

end Records

/-- The tree of a run has a lineage that the same draws lead to. -/
theorem exists_lineage_of_run [DrawSource σ α] {limit : Nat} {width length : α}
    {source after : σ} {generation : Generation κ α}
    (hrun : (engine.run limit width length).run source = (.ok (some generation), after)) :
    ∃ height lineage,
      (engine.lineages height 0 [(engine.settings.root, ⟨0, 0, width, length⟩)]).run source =
        (.ok (some [lineage]), after) ∧
      lineage.tree = generation.root ∧
      lineage.given = (engine.settings.root, ⟨0, 0, width, length⟩) ∧
      engine.Records (fun _ => True) 0 lineage := by
  obtain ⟨height, hheight⟩ := runByLevels_of_run hrun (by simp)
  have hlevels := hheight height (Nat.le_refl _)
  cases hbounds : Rect.checked (⟨0, 0, width, length⟩ : Rect α) with
  | error failure =>
      rw [(engine.run_of_refused hbounds limit height source).1] at hrun
      cases hrun
  | ok bounds =>
      obtain ⟨rfl, _⟩ := Rect.checked_eq_ok_iff.mp hbounds
      rw [runByLevels_of_checked hbounds, levels_eq_lineages, Sampler.run_map] at hlevels
      rcases hlineages : (engine.lineages height 0
        [(engine.settings.root, ⟨0, 0, width, length⟩)]).run source with ⟨_ | _ | lines, last⟩
      all_goals rw [hlineages] at hlevels
      case ok.some =>
        simp only [Except.map, Option.map_some, Prod.mk.injEq, Except.ok.injEq,
          Option.some.injEq] at hlevels
        obtain ⟨htrees, rfl⟩ := hlevels
        obtain ⟨houtcome, _⟩ := Sampler.outcome_of_run (DrawSource.delivers_any source) hlineages
        obtain ⟨hgiven, hrecords⟩ := records_of_lineages houtcome
        obtain ⟨lineage, rest, rfl, hfirst, hnone⟩ := List.map_eq_cons_iff.mp hgiven
        obtain rfl := List.map_eq_nil_iff.mp hnone
        rw [Lineage.treeAll, List.cons.injEq] at htrees
        exact ⟨height, lineage, hlineages, htrees.1, hfirst,
          hrecords lineage List.mem_cons_self⟩
      all_goals cases hlevels

end Engine

end Parterre
