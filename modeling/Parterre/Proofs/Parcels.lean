/-
What gardens look like.  Zones and parcels are always divided further.  A parcel is
the only child of a zone that is small enough, and it is covered by one final kind
or has a feature on grass, if it is large enough for the feature.
-/
import Parterre.Proofs.Ancestry
import Parterre.Proofs.Plans

namespace Parterre.Garden

variable {α σ : Type} [Scalar α] {admits : α → Prop} {config : Config α} {bounds : Rect α}

/-- What may be decided about a region of a garden. -/
inductive Allows (config : Config α) (bounds : Rect α) : Kind → Verdict Kind α → Prop
  | stopped {kind replacement : Kind} (hfinal : replacement.IsFinal)
      (hkept : kind.IsFinal → replacement = kind) :
      Allows config bounds kind (.stopped replacement)
  | done {kind : Kind} (hfinal : kind.IsFinal) : Allows config bounds kind (.expanded .final)
  | path (first strip second : Rect α) :
      Allows config bounds .root
        (.expanded (.tiled [(.zone, first), (.path, strip), (.zone, second)]))
  | halves (first second : Rect α) (hcuts : config.Cuts bounds) :
      Allows config bounds .zone (.expanded (.tiled [(.zone, first), (.zone, second)]))
  | parcel (hcuts : ¬ config.Cuts bounds) :
      Allows config bounds .zone (.expanded (.tiled [(.parcel, bounds)]))
  | planted {kind : Kind} (hfinal : kind.IsFinal) :
      Allows config bounds .parcel (.expanded (.tiled [(kind, bounds)]))
  | feature {kind : Kind} {size : Feature α} {inner : Rect α}
      (hfeature : config.feature? kind = some size)
      (hroom : size.minParcelSize < bounds.width ∧ size.minParcelSize < bounds.height)
      (hinner : bounds.inset size.margin = .ok inner) :
      Allows config bounds .parcel
        (.expanded (.embedded (.grass, bounds) (kind, inner) size.margin))

/-- The expansions of planned steps are allowed. -/
theorem Plans.allows {kind : Kind} {step : Step Kind α} {expansion : Expansion Kind α}
    (h : Plans config bounds kind step) (hgives : step.Gives admits bounds .grass expansion) :
    Allows config bounds kind (.expanded expansion) := by
  cases h with
  | path =>
      cases hgives with
      | laid hlays hparts =>
          cases hlays
          obtain ⟨first, strip, second, rfl⟩ := List.length_eq_three.mp (Cut.length_of_parts hparts)
          exact .path first strip second
  | halves hcuts =>
      cases hgives with
      | laid hlays hparts =>
          cases hlays
          obtain ⟨first, second, rfl⟩ := List.length_eq_two.mp (Cut.length_of_parts hparts)
          exact .halves first second hcuts
  | parcel hcuts =>
      cases hgives with
      | laid hlays hparts =>
          cases hlays
          cases hparts
          exact .parcel hcuts
  | plants hfinal =>
      cases hgives with
      | laid hlays hparts =>
          cases hlays
          cases hparts
          exact .planted hfinal
  | feature hfeature hroom =>
      cases hgives with
      | laid hlays _ => cases hlays
      | embed _ _ hinner => exact .feature hfeature hroom hinner
  | done hfinal =>
      cases hgives with
      | terminal => exact .done hfinal
      | laid hlays _ => cases hlays

section Built

variable {built : Engine Kind α}

theorem rule?_eq_terminal_iff (h : engine config = .ok built) {kind : Kind} :
    built.table.rule? kind = some (.always .terminal) ↔ kind.IsFinal := by
  rw [RuleTable.rule?_of_ofFunction complete (of_engine h).2.1, Option.some.injEq]
  constructor
  · intro hrule
    cases kind with
    | root | zone | parcel => cases hrule
    | _ => decide
  · intro hfinal
    cases kind with
    | root | zone | parcel => exact absurd hfinal (by decide)
    | _ => rfl

/-- The engine of a garden decides what is allowed. -/
theorem allows_of_judge (h : engine config = .ok built) {kind : Kind} {depth : Nat}
    {verdict : Verdict Kind α}
    (hjudge : Sampler.Outcome admits (built.judge kind bounds depth) (.ok verdict)) :
    Allows config bounds kind verdict := by
  obtain ⟨_, _, _, hsettings⟩ := of_engine h
  have hsettles := Engine.settles_of_judge hjudge
  cases hsettles with
  | kept _ hkeeps =>
      have hfinal : kind.IsFinal := by
        apply (rule?_eq_terminal_iff h).mp
        apply hkeeps.resolve_right
        rintro ⟨_, hkept⟩
        rw [hsettings] at hkept
        cases hkept
      exact .stopped hfinal fun _ => rfl
  | replaced _ hkeeps hkinds =>
      have hfinal := (rule?_eq_terminal_iff h).mp (Engine.rule?_of_mem_kinds hkinds)
      refine .stopped hfinal fun hkind => ?_
      exact absurd (Or.inl ((rule?_eq_terminal_iff h).mpr hkind)) hkeeps
  | expanded _ _ =>
      rcases Engine.outcome_judge hjudge with
        ⟨_, _, hstopped, _⟩ | ⟨_, given, step, expansion, hrule, hsettle, hgives, hverdict⟩
      · cases hstopped
      · cases hverdict
        rw [hsettings] at hgives
        exact (plans_of_settle h hrule hsettle).allows hgives

end Built

namespace Allows

variable {kind : Kind} {verdict : Verdict Kind α}

/-- A final kind is kept. -/
theorem graft_of_isFinal (h : Allows config bounds kind verdict) (hfinal : kind.IsFinal)
    (below : List (Region Kind α)) : verdict.graft kind bounds below = .final kind bounds := by
  cases h with
  | stopped _ hkept => rw [hkept hfinal, Verdict.graft]
  | done _ => rfl
  | path | halves | parcel | planted | feature => exact absurd hfinal (by decide)

/-- Regions without children have final kinds. -/
theorem isFinal_of_leaf (h : Allows config bounds kind verdict) {below : List (Region Kind α)}
    (hbelow : below.length = verdict.pending.length)
    (hleaf : (verdict.graft kind bounds below).children = []) :
    (verdict.graft kind bounds below).kind.IsFinal := by
  cases h with
  | stopped hfinal _ => exact hfinal
  | done hfinal => exact hfinal
  | path | halves | parcel | planted =>
      obtain rfl : below = [] := hleaf
      cases hbelow
  | feature _ _ _ => exact absurd hleaf (List.append_ne_nil_of_right_ne_nil below (by simp))

/-- Only zones that are not cut have a parcel below them. -/
theorem of_parcel_mem (h : Allows config bounds kind verdict) {rect : Rect α} {place : Nat}
    (hpart : verdict.pending[place]? = some (.parcel, rect)) :
    kind = .zone ∧ ¬ config.Cuts bounds ∧ place = 0 ∧ rect = bounds ∧
      verdict = .expanded (.tiled [(.parcel, bounds)]) := by
  have hmem := List.mem_of_getElem? hpart
  cases h with
  | parcel hcuts =>
      have hplace := (List.getElem?_eq_some_iff.mp hpart).1
      obtain rfl : place = 0 := Nat.lt_one_iff.mp hplace
      cases hpart
      exact ⟨rfl, hcuts, rfl, rfl, rfl⟩
  | planted hfinal =>
      cases List.mem_singleton.mp hmem
      exact absurd hfinal (by decide)
  | stopped | done => cases hmem
  | path | halves | feature => simp [Verdict.pending] at hmem

end Allows

/-- What a region of a garden looks like at the end of a way.  Regions that are still
divided are no leaves, zones are only cut if they are large, parcels lie in zones of
their own size that are not, and features stand on grass in parcels of their size. -/
structure Looks (config : Config α) (root : Region Kind α) (way : List Nat)
    (region : Region Kind α) : Prop where
  leaf : region.children = [] → region.kind.IsFinal
  halved : region.kind = .zone → region.children.length = 2 → config.Cuts region.bounds
  parcel : region.kind = .parcel → region.state = .expanded →
    (∃ above zone, way = above ++ [0] ∧ root.at? above = some zone ∧ zone.kind = .zone ∧
      zone.bounds = region.bounds ∧ zone.children = [region]) ∧
    (region.bounds.width ≤ config.minZoneSize ∧ region.bounds.height ≤ config.minZoneSize) ∧
    ∀ child ∈ region.children, child.children = []
  embedded : ∀ margin, region.composition = some (.embedded margin) →
    region.kind = .parcel ∧ ∃ feature size,
      region.children = [.final .grass region.bounds, feature] ∧ feature.children = [] ∧
      region.bounds.inset margin = .ok feature.bounds ∧
      config.feature? feature.kind = some size ∧ margin = size.margin ∧
      size.minParcelSize < region.bounds.width ∧ size.minParcelSize < region.bounds.height

section Lines

variable {built : Engine Kind α} {depth : Nat} {line : Lineage Kind α}

theorem Allows.of_records (h : engine config = .ok built)
    (hrecords : built.Records admits depth line) :
    Allows config line.region.bounds line.region.kind line.region.verdict :=
  allows_of_judge h hrecords.verdict

/-- A region that was given a final kind is a leaf of this kind. -/
theorem tree_of_isFinal (h : engine config = .ok built)
    (hrecords : built.Records admits depth line) (hfinal : line.region.kind.IsFinal) :
    line.tree = .final line.region.kind line.region.bounds := by
  rw [line.tree_eq_graft]
  exact (Allows.of_records h hrecords).graft_of_isFinal hfinal _

theorem isFinal_of_leaf (h : engine config = .ok built)
    (hrecords : built.Records admits depth line) (hleaf : line.tree.children = []) :
    line.tree.kind.IsFinal := by
  have hgiven := congrArg List.length hrecords.given_children
  rw [line.tree_eq_graft] at hleaf ⊢
  apply (Allows.of_records h hrecords).isFinal_of_leaf _ hleaf
  rwa [List.length_map] at hgiven ⊢

/-- The only line below a region leads to a leaf if it was given a final kind. -/
theorem map_tree_of_isFinal (h : engine config = .ok built)
    (hrecords : built.Records admits depth line) {kind : Kind} {bounds : Rect α}
    (hpending : line.region.verdict.pending = [(kind, bounds)]) (hfinal : kind.IsFinal) :
    line.children.map Lineage.tree = [.final kind bounds] := by
  have hgiven := hrecords.given_children
  rw [hpending] at hgiven
  obtain ⟨child, hchildren, hchild⟩ := List.map_eq_singleton_iff.mp hgiven
  obtain ⟨hkind, hbounds⟩ := Prod.mk.inj hchild
  have hfirst : line.children[0]? = some child := by
    rw [hchildren]
    rfl
  have hbelow := hrecords.of_child hfirst
  have htree := tree_of_isFinal h hbelow (hkind ▸ hfinal)
  rw [hkind, hbounds] at htree
  rw [hchildren, List.map_singleton, htree]

/-- The children of an expanded parcel are leaves. -/
theorem children_of_parcel (h : engine config = .ok built)
    (hrecords : built.Records admits depth line) (hkind : line.region.kind = .parcel)
    (hstate : line.tree.state = .expanded) : ∀ child ∈ line.tree.children, child.children = [] := by
  have hallows := Allows.of_records h hrecords
  intro child hchild
  rw [hrecords.children_tree] at hchild
  rw [line.tree_eq_graft] at hstate
  rw [hkind] at hallows
  generalize hverdict : line.region.verdict = verdict at *
  cases hallows with
  | stopped _ _ => cases hstate
  | done _ => cases hstate
  | planted hfinal =>
      rw [map_tree_of_isFinal h hrecords (by rw [hverdict]; rfl) hfinal] at hchild
      obtain rfl := List.mem_singleton.mp hchild
      rfl
  | feature _ _ _ =>
      rw [map_tree_of_isFinal h hrecords (by rw [hverdict]; rfl) (by decide)] at hchild
      simp only [Verdict.features, List.map_singleton, List.singleton_append, List.mem_cons,
        List.not_mem_nil, or_false] at hchild
      rcases hchild with rfl | rfl <;> rfl

theorem cuts_of_halved (h : engine config = .ok built)
    (hrecords : built.Records admits depth line) (hkind : line.region.kind = .zone)
    (hhalves : line.tree.children.length = 2) : config.Cuts line.region.bounds := by
  have hallows := Allows.of_records h hrecords
  have hgiven := congrArg List.length hrecords.given_children
  rw [hrecords.children_tree, List.length_append, List.length_map, List.length_map] at hhalves
  rw [List.length_map] at hgiven
  rw [hkind] at hallows
  generalize line.region.verdict = verdict at *
  cases hallows with
  | halves _ _ hcuts => exact hcuts
  | parcel _ | stopped _ _ | done _ =>
      rw [hgiven] at hhalves
      cases hhalves

/-- A feature stands on the grass of a parcel that is large enough. -/
theorem embedded_of_records (h : engine config = .ok built)
    (hrecords : built.Records admits depth line) {margin : α}
    (hcomposition : line.tree.composition = some (.embedded margin)) :
    line.region.kind = .parcel ∧ ∃ feature size,
      line.tree.children = [.final .grass line.region.bounds, feature] ∧ feature.children = [] ∧
      line.region.bounds.inset margin = .ok feature.bounds ∧
      config.feature? feature.kind = some size ∧ margin = size.margin ∧
      size.minParcelSize < line.region.bounds.width ∧
      size.minParcelSize < line.region.bounds.height := by
  have hallows := Allows.of_records h hrecords
  obtain ⟨frame, feature, hverdict⟩ := Lineage.composition_tree_iff.mp hcomposition
  have hchildren := hrecords.children_tree
  generalize hkind : line.region.kind = kind at *
  rw [hverdict] at hallows hchildren
  cases hallows with
  | @feature kind size inner hfeature hroom hinner =>
      rw [map_tree_of_isFinal h hrecords (by rw [hverdict]; rfl) (by decide)] at hchildren
      exact ⟨rfl, .final kind inner, size, hchildren, rfl, hinner, hfeature, rfl, hroom⟩

/-- A parcel lies in a zone of its own that is not cut. -/
theorem exists_zone_of_parcel (h : engine config = .ok built)
    (hrecords : built.Records admits depth line) {above : List Nat} {place : Nat}
    {found : Lineage Kind α} (hfound : line.at? (above ++ [place]) = some found)
    (hkind : found.region.kind = .parcel) :
    ¬ config.Cuts found.region.bounds ∧ place = 0 ∧ ∃ zone, line.tree.at? above = some zone ∧
      zone.kind = .zone ∧ zone.bounds = found.region.bounds ∧ zone.children = [found.tree] := by
  obtain ⟨parent, hparent, hchild⟩ := Lineage.exists_above hfound
  have hlines := hrecords.of_at hparent
  have hpart := hlines.getElem?_pending hchild
  rw [show found.given = (.parcel, found.region.bounds) from Prod.ext hkind rfl] at hpart
  obtain ⟨hzone, hcuts, rfl, hbounds, hverdict⟩ :=
    (Allows.of_records h hlines).of_parcel_mem hpart
  have hgiven := hlines.given_children
  rw [hverdict] at hgiven
  obtain ⟨child, hchildren, _⟩ := List.map_eq_singleton_iff.mp hgiven
  rw [hchildren] at hchild
  cases hchild
  refine ⟨hbounds ▸ hcuts, rfl, parent.tree, hrecords.at_tree hparent, ?_, ?_, ?_⟩
  · rw [Lineage.kind_tree, hzone]
    rw [parent.tree_eq_graft, hverdict]
    rfl
  · rw [Lineage.bounds_tree, hbounds]
  · rw [hlines.children_tree, hchildren, hverdict]
    rfl

end Lines

theorem Config.minZoneSize_finite (h : config.check = .ok ()) :
    Scalar.isFinite config.minZoneSize = true := by
  simp only [check, bind_eq_ok_iff] at h
  obtain ⟨_, _, _, _, _, hzone, _⟩ := h
  unfold Parterre.Config.checkPositive at hzone
  split_ifs at hzone with hpositive
  exact hpositive.2

theorem le_of_not_cuts [Scalar.Compares α] (h : config.check = .ok ()) (hproper : bounds.Proper)
    (hcuts : ¬ config.Cuts bounds) :
    bounds.width ≤ config.minZoneSize ∧ bounds.height ≤ config.minZoneSize := by
  have hfinite := Config.minZoneSize_finite h
  obtain ⟨hwidth, hheight⟩ := not_or.mp hcuts
  constructor
  · exact Scalar.Compares.le_of_not_lt (hproper.finite .vertical) hfinite hwidth
  · exact Scalar.Compares.le_of_not_lt (hproper.finite .horizontal) hfinite hheight

theorem looks_of_feature {root region : Region Kind α} {way : List Nat} {size : Feature α}
    (hfinal : region = .final region.kind region.bounds)
    (hfeature : config.feature? region.kind = some size) : Looks config root way region := by
  have hkind := Config.isFinal_of_feature? hfeature
  refine ⟨fun _ => hkind, ?_, ?_, ?_⟩
  · intro hzone
    rw [hzone] at hkind
    exact absurd hkind (by decide)
  · intro hparcel
    rw [hparcel] at hkind
    exact absurd hkind (by decide)
  · intro margin hcomposition
    rw [hfinal] at hcomposition
    cases hcomposition

/-- In the layouts of a garden every region looks as the rules of the garden say,
whatever is drawn. -/
theorem run_parcels [Scalar.Compares α] [DrawSource σ α] {built : Engine Kind α}
    (h : engine config = .ok built) {limit : Nat} {width length : α} {source after : σ}
    {generation : Generation Kind α}
    (hrun : (built.run limit width length).run source = (.ok (some generation), after)) :
    ∀ way region, generation.root.at? way = some region →
      Looks config generation.root way region := by
  obtain ⟨hcheck, _, _, hsettings⟩ := of_engine h
  obtain ⟨_, lineage, _, htree, hgiven, hproper, hrecords⟩ := Engine.exists_proper_lineage hrun
  rw [← htree]
  intro way region hregion
  rcases hrecords.at_cases hregion with
    ⟨line, hline, rfl⟩ | ⟨hfinal, above, parent, frame, margin, _, hparent, hverdict⟩
  · have hlines := hrecords.of_at hline
    refine ⟨isFinal_of_leaf h hlines, ?_, ?_, ?_⟩
    · intro hkind hhalves
      have hsome : line.tree.children ≠ [] := by
        intro hnone
        rw [hnone] at hhalves
        cases hhalves
      rw [Lineage.bounds_tree]
      exact cuts_of_halved h hlines ((hlines.decides.handed hsome).1 ▸ hkind) hhalves
    · intro hkind hstate
      rw [Lineage.kind_tree hstate] at hkind
      rcases List.eq_nil_or_concat' way with rfl | ⟨above, place, rfl⟩
      · -- the root was given the kind of roots
        cases hline
        have hroot := congrArg Prod.fst hgiven
        rw [Lineage.given, hkind, hsettings] at hroot
        cases hroot
      · obtain ⟨hcuts, rfl, zone, hzone, hzoneKind, hbounds, hchildren⟩ :=
          exists_zone_of_parcel h hrecords hline hkind
        rw [Lineage.bounds_tree]
        exact ⟨⟨above, zone, rfl, hzone, hzoneKind, hbounds, hchildren⟩,
          le_of_not_cuts hcheck (hrecords.proper hproper hline) hcuts,
          children_of_parcel h hlines hkind hstate⟩
    · intro margin hcomposition
      obtain ⟨hkind, hfeature⟩ := embedded_of_records h hlines hcomposition
      have hstate : line.tree.state = .expanded := by
        obtain ⟨_, _, hverdict⟩ := Lineage.composition_tree_iff.mp hcomposition
        rw [line.tree_eq_graft, hverdict]
        rfl
      rw [Lineage.kind_tree hstate, Lineage.bounds_tree]
      exact ⟨hkind, hfeature⟩
  · have hallows := Allows.of_records h (hrecords.of_at hparent)
    rw [hverdict] at hallows
    generalize parent.region.kind = kind at hallows
    cases hallows with
    | feature hfeature _ _ => exact looks_of_feature hfinal hfeature

/-- The zone on the left of the small garden is a parcel with a pond. -/
theorem run_parcels_small :
    ∃ generation after,
      (small.run 12 400 300).run smallDraws = (.ok (some generation), after) ∧
      (∃ parcel, generation.root.at? [0, 0] = some parcel ∧
        parcel.composition = some (.embedded 20) ∧ Looks .small generation.root [0, 0] parcel) ∧
      ∀ way region, generation.root.at? way = some region →
        Looks .small generation.root way region := by
  have hfinished : (Engine.finished ((small.run 12 400 300).run smallDraws)).bind
      (fun generation => (generation.root.at? [0, 0]).map Region.composition) =
      some (some (.embedded 20)) := by
    decide +kernel
  obtain ⟨generation, hgeneration, hparcel⟩ := Option.bind_eq_some_iff.mp hfinished
  obtain ⟨after, hrun⟩ := Engine.eq_of_finished hgeneration
  obtain ⟨parcel, hregion, hcomposition⟩ := Option.map_eq_some_iff.mp hparcel
  have hlooks := run_parcels engine_small hrun
  exact ⟨generation, after, hrun, ⟨parcel, hregion, hcomposition, hlooks _ _ hregion⟩, hlooks⟩

end Parterre.Garden
