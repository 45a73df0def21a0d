/-
Regions that are rewritten at their own size.  An only child has the size of its
region, and so has the frame under an embedded feature; in both cases the rule
of the region leads to the kind of the child at full size.  No kind of an
accepted table leads back to itself, so along such children every kind is
expanded at most once.
-/
import Parterre.Proofs.Contraction
import Parterre.Proofs.Growth
import Parterre.Proofs.Layouts
import Parterre.Proofs.Termination

namespace Parterre

variable {κ α σ : Type}

namespace Region

/-- The child is all there is of the region: its only child, or the frame under
an embedded feature. -/
def FilledBy (region child : Region κ α) : Prop :=
  region.children = [child] ∨
    (∃ margin, region.composition = some (.embedded margin)) ∧
      region.children.head? = some child

theorem FilledBy.mem_children {region child : Region κ α} (h : region.FilledBy child) :
    child ∈ region.children := by
  rcases h with honly | ⟨_, hframe⟩
  · rw [honly]
    exact List.mem_singleton_self child
  · exact List.mem_of_mem_head? hframe

theorem FilledBy.mem_walk {region child found : Region κ α} (h : region.FilledBy child)
    (hfound : found ∈ child.walk) : found ∈ region.walk :=
  mem_walk_iff.mpr (Or.inr ⟨child, h.mem_children, hfound⟩)

end Region

/-- A child that fills its region is the one that was still to be decided. -/
theorem Verdict.below_of_filledBy {verdict : Verdict κ α} {kind : κ} {bounds : Rect α}
    {below : List (Region κ α)} {child : Region κ α}
    (hlength : verdict.pending.length = below.length)
    (h : (verdict.graft kind bounds below).FilledBy child) :
    below = [child] ∧ (verdict.graft kind bounds below).kind = kind := by
  rcases verdict with replacement | (_ | parts | ⟨frame, feature, margin⟩)
  · cases h.mem_children
  · cases h.mem_children
  · rcases h with honly | ⟨⟨margin, hembedded⟩, _⟩
    · exact ⟨honly, rfl⟩
    · cases hembedded
  · obtain ⟨first, rfl⟩ := List.length_eq_one_iff.mp hlength.symm
    rcases h with honly | ⟨_, hframe⟩
    · cases honly
    · cases hframe
      exact ⟨rfl, rfl⟩

theorem Verdict.expanded_of_children {verdict : Verdict κ α} {kind : κ} {bounds : Rect α}
    {below : List (Region κ α)} (h : (verdict.graft kind bounds below).children ≠ []) :
    (verdict.graft kind bounds below).state = .expanded := by
  rcases verdict with replacement | (_ | parts | ⟨frame, feature, margin⟩)
  · exact absurd rfl h
  · exact absurd rfl h
  · rfl
  · rfl

/-- An expanded region has the kind that was decided about. -/
theorem Verdict.kind_of_expanded {verdict : Verdict κ α} {kind : κ} {bounds : Rect α}
    {below : List (Region κ α)} (h : (verdict.graft kind bounds below).state = .expanded) :
    (verdict.graft kind bounds below).kind = kind := by
  rcases verdict with replacement | (_ | parts | ⟨frame, feature, margin⟩)
  · cases h
  · cases h
  · rfl
  · rfl

variable [Scalar α]

/-- A step that gives a region a single child to be decided about gives it a kind
at full size. -/
theorem Step.Gives.mem_sameSizeKinds {admits : α → Prop} {bounds : Rect α} {frame : κ}
    {step : Step κ α} {expansion : Expansion κ α} (h : step.Gives admits bounds frame expansion)
    {part : κ × Rect α} (hsingle : (Verdict.expanded expansion).pending = [part]) :
    part.1 ∈ step.sameSizeKinds frame := by
  cases h with
  | terminal => cases hsingle
  | @laid _ kinds cut rects hlays hparts =>
      have harity : cut.arity = 1 := by
        have hlength := congrArg List.length hsingle
        rwa [Verdict.pending, List.length_zip, hlays.length_kinds, Cut.length_of_parts hparts,
          Nat.min_self] at hlength
      have hmem : part ∈ kinds.zip rects := List.mem_of_mem_head? (congrArg List.head? hsingle)
      cases hlays with
      | fill kind => exact (List.of_mem_zip hmem).1
      | bisect | quarter | corridor | mixTwo | mixFour => cases harity
  | embed =>
      cases hsingle
      exact List.mem_singleton_self frame

namespace Engine

variable [DecidableEq κ] [RegionKind κ] {engine : Engine κ α} {admits : α → Prop}

/-- An expanded region has the kind that it grew from. -/
theorem Grown.kind_of_expanded {depth : Nat} {kind : κ} {bounds : Rect α} {region : Region κ α}
    (h : engine.Grown admits depth kind bounds region) (hexpanded : region.state = .expanded) :
    region.kind = kind := by
  cases h
  exact Verdict.kind_of_expanded hexpanded

theorem Grown.expanded_of_children {depth : Nat} {kind : κ} {bounds : Rect α}
    {region : Region κ α} (h : engine.Grown admits depth kind bounds region)
    (hsome : region.children ≠ []) : region.state = .expanded := by
  cases h
  exact Verdict.expanded_of_children hsome

/-- A grown region leads to the kind of an expanded child that fills it. -/
theorem Grown.leads [Scalar.Weighs α] (hadmits : ∀ value, admits value → 0 ≤ value)
    {depth : Nat} {kind : κ} {bounds : Rect α} {region child : Region κ α}
    (h : engine.Grown admits depth kind bounds region) (hfilled : region.FilledBy child)
    (hexpanded : child.state = .expanded) :
    engine.table.Leads engine.settings.frame region.kind child.kind := by
  cases h with
  | @node _ _ _ verdict below hverdict hbelow =>
      have hgrown := grownAll_iff.mp hbelow
      obtain ⟨rfl, hkind⟩ := Verdict.below_of_filledBy hgrown.length_eq hfilled
      obtain ⟨part, rest, hchild, hrest, hsingle⟩ := List.forall₂_cons_right_iff.mp hgrown
      obtain rfl := List.forall₂_nil_right_iff.mp hrest
      rw [hkind, hchild.kind_of_expanded hexpanded]
      rcases outcome_judge hverdict with
        ⟨_, final, rfl, _⟩ | ⟨_, rule, step, expansion, hrule, hsettle, hgives, rfl⟩
      · cases hsingle
      · have hend := rule.mem_ends_of_settle hadmits (RuleTable.check_of_rule? hrule) hsettle
        exact RuleTable.leads_of_mem_ends hrule hend (hgives.mem_sameSizeKinds hsingle)

/-- Only expanded regions have children. -/
theorem Grown.state_of_mem_walk {depth : Nat} {kind : κ} {bounds : Rect α}
    {region found : Region κ α} (h : engine.Grown admits depth kind bounds region)
    (hfound : found ∈ region.walk) (hsome : found.children ≠ []) : found.state = .expanded := by
  rcases h.of_mem_walk hfound with ⟨_, _, _, hgrown⟩ | hfinal
  · exact hgrown.expanded_of_children hsome
  · rw [hfinal] at hsome
    exact absurd rfl hsome

theorem Grown.leads_of_mem_walk [Scalar.Weighs α] (hadmits : ∀ value, admits value → 0 ≤ value)
    {depth : Nat} {kind : κ} {bounds : Rect α} {region found child : Region κ α}
    (h : engine.Grown admits depth kind bounds region) (hfound : found ∈ region.walk)
    (hfilled : found.FilledBy child) (hexpanded : child.state = .expanded) :
    engine.table.Leads engine.settings.frame found.kind child.kind := by
  rcases h.of_mem_walk hfound with ⟨_, _, _, hgrown⟩ | hfinal
  · exact hgrown.leads hadmits hfilled hexpanded
  · have hchild := hfilled.mem_children
    rw [hfinal] at hchild
    cases hchild

/-- Along regions that fill each other, each expanded kind leads to the next
one. -/
theorem Grown.leads_along [Scalar.Weighs α] (hadmits : ∀ value, admits value → 0 ≤ value)
    {depth : Nat} {kind : κ} {bounds : Rect α} {region : Region κ α}
    (h : engine.Grown admits depth kind bounds region) {chain : List (Region κ α)}
    (hwalk : ∀ found ∈ chain, found ∈ region.walk) (hchain : chain.IsChain Region.FilledBy) :
    ((chain.filter fun found => found.state = .expanded).map Region.kind).IsChain
      (engine.table.Leads engine.settings.frame) := by
  induction hchain with
  | nil => exact .nil
  | singleton found =>
      by_cases hexpanded : found.state = .expanded <;> simp [hexpanded]
  | @cons_cons first second rest hfilled hrest ih =>
      -- only the last region of the chain may be without children
      obtain ⟨hfirst, hothers⟩ := List.forall_mem_cons.mp hwalk
      have hsecond := hothers second List.mem_cons_self
      have hleads := ih hothers
      have hexpanded : first.state = .expanded :=
        h.state_of_mem_walk hfirst (List.ne_nil_of_mem hfilled.mem_children)
      rw [List.filter_cons_of_pos (by simpa using hexpanded)]
      by_cases hnext : second.state = .expanded
      · rw [List.filter_cons_of_pos (by simpa using hnext)] at hleads ⊢
        exact .cons_cons (h.leads_of_mem_walk hadmits hfirst hfilled hnext) hleads
      · -- nothing fills a region that is not expanded, so the chain ends here
        have hend : rest = [] := by
          by_contra hmore
          obtain ⟨third, later, rfl⟩ := List.exists_cons_of_ne_nil hmore
          have hthird := (List.isChain_cons_cons.mp hrest).1
          exact hnext (h.state_of_mem_walk hsecond (List.ne_nil_of_mem hthird.mem_children))
        rw [hend, List.filter_cons_of_neg (by simpa using hnext)]
        exact .singleton _

/-- Along regions that fill each other no kind is expanded twice, so not more
regions are expanded than there are kinds. -/
theorem run_expands_once [Scalar.Weighs α] [DrawSource σ α] (engine : Engine κ α)
    (hcomplete : RegionKind.Complete κ) {limit : Nat} {width length : α} {source after : σ}
    {generation : Generation κ α} (hsource : DrawSource.Delivers InUnit source)
    (hrun : (engine.run limit width length).run source = (.ok (some generation), after))
    {chain : List (Region κ α)} (hwalk : ∀ region ∈ chain, region ∈ generation.root.walk)
    (hchain : chain.IsChain Region.FilledBy) :
    ((chain.filter fun region => region.state = .expanded).map Region.kind).Nodup ∧
      (chain.filter fun region => region.state = .expanded).length ≤
        (RegionKind.all : List κ).length := by
  have hleads := (grown_of_run hsource hrun).leads_along (fun _ hvalue => hvalue.1) hwalk hchain
  have hways := (hleads.imp fun _ _ => Relation.TransGen.single).pairwise
  have hnodup : ((chain.filter fun region => region.state = .expanded).map
      Region.kind).Nodup := by
    apply hways.imp
    intro first second hway hsame
    rw [hsame] at hway
    exact RuleTable.not_leads_self hcomplete engine.checkShrinks_of_accepted second hway
  refine ⟨hnodup, ?_⟩
  rw [← List.length_map Region.kind]
  exact (hnodup.subperm fun kind _ => hcomplete kind).length_le

end Engine

/-- The left zone of the small garden becomes a parcel, and the parcel is grass
under a pond. -/
theorem Garden.run_expands_once_small :
    ∃ generation after zone parcel grass,
      (small.run 12 400 300).run smallDraws = (.ok (some generation), after) ∧
      zone ∈ generation.root.children ∧ zone.FilledBy parcel ∧ parcel.FilledBy grass ∧
      (([zone, parcel, grass].filter fun region => region.state = .expanded).map
        Region.kind).Nodup := by
  have hshape : ((Engine.finished ((small.run 12 400 300).run smallDraws)).bind
      fun generation => generation.root.children.head?.bind fun zone =>
        zone.children.head?.bind fun parcel => parcel.children.head?.map fun _ =>
          (zone.children.length, parcel.composition)) = some (1, some (.embedded 20)) := by
    decide +kernel
  obtain ⟨generation, hgeneration, hshape⟩ := Option.bind_eq_some_iff.mp hshape
  obtain ⟨zone, hzone, hshape⟩ := Option.bind_eq_some_iff.mp hshape
  obtain ⟨parcel, hparcel, hshape⟩ := Option.bind_eq_some_iff.mp hshape
  obtain ⟨grass, hgrass, hshape⟩ := Option.map_eq_some_iff.mp hshape
  obtain ⟨hsingle, hpond⟩ := Prod.mk.inj hshape
  obtain ⟨after, hrun⟩ := Engine.eq_of_finished hgeneration
  have honly : zone.FilledBy parcel := by
    obtain ⟨only, honly⟩ := List.length_eq_one_iff.mp hsingle
    rw [honly, List.head?_cons, Option.some.injEq] at hparcel
    exact Or.inl (hparcel ▸ honly)
  have hframe : parcel.FilledBy grass := Or.inr ⟨⟨20, hpond⟩, hgrass⟩
  have hmem : zone ∈ generation.root.children := List.mem_of_mem_head? hzone
  have hbelow : ∀ region ∈ zone.walk, region ∈ generation.root.walk := fun region hregion =>
    Region.mem_walk_iff.mpr (Or.inr ⟨zone, hmem, hregion⟩)
  have hwalk : ∀ region ∈ [zone, parcel, grass], region ∈ generation.root.walk := by
    simp only [List.forall_mem_cons, List.not_mem_nil, false_implies, implies_true, and_true]
    exact ⟨hbelow _ zone.mem_walk_self, hbelow _ (honly.mem_walk parcel.mem_walk_self),
      hbelow _ (honly.mem_walk (hframe.mem_walk grass.mem_walk_self))⟩
  obtain ⟨hnodup, _⟩ := Engine.run_expands_once small Garden.complete
    (Script.delivers_inUnit _) hrun hwalk (.cons_cons honly (.cons_cons hframe (.singleton grass)))
  exact ⟨generation, after, zone, parcel, grass, hrun, hmem, honly, hframe, hnodup⟩

end Parterre
