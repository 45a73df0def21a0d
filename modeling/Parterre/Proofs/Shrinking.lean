/-
Kinds that shrink.  What the search for the ways back has seen was left behind, and
every kind that a seen kind leads to is seen or still on the stack.  So the search
finds a kind exactly if it leads back to itself.  In an accepted table no kind does,
and the kinds can be numbered such that every way at full size goes down.
-/
import Mathlib.Data.Set.Card
import Mathlib.Logic.Relation
import Parterre.Engine
import Parterre.Proofs.Arrival

namespace Parterre

variable {κ α : Type}

/-- The list of kinds leaves none out. -/
def RegionKind.Complete (κ : Type) [RegionKind κ] : Prop :=
  ∀ kind : κ, kind ∈ (RegionKind.all : List κ)

theorem RegionKind.Complete.finite [RegionKind κ] (h : RegionKind.Complete κ) : Finite κ :=
  Set.finite_univ_iff.mp
    ((List.finite_toSet (RegionKind.all : List κ)).subset fun kind _ => h kind)

theorem RegionKind.Complete.card_le [DecidableEq κ] [RegionKind κ]
    (h : RegionKind.Complete κ) : Nat.card κ ≤ (RegionKind.all : List κ).length := by
  have hall : Set.univ ⊆ ((RegionKind.all : List κ).toFinset : Set κ) :=
    fun kind _ => List.mem_toFinset.mpr (h kind)
  calc Nat.card κ = (Set.univ : Set κ).ncard := (Set.ncard_univ κ).symm
    _ ≤ ((RegionKind.all : List κ).toFinset : Set κ).ncard :=
        Set.ncard_le_ncard hall (Finset.finite_toSet _)
    _ = (RegionKind.all : List κ).toFinset.card := Set.ncard_coe_finset _
    _ ≤ (RegionKind.all : List κ).length := List.toFinset_card_le _

namespace Ways

variable [DecidableEq κ] {ways : Ways κ} {start kind : κ} {seen rest stack : List κ}

/-- The first kind leads to the second kind. -/
def Leads (ways : Ways κ) (first second : κ) : Prop :=
  second ∈ ways.behind first

/-- What the search has seen was left behind: every kind that a seen kind leads to
is seen or on the stack, and the start was not seen. -/
structure Searches (ways : Ways κ) (start : κ) (seen stack : List κ) : Prop where
  behind : ∀ kind ∈ seen, ∀ other, ways.Leads kind other → other ∈ seen ∨ other ∈ stack
  fresh : start ∉ seen

namespace Searches

theorem begin (ways : Ways κ) (start : κ) (stack : List κ) : ways.Searches start [] stack where
  behind := fun _ hkind => absurd hkind List.not_mem_nil
  fresh := List.not_mem_nil

/-- A kind that is seen already is taken off. -/
theorem skip (h : ways.Searches start seen (kind :: rest)) (hseen : kind ∈ seen) :
    ways.Searches start seen rest where
  behind := by
    intro earlier hearlier other hleads
    rcases h.behind earlier hearlier other hleads with hother | hother
    · exact Or.inl hother
    · rcases List.mem_cons.mp hother with rfl | hrest
      · exact Or.inl hseen
      · exact Or.inr hrest
  fresh := h.fresh

/-- A kind that is new is seen, and the kinds that it leads to are put on the
stack. -/
theorem push (h : ways.Searches start seen (kind :: rest)) (hne : kind ≠ start) :
    ways.Searches start (kind :: seen) ((ways.behind kind).reverse ++ rest) where
  behind := by
    intro earlier hearlier other hleads
    rw [List.mem_append, List.mem_reverse]
    rcases List.mem_cons.mp hearlier with rfl | hearlier
    · exact Or.inr (Or.inl hleads)
    · rcases h.behind earlier hearlier other hleads with hother | hother
      · exact Or.inl (List.mem_cons_of_mem kind hother)
      · rcases List.mem_cons.mp hother with rfl | hrest
        · exact Or.inl List.mem_cons_self
        · exact Or.inr (Or.inr hrest)
  fresh := List.not_mem_cons_of_ne_of_not_mem hne.symm h.fresh

/-- When the stack is empty, nothing that was seen leads to the start. -/
theorem not_leads_of_empty (h : ways.Searches start seen []) (hseen : kind ∈ seen) :
    ¬ Relation.ReflTransGen ways.Leads kind start := by
  obtain ⟨hbehind, hfresh⟩ := h
  intro hway
  apply hfresh
  clear hfresh
  induction hway with
  | refl => exact hseen
  | tail _ hleads ih => exact (hbehind _ ih _ hleads).resolve_right List.not_mem_nil

/-- A search that does not find the start has seen nothing that leads to it. -/
theorem not_leads (h : ways.Searches start seen stack)
    (hnone : ways.leadsBack start seen stack = false) (hkind : kind ∈ seen ∨ kind ∈ stack) :
    ¬ Relation.ReflTransGen ways.Leads kind start := by
  fun_induction leadsBack ways start seen stack with
  | case1 seen => exact h.not_leads_of_empty (hkind.resolve_right List.not_mem_nil)
  | case2 => cases hnone
  | case3 seen top rest hne hseen ih =>
      refine ih (h.skip hseen) hnone ?_
      rcases hkind with hkind | hkind
      · exact Or.inl hkind
      · rcases List.mem_cons.mp hkind with rfl | hrest
        · exact Or.inl hseen
        · exact Or.inr hrest
  | case4 seen top rest hne hnew ih =>
      refine ih (h.push hne) hnone ?_
      rw [List.mem_append]
      rcases hkind with hkind | hkind
      · exact Or.inl (List.mem_cons_of_mem top hkind)
      · rcases List.mem_cons.mp hkind with rfl | hrest
        · exact Or.inl List.mem_cons_self
        · exact Or.inr (Or.inr hrest)

end Searches

/-- What a search finds is led to from the stack. -/
theorem exists_of_leadsBack (h : ways.leadsBack start seen stack = true) :
    ∃ kind ∈ stack, Relation.ReflTransGen ways.Leads kind start := by
  fun_induction leadsBack ways start seen stack with
  | case1 => cases h
  | case2 seen rest => exact ⟨start, List.mem_cons_self, .refl⟩
  | case3 seen top rest hne hseen ih =>
      obtain ⟨kind, hkind, hway⟩ := ih h
      exact ⟨kind, List.mem_cons_of_mem top hkind, hway⟩
  | case4 seen top rest hne hnew ih =>
      obtain ⟨kind, hkind, hway⟩ := ih h
      rw [List.mem_append, List.mem_reverse] at hkind
      rcases hkind with hleads | hrest
      · exact ⟨top, List.mem_cons_self, .head hleads hway⟩
      · exact ⟨kind, List.mem_cons_of_mem top hrest, hway⟩

/-- The search finds out whether a kind leads back to itself. -/
theorem leadsToItself_iff :
    ways.leadsToItself kind = true ↔ Relation.TransGen ways.Leads kind kind := by
  rw [Relation.TransGen.head'_iff]
  constructor
  · intro h
    obtain ⟨first, hfirst, hway⟩ := exists_of_leadsBack h
    exact ⟨first, List.mem_reverse.mp hfirst, hway⟩
  · rintro ⟨first, hfirst, hway⟩
    by_contra hnone
    exact (Searches.begin ways kind _).not_leads (Bool.eq_false_of_not_eq_true hnone)
      (Or.inr (List.mem_reverse.mpr hfirst)) hway

theorem check_eq_ok_iff [RegionKind κ] :
    ways.check = (.ok () : Except (LayoutError α) Unit) ↔
      ∀ kind ∈ (RegionKind.all : List κ), ¬ Relation.TransGen ways.Leads kind kind := by
  simp only [← leadsToItself_iff, ← List.find?_eq_none, check]
  cases (RegionKind.all : List κ).find? ways.leadsToItself with
  | some first => simp [throw, throwThe, MonadExceptOf.throw]
  | none => simp [pure, Except.pure]

end Ways

variable [DecidableEq κ] [RegionKind κ] [Scalar α]

namespace RuleTable

variable {table : RuleTable κ α} {frame kind : κ}

/-- The first kind may give a region of its size the second kind. -/
def Leads (table : RuleTable κ α) (frame first second : κ) : Prop :=
  second ∈ table.sameSizeKinds frame first

/-- An end that keeps the size of a region leads to the kind it gives. -/
theorem leads_of_mem_ends {other : κ} {rule : Rule κ α} {step : Step κ α}
    (hrule : table.rule? kind = some rule) (hstep : step ∈ rule.ends)
    (hother : other ∈ step.sameSizeKinds frame) : table.Leads frame kind other := by
  simp only [Leads, sameSizeKinds, hrule, Rule.sameSizeKinds_eq]
  exact List.mem_flatMap.mpr ⟨step, hstep, hother⟩

/-- Every kind has a rule. -/
theorem mem_kinds (table : RuleTable κ α) (hcomplete : RegionKind.Complete κ) (kind : κ) :
    kind ∈ table.entries.map Prod.fst := by
  obtain ⟨_, _, hcoverage⟩ := bind_eq_ok_iff.mp table.accepted
  by_contra hmissing
  rw [checkCoverage] at hcoverage
  cases hfind : (RegionKind.all : List κ).find?
      fun kind => kind ∉ table.entries.map Prod.fst with
  | some found =>
      rw [hfind] at hcoverage
      cases hcoverage
  | none =>
      have hall := List.find?_eq_none.mp hfind kind (hcomplete kind)
      exact hall (decide_eq_true hmissing)

/-- The ways of a table lead from a kind to the kinds that its rule gives. -/
theorem behind_ways (table : RuleTable κ α) (frame kind : κ) :
    (table.ways frame).behind kind = table.sameSizeKinds frame kind := by
  rw [Ways.behind, ways, sameSizeKinds, rule?]
  induction table.entries with
  | nil => rfl
  | cons entry rest ih =>
      rw [List.map_cons, List.lookup_cons, List.lookup_cons]
      cases kind == entry.1 with
      | true => rfl
      | false => exact ih

theorem leads_ways : (table.ways frame).Leads = table.Leads frame := by
  funext first second
  rw [Ways.Leads, behind_ways, Leads]

/-- A table is accepted exactly if none of all kinds leads back to itself. -/
theorem checkShrinks_eq_ok_iff :
    table.checkShrinks frame = .ok () ↔
      ∀ kind ∈ (RegionKind.all : List κ), ¬ Relation.TransGen (table.Leads frame) kind kind := by
  rw [checkShrinks, Ways.check_eq_ok_iff, leads_ways]

theorem not_leads_self (hcomplete : RegionKind.Complete κ)
    (h : table.checkShrinks frame = .ok ()) (kind : κ) :
    ¬ Relation.TransGen (table.Leads frame) kind kind :=
  checkShrinks_eq_ok_iff.mp h kind (hcomplete kind)

/-- The number of kinds that a kind leads to at full size. -/
noncomputable def height (table : RuleTable κ α) (frame kind : κ) : Nat :=
  {other | Relation.TransGen (table.Leads frame) kind other}.ncard

theorem height_le_card (table : RuleTable κ α) (hcomplete : RegionKind.Complete κ)
    (frame kind : κ) : table.height frame kind ≤ Nat.card κ := by
  have hfinite := hcomplete.finite
  exact Set.ncard_le_card _

/-- No kind leads to itself, so it leads to fewer kinds than there are. -/
theorem height_lt_card (hcomplete : RegionKind.Complete κ)
    (h : table.checkShrinks frame = .ok ()) (kind : κ) :
    table.height frame kind < Nat.card κ := by
  have hfinite := hcomplete.finite
  apply Set.ncard_lt_card
  intro hall
  exact not_leads_self hcomplete h kind (Set.eq_univ_iff_forall.mp hall kind)

/-- Every way at full size goes down. -/
theorem height_lt (hcomplete : RegionKind.Complete κ)
    (h : table.checkShrinks frame = .ok ()) {other : κ} (hleads : table.Leads frame kind other) :
    table.height frame other < table.height frame kind := by
  have hfinite := hcomplete.finite
  apply Set.ncard_lt_ncard _ (Set.toFinite _)
  refine ⟨fun later hlater => Relation.TransGen.head hleads hlater, fun hsubset => ?_⟩
  exact not_leads_self hcomplete h other (hsubset (Relation.TransGen.single hleads))

end RuleTable

end Parterre
