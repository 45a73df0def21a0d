/-
The engines of the layouts.  An engine that a configuration was accepted for has
the rules and the settings of that configuration.
-/
import Parterre.Planting.Rules
import Parterre.Proofs.Checked
import Parterre.Proofs.WellFormed

namespace Parterre

section Engines

variable {κ α : Type} [DecidableEq κ] [RegionKind κ] [Scalar α]

namespace RuleTable

variable {table : RuleTable κ α} {rule : κ → Rule κ α}

theorem entries_of_ofList {entries : List (κ × Rule κ α)} (h : ofList entries = .ok table) :
    table.entries = entries := by
  unfold ofList at h
  split at h
  · cases h
    rfl
  · cases h

theorem eq_of_mem_entries (h : ofFunction rule = .ok table) {kind : κ} {given : Rule κ α}
    (hmem : (kind, given) ∈ table.entries) : given = rule kind := by
  rw [entries_of_ofList h] at hmem
  obtain ⟨_, _, heq⟩ := List.mem_map.mp hmem
  cases heq
  rfl

theorem rule?_of_ofFunction (hcomplete : RegionKind.Complete κ)
    (h : ofFunction rule = .ok table) (kind : κ) : table.rule? kind = some (rule kind) := by
  obtain ⟨given, hgiven⟩ := table.exists_rule? hcomplete kind
  rw [hgiven, eq_of_mem_entries h (mem_of_rule? hgiven)]

/-- The steps of a table are those of its rules. -/
theorem exists_kind_of_mem_steps (h : ofFunction rule = .ok table) {step : Step κ α}
    (hstep : step ∈ table.steps) : ∃ kind, step ∈ (rule kind).steps := by
  obtain ⟨⟨kind, given⟩, hentry, hmem⟩ := List.mem_flatMap.mp hstep
  obtain rfl := eq_of_mem_entries h hentry
  exact ⟨kind, hmem⟩

end RuleTable

theorem Engine.eq_of_ofSettings {table : RuleTable κ α} {settings : Settings κ α}
    {built : Engine κ α} (h : ofSettings table settings = .ok built) :
    built.table = table ∧ built.settings = settings := by
  unfold ofSettings at h
  split at h
  · cases h
    exact ⟨rfl, rfl⟩
  · cases h

end Engines

/-- The value of a computation that does not fail. -/
theorem eq_ok_of_get {ε β : Type} {result : Except ε β} (h : result.toOption.isSome = true) :
    result = .ok (result.toOption.get h) := by
  cases result with
  | error failure => cases h
  | ok value => rfl

variable {α : Type} [Scalar α]

namespace Garden

theorem complete : RegionKind.Complete Kind :=
  Kind.mem_all

/-- What went into the engine of a garden. -/
theorem of_engine {config : Config α} {built : Engine Kind α} (h : engine config = .ok built) :
    config.check = .ok () ∧ RuleTable.ofFunction (rule config) = .ok built.table ∧
      ∃ safeguard, built.settings =
        { root := .root
          minDim := config.minDim
          safeguard := safeguard
          frame := .grass
          maxDepth := config.maxDepth
          keepAtMaxDepth := false } := by
  obtain ⟨_, hcheck, h⟩ := bind_eq_ok_iff.mp h
  obtain ⟨safeguard, _, h⟩ := bind_eq_ok_iff.mp h
  obtain ⟨table, htable, h⟩ := bind_eq_ok_iff.mp h
  obtain ⟨rfl, hsettings⟩ := Engine.eq_of_ofSettings h
  exact ⟨hcheck, htable, safeguard, hsettings⟩

theorem engine_small : engine Config.small = .ok small :=
  eq_ok_of_get _

end Garden

namespace Planting

theorem complete : RegionKind.Complete Kind :=
  Kind.mem_all

/-- What went into the engine of a planting. -/
theorem of_engine {config : Config α} {built : Engine Kind α} (h : engine config = .ok built) :
    config.check = .ok () ∧ RuleTable.ofFunction (rule config) = .ok built.table ∧
      ∃ safeguard, built.settings =
        { root := .root
          minDim := config.minDim
          safeguard := safeguard
          frame := .grass
          maxDepth := config.maxDepth
          keepAtMaxDepth := config.keepKindsAtMaxDepth } := by
  obtain ⟨_, hcheck, h⟩ := bind_eq_ok_iff.mp h
  obtain ⟨safeguard, _, h⟩ := bind_eq_ok_iff.mp h
  obtain ⟨table, htable, h⟩ := bind_eq_ok_iff.mp h
  obtain ⟨rfl, hsettings⟩ := Engine.eq_of_ofSettings h
  exact ⟨hcheck, htable, safeguard, hsettings⟩

/-- A planting with few levels. -/
def Config.small : Config Rat where
  minDim := 30
  maxDepth := some 6
  splitRatio := ⟨3 / 10, 7 / 10⟩
  keepKindsAtMaxDepth := true
  safeguard := [⟨.grass, 1⟩]

/-- The engine of the small planting. -/
def small : Engine Kind Rat :=
  (engine Config.small).toOption.get (by decide +kernel)

theorem engine_small : engine Config.small = .ok small :=
  eq_ok_of_get _

end Planting

end Parterre
