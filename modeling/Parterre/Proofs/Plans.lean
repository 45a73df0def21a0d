/-
What the rules of the layouts arrive at.  A garden is divided down to parcels, and
a parcel gets one final kind or a feature that it is large enough for.  A planting
mixes the palettes of its beds.
-/
import Parterre.Proofs.Arrival
import Parterre.Proofs.Layouts

namespace Parterre

namespace Rule

variable {κ α : Type} [Scalar α] {admits : α → Prop} {bounds : Rect α} {goal : Step κ α → Prop}

/-- Every step that the rule arrives at for the rectangle has the property. -/
def Ensures (admits : α → Prop) (bounds : Rect α) (goal : Step κ α → Prop)
    (rule : Rule κ α) : Prop :=
  ∀ step, rule.Arrives admits bounds step → goal step

theorem ensures_always {step : Step κ α} (h : goal step) :
    (always step).Ensures admits bounds goal := by
  intro arrived harrives
  cases harrives
  exact h

theorem ensures_weighted {branches : List (α × Rule κ α)}
    (h : ∀ branch ∈ branches, branch.2.Ensures admits bounds goal) :
    (weighted branches).Ensures admits bounds goal := by
  intro step harrives
  cases harrives with
  | branch _ _ hbranch harrives => exact h _ (List.mem_of_getElem? hbranch) step harrives

theorem ensures_ifBothExceed {minWidth minHeight : α} {large small : Rule κ α}
    (hlarge : minWidth < bounds.width ∧ minHeight < bounds.height →
      large.Ensures admits bounds goal)
    (hsmall : small.Ensures admits bounds goal) :
    (ifBothExceed minWidth minHeight large small).Ensures admits bounds goal := by
  intro step harrives
  cases harrives with
  | bothExceed hexceed harrives => exact hlarge hexceed step harrives
  | notBothExceed _ harrives => exact hsmall step harrives

theorem ensures_ifEitherExceeds {threshold : α} {large small : Rule κ α}
    (hlarge : threshold < bounds.width ∨ threshold < bounds.height →
      large.Ensures admits bounds goal)
    (hsmall : ¬ (threshold < bounds.width ∨ threshold < bounds.height) →
      small.Ensures admits bounds goal) :
    (ifEitherExceeds threshold large small).Ensures admits bounds goal := by
  intro step harrives
  cases harrives with
  | eitherExceeds hexceed harrives => exact hlarge hexceed step harrives
  | noneExceeds hexceed harrives => exact hsmall hexceed step harrives

end Rule

variable {α : Type} [Scalar α] {admits : α → Prop} {bounds : Rect α}

namespace Garden

variable {config : Config α}

/-- Kinds that are left alone. -/
def Kind.IsFinal (kind : Kind) : Prop :=
  kind ∉ [Kind.root, Kind.zone, Kind.parcel]

instance : DecidablePred Kind.IsFinal :=
  fun kind => inferInstanceAs (Decidable (kind ∉ [Kind.root, Kind.zone, Kind.parcel]))

/-- The sizes of the features that are set into parcels. -/
def Config.feature? (config : Config α) : Kind → Option (Feature α)
  | .pond => some config.pond
  | .fountain => some config.fountain
  | .treasure => some ⟨config.treasure.minParcelSize, config.treasure.margin⟩
  | _ => none

omit [Scalar α] in
theorem Config.isFinal_of_feature? {kind : Kind} {size : Feature α}
    (h : config.feature? kind = some size) : kind.IsFinal := by
  cases kind with
  | root | zone | parcel => cases h
  | _ => decide

/-- A zone of this size is still cut. -/
def Config.Cuts (config : Config α) (bounds : Rect α) : Prop :=
  config.minZoneSize < bounds.width ∨ config.minZoneSize < bounds.height

/-- The steps that the rules of a garden arrive at for a rectangle. -/
inductive Plans (config : Config α) (bounds : Rect α) : Kind → Step Kind α → Prop
  | path :
      Plans config bounds .root
        (.corridor .random config.pathWidth config.corridorRatio .zone .path .zone)
  | halves (hcuts : config.Cuts bounds) :
      Plans config bounds .zone (.bisect .longer config.splitRatio .zone .zone)
  | parcel (hcuts : ¬ config.Cuts bounds) : Plans config bounds .zone (.fill .parcel)
  | plants {kind : Kind} (hfinal : kind.IsFinal) : Plans config bounds .parcel (.fill kind)
  | feature {kind : Kind} {size : Feature α} (hfeature : config.feature? kind = some size)
      (hroom : size.minParcelSize < bounds.width ∧ size.minParcelSize < bounds.height) :
      Plans config bounds .parcel (.embed kind size.margin)
  | done {kind : Kind} (hfinal : kind.IsFinal) : Plans config bounds kind .terminal

theorem ensures_fill {kind : Kind} (hfinal : kind.IsFinal) :
    (Rule.always (.fill kind)).Ensures admits bounds (Plans config bounds .parcel) :=
  Rule.ensures_always (.plants hfinal)

theorem ensures_featureRule {kind : Kind} {size : Feature α} {small : Rule Kind α}
    (hfeature : config.feature? kind = some size)
    (hsmall : small.Ensures admits bounds (Plans config bounds .parcel)) :
    (featureRule kind size small).Ensures admits bounds (Plans config bounds .parcel) :=
  Rule.ensures_ifBothExceed (fun hroom => Rule.ensures_always (.feature hfeature hroom)) hsmall

theorem ensures_grassRule :
    (grassRule config).Ensures admits bounds (Plans config bounds .parcel) := by
  have hgrass : (Rule.always (.fill .grass)).Ensures admits bounds (Plans config bounds .parcel) :=
    ensures_fill (by decide)
  have htreasure : config.feature? .treasure =
      some ⟨config.treasure.minParcelSize, config.treasure.margin⟩ := rfl
  refine Rule.ensures_ifBothExceed (fun hroom => Rule.ensures_weighted ?_) hgrass
  simp only [List.forall_mem_cons, List.not_mem_nil, false_implies, implies_true, and_true]
  exact ⟨Rule.ensures_always (.feature htreasure hroom), hgrass⟩

theorem ensures_parcelRule :
    (parcelRule config).Ensures admits bounds (Plans config bounds .parcel) := by
  refine Rule.ensures_weighted ?_
  simp only [List.forall_mem_cons, List.not_mem_nil, false_implies, implies_true, and_true]
  exact ⟨ensures_featureRule rfl (ensures_fill (by decide)), ensures_fill (by decide),
    ensures_fill (by decide), ensures_featureRule rfl ensures_grassRule,
    ensures_fill (by decide), ensures_grassRule⟩

theorem ensures_rule (config : Config α) (kind : Kind) :
    (rule config kind).Ensures admits bounds (Plans config bounds kind) := by
  cases kind with
  | root => exact Rule.ensures_always .path
  | zone =>
      apply Rule.ensures_ifEitherExceeds
      · exact fun hcuts => Rule.ensures_always (.halves hcuts)
      · exact fun hcuts => Rule.ensures_always (.parcel hcuts)
  | parcel => exact ensures_parcelRule
  | _ => exact Rule.ensures_always (.done (by decide))

/-- The engine of a garden plans its steps. -/
theorem plans_of_settle {built : Engine Kind α} (h : engine config = .ok built) {kind : Kind}
    {given : Rule Kind α} {step : Step Kind α} (hrule : built.table.rule? kind = some given)
    (hsettle : Sampler.Outcome admits (given.settle bounds) (.ok step)) :
    Plans config bounds kind step := by
  rw [RuleTable.rule?_of_ofFunction complete (of_engine h).2.1, Option.some.injEq] at hrule
  subst hrule
  exact ensures_rule config kind step (Rule.arrives_of_settle _ hsettle)

end Garden

namespace Planting

variable {config : Config α}

/-- Kinds that are left alone. -/
def Kind.IsFinal (kind : Kind) : Prop :=
  kind ∈ [Kind.grass, Kind.fountain]

instance : DecidablePred Kind.IsFinal :=
  fun kind => inferInstanceAs (Decidable (kind ∈ [Kind.grass, Kind.fountain]))

/-- The kinds that beds are divided into. -/
def palette : Kind → List Kind
  | .root => rootBeds
  | .flowerGarden | .flowerRed | .flowerPink | .flowerOrange | .flowerBlue
  | .flowerPurple => flowers
  | .forest | .forestT1 | .forestT2 | .forestT3 | .forestT4 => woodland
  | .pond => waterside
  | .fountain | .grass => []

/-- The steps that the rules of a planting arrive at. -/
inductive Plans (config : Config α) : Kind → Step Kind α → Prop
  | quarters : Plans config .root (.mix (palette .root) .four)
  | halves {kind : Kind} (hroot : kind ≠ .root) (hfinal : ¬ kind.IsFinal) :
      Plans config kind (.mix (palette kind) (.two .random config.splitRatio))
  | done {kind : Kind} (hfinal : kind.IsFinal) : Plans config kind .terminal

theorem ensures_rule (config : Config α) (kind : Kind) :
    (rule config kind).Ensures admits bounds (Plans config kind) := by
  cases kind with
  | root => exact Rule.ensures_always .quarters
  | grass | fountain => exact Rule.ensures_always (.done (by decide))
  | _ => exact Rule.ensures_always (.halves (by decide) (by decide))

/-- The engine of a planting plans its steps. -/
theorem plans_of_settle {built : Engine Kind α} (h : engine config = .ok built) {kind : Kind}
    {given : Rule Kind α} {step : Step Kind α} (hrule : built.table.rule? kind = some given)
    (hsettle : Sampler.Outcome admits (given.settle bounds) (.ok step)) :
    Plans config kind step := by
  rw [RuleTable.rule?_of_ofFunction complete (of_engine h).2.1, Option.some.injEq] at hrule
  subst hrule
  exact ensures_rule config kind step (Rule.arrives_of_settle _ hsettle)

end Planting

end Parterre
