/-
Overrides change what they name and nothing else.  A document is laid over the
default one and read strictly, so names that are not known are refused at any depth,
what a document gives for a value is read, and every other value is the default.
-/
import Parterre.Garden.Config
import Parterre.Planting.Config
import Parterre.Proofs.Json.Parsed
import Parterre.Proofs.Json.Reading
import Parterre.Proofs.Layouts

namespace Parterre

section Load

variable {β : Type} {read : Json → Read β} {base top : Json} {text : String}

theorem Overrides.load_text (hparse : Json.parse? text = some top)
    (hobject : top.isObject = true) :
    (Overrides.text text).load base read = (read (base.merge top)).mapError .json := by
  have hdocument : (Overrides.text text).document base = .ok (base.merge top) := by
    simp only [document, Config.parse, hparse, Config.layered, hobject, pure_bind, if_true]
    rfl
  rw [load, hdocument]
  rfl

theorem Overrides.load_text_of_not_object (hparse : Json.parse? text = some top)
    (hobject : top.isObject = false) :
    (Overrides.text text).load base read = .error (.config .notAnObject) := by
  have hdocument : (Overrides.text text).document base = .error (.config .notAnObject) := by
    simp only [document, Config.parse, hparse, Config.layered, hobject, pure_bind]
    rfl
  rw [load, hdocument]
  rfl

theorem eq_ok_of_mapError {ε ζ : Type} {fault : ε → ζ} {result : Except ε β} {value : β}
    (h : result.mapError fault = .ok value) : result = .ok value := by
  cases result with
  | error failure => cases h
  | ok found =>
      cases h
      rfl

/-- What comes of a text that is laid over defaults: only known names are accepted,
what the text gives for a value is read, and every other value is the default. -/
structure Overlays (load : Overrides → Except (LayoutError Float) β) (parts : List (Part β))
    (defaults : β) (text : String) (top : Json) : Prop where
  known : ∀ config, load (.text text) = .ok config → (Part.record parts).Knows top
  given : ∀ config, load (.text text) = .ok config →
    ∀ leaf ∈ Part.values parts, leaf.HoldsIn top config
  kept : ∀ config, load (.text text) = .ok config →
    ∀ leaf ∈ Part.values parts, top.Silent leaf.path → leaf.get config = leaf.get defaults
  untouched : ∀ config, load (.text text) = .ok config →
    (∀ leaf ∈ Part.values parts, top.Silent leaf.path) → config = defaults
  unknown : top.isObject = true → ¬ (Part.record parts).Knows top →
    ∃ fault, load (.text text) = .error (.json fault)
  notObject : top.isObject = false → load (.text text) = .error (.config .notAnObject)

/-- There is a single value at the end of every path. -/
def Json.Grounds (base : Json) (parts : List (Part β)) : Prop :=
  ∀ leaf ∈ Part.values parts, ∃ found, base.at? leaf.path = some found ∧ found.isObject = false

section Accepted

variable {parts : List (Part β)} {config defaults : β}

/-- The merged document is read if the text is accepted. -/
theorem Reads.merged_of_load (hparse : Json.parse? text = some top)
    (hload : (Overrides.text text).load base read = .ok config) :
    read (base.merge top) = .ok config := by
  cases hobject : top.isObject with
  | false =>
      rw [Overrides.load_text_of_not_object hparse hobject] at hload
      cases hload
  | true =>
      rw [Overrides.load_text hparse hobject] at hload
      exact eq_ok_of_mapError hload

theorem Reads.holdsIn_top (h : Reads read (Part.record parts) (Part.values parts))
    (hbase : base.Grounds parts) (htop : top.Tidy) (hread : read (base.merge top) = .ok config) :
    ∀ leaf ∈ Part.values parts, leaf.HoldsIn top config := by
  intro leaf hleaf found hfound
  obtain ⟨kept, hkept, hsingle⟩ := hbase leaf hleaf
  apply h.holds _ config hread leaf hleaf found
  apply Json.at?_merge_of_some htop _ hfound
  intro under hunder
  rw [hkept] at hunder
  cases hunder
  exact hsingle

theorem Reads.get_eq_of_silent (h : Reads read (Part.record parts) (Part.values parts))
    (hbase : base.Grounds parts) (hdefaults : read base = .ok defaults) (htop : top.Tidy)
    (hread : read (base.merge top) = .ok config) {leaf : Leaf β}
    (hleaf : leaf ∈ Part.values parts) (hsilent : top.Silent leaf.path) :
    leaf.get config = leaf.get defaults := by
  obtain ⟨kept, hkept, _⟩ := hbase leaf hleaf
  have hmerged := Json.at?_merge_of_silent htop hsilent hkept
  have hholds := h.holds _ config hread leaf hleaf kept hmerged
  have hdefault := h.holds _ defaults hdefaults leaf hleaf kept hkept
  exact Except.ok.inj (hholds.symm.trans hdefault)

end Accepted

/-- A reader that reads the defaults lays texts over them. -/
theorem Reads.overlays {parts : List (Part β)} {defaults : β}
    (h : Reads read (Part.record parts) (Part.values parts)) (hbase : base.Grounds parts)
    (hdefaults : Overrides.nothing.load base read = .ok defaults)
    (hparse : Json.parse? text = some top) :
    Overlays (fun overrides => overrides.load base read) parts defaults text top := by
  have htop := Json.tidy_of_parse? hparse
  have hdefault : read base = .ok defaults := eq_ok_of_mapError hdefaults
  have hknown : ∀ config, (Overrides.text text).load base read = .ok config →
      (Part.record parts).Knows top := by
    intro config hload
    exact (h.strict _ config (merged_of_load hparse hload)).of_merge htop
  have hkept : ∀ config, (Overrides.text text).load base read = .ok config →
      ∀ leaf ∈ Part.values parts, top.Silent leaf.path → leaf.get config = leaf.get defaults := by
    intro config hload leaf hleaf hsilent
    exact h.get_eq_of_silent hbase hdefault htop (merged_of_load hparse hload) hleaf hsilent
  exact {
    known := hknown
    given := fun config hload => h.holdsIn_top hbase htop (merged_of_load hparse hload)
    kept := hkept
    untouched := fun config hload hsilent =>
      h.complete config defaults fun leaf hleaf =>
        hkept config hload leaf hleaf (hsilent leaf hleaf)
    unknown := by
      intro hobject hunknown
      have hload : (Overrides.text text).load base read = _ :=
        Overrides.load_text hparse hobject
      cases hread : read (base.merge top) with
      | error fault =>
          rw [hread] at hload
          exact ⟨fault, hload⟩
      | ok config =>
          rw [hread] at hload
          exact absurd (hknown config hload) hunknown
    notObject := Overrides.load_text_of_not_object hparse }

end Load

namespace ShareRange

def parts : List (Part (ShareRange Float)) :=
  [.single Json.number "min" min, .single Json.number "max" max]

theorem reads : Reads ofJson (Part.record parts) (Part.values parts) := by
  apply Reads.of_parts
  · intro document range h
    simp only [ofJson, bind_eq_ok_iff, pure, Except.pure, Except.ok.injEq] at h
    obtain ⟨record, hrecord, _, hmin, _, hmax, rfl⟩ := h
    refine ⟨record, hrecord, ?_⟩
    simp only [parts, List.forall_mem_cons, List.not_mem_nil, false_implies, implies_true,
      and_true]
    exact ⟨hmin, hmax⟩
  · rfl
  · rintro ⟨⟩ ⟨⟩ h
    simp only [parts, List.forall_mem_cons, List.not_mem_nil, false_implies, implies_true,
      and_true] at h
    rw [mk.injEq]
    exact h

end ShareRange

namespace WeightedKind

variable (κ : Type) [RegionKind κ]

def parts : List (Part (WeightedKind κ Float)) :=
  [.single Json.kind "kind" kind, .single Json.number "weight" weight]

theorem reads : Reads ofJson (Part.record (parts κ)) (Part.values (parts κ)) := by
  apply Reads.of_parts
  · intro document entry h
    simp only [ofJson, bind_eq_ok_iff, pure, Except.pure, Except.ok.injEq] at h
    obtain ⟨record, hrecord, _, hkind, _, hweight, rfl⟩ := h
    refine ⟨record, hrecord, ?_⟩
    simp only [parts, List.forall_mem_cons, List.not_mem_nil, false_implies, implies_true,
      and_true]
    exact ⟨hkind, hweight⟩
  · rfl
  · rintro ⟨⟩ ⟨⟩ h
    simp only [parts, List.forall_mem_cons, List.not_mem_nil, false_implies, implies_true,
      and_true] at h
    rw [mk.injEq]
    exact h

/-- A safeguard is a single value, but its entries are records. -/
theorem reads_listOf : Reads (Json.listOf (ofJson : Json → Read (WeightedKind κ Float)))
    (.list (Part.record (parts κ))) [.whole (Json.listOf ofJson)] :=
  .of_strict (reads κ).strict.listOf

end WeightedKind

namespace Garden

namespace Feature

def parts : List (Part (Feature Float)) :=
  [.single Json.number "min_parcel_size" minParcelSize, .single Json.number "margin" margin]

theorem reads : Reads ofJson (Part.record parts) (Part.values parts) := by
  apply Reads.of_parts
  · intro document feature h
    simp only [ofJson, bind_eq_ok_iff, pure, Except.pure, Except.ok.injEq] at h
    obtain ⟨record, hrecord, _, hsize, _, hmargin, rfl⟩ := h
    refine ⟨record, hrecord, ?_⟩
    simp only [parts, List.forall_mem_cons, List.not_mem_nil, false_implies, implies_true,
      and_true]
    exact ⟨hsize, hmargin⟩
  · rfl
  · rintro ⟨⟩ ⟨⟩ h
    simp only [parts, List.forall_mem_cons, List.not_mem_nil, false_implies, implies_true,
      and_true] at h
    rw [mk.injEq]
    exact h

end Feature

namespace Treasure

def parts : List (Part (Treasure Float)) :=
  [.single Json.number "chance" chance, .single Json.number "min_parcel_size" minParcelSize,
    .single Json.number "margin" margin]

theorem reads : Reads ofJson (Part.record parts) (Part.values parts) := by
  apply Reads.of_parts
  · intro document treasure h
    simp only [ofJson, bind_eq_ok_iff, pure, Except.pure, Except.ok.injEq] at h
    obtain ⟨record, hrecord, _, hchance, _, hsize, _, hmargin, rfl⟩ := h
    refine ⟨record, hrecord, ?_⟩
    simp only [parts, List.forall_mem_cons, List.not_mem_nil, false_implies, implies_true,
      and_true]
    exact ⟨hchance, hsize, hmargin⟩
  · rfl
  · rintro ⟨⟩ ⟨⟩ h
    simp only [parts, List.forall_mem_cons, List.not_mem_nil, false_implies, implies_true,
      and_true] at h
    rw [mk.injEq]
    exact h

end Treasure

namespace ParcelWeights

def parts : List (Part (ParcelWeights Float)) :=
  [.single Json.number "pond" pond, .single Json.number "forest" forest,
    .single Json.number "flower_garden" flowerGarden, .single Json.number "fountain" fountain,
    .single Json.number "bench_area" benchArea, .single Json.number "grass" grass]

theorem reads : Reads ofJson (Part.record parts) (Part.values parts) := by
  apply Reads.of_parts
  · intro document weights h
    simp only [ofJson, bind_eq_ok_iff, pure, Except.pure, Except.ok.injEq] at h
    obtain ⟨record, hrecord, _, hpond, _, hforest, _, hflowers, _, hfountain, _, hbench, _,
      hgrass, rfl⟩ := h
    refine ⟨record, hrecord, ?_⟩
    simp only [parts, List.forall_mem_cons, List.not_mem_nil, false_implies, implies_true,
      and_true]
    exact ⟨hpond, hforest, hflowers, hfountain, hbench, hgrass⟩
  · rfl
  · rintro ⟨⟩ ⟨⟩ h
    simp only [parts, List.forall_mem_cons, List.not_mem_nil, false_implies, implies_true,
      and_true] at h
    rw [mk.injEq]
    exact h

end ParcelWeights

namespace Config

/-- The fields of a garden, with the values below them. -/
def parts : List (Part (Config Float)) :=
  [.single Json.number "min_dim" minDim, .single Json.natural? "max_depth" maxDepth,
    .single Json.number "path_width" pathWidth, .of ShareRange.reads "corridor_ratio" corridorRatio,
    .of ShareRange.reads "split_ratio" splitRatio, .single Json.number "min_zone_size" minZoneSize,
    .of Feature.reads "pond" pond, .of Feature.reads "fountain" fountain,
    .of Treasure.reads "treasure" treasure, .of ParcelWeights.reads "parcel_weights" parcelWeights,
    .of (WeightedKind.reads_listOf Kind) "safeguard" safeguard]

theorem reads : Reads ofJson (Part.record parts) (Part.values parts) := by
  apply Reads.of_parts
  · intro document config h
    simp only [ofJson, bind_eq_ok_iff, pure, Except.pure, Except.ok.injEq] at h
    obtain ⟨record, hrecord, _, hminDim, _, hmaxDepth, _, hpath, _, hcorridor, _, hsplit, _,
      hzone, _, hpond, _, hfountain, _, htreasure, _, hweights, _, hsafeguard, rfl⟩ := h
    refine ⟨record, hrecord, ?_⟩
    simp only [parts, List.forall_mem_cons, List.not_mem_nil, false_implies, implies_true,
      and_true]
    exact ⟨hminDim, hmaxDepth, hpath, hcorridor, hsplit, hzone, hpond, hfountain, htreasure,
      hweights, hsafeguard⟩
  · rfl
  · rintro ⟨⟩ ⟨⟩ h
    simp only [parts, List.forall_mem_cons, List.not_mem_nil, false_implies, implies_true,
      and_true] at h
    rw [mk.injEq]
    exact h

end Config

end Garden

namespace Planting.Config

/-- The fields of a planting, with the values below them. -/
def parts : List (Part (Config Float)) :=
  [.single Json.number "min_dim" minDim, .single Json.natural? "max_depth" maxDepth,
    .of ShareRange.reads "split_ratio" splitRatio,
    .single Json.flag "keep_kinds_at_max_depth" keepKindsAtMaxDepth,
    .of (WeightedKind.reads_listOf Kind) "safeguard" safeguard]

theorem reads : Reads ofJson (Part.record parts) (Part.values parts) := by
  apply Reads.of_parts
  · intro document config h
    simp only [ofJson, bind_eq_ok_iff, pure, Except.pure, Except.ok.injEq] at h
    obtain ⟨record, hrecord, _, hminDim, _, hmaxDepth, _, hsplit, _, hkeeps, _, hsafeguard,
      rfl⟩ := h
    refine ⟨record, hrecord, ?_⟩
    simp only [parts, List.forall_mem_cons, List.not_mem_nil, false_implies, implies_true,
      and_true]
    exact ⟨hminDim, hmaxDepth, hsplit, hkeeps, hsafeguard⟩
  · rfl
  · rintro ⟨⟩ ⟨⟩ h
    simp only [parts, List.forall_mem_cons, List.not_mem_nil, false_implies, implies_true,
      and_true] at h
    rw [mk.injEq]
    exact h

end Planting.Config

example : (Part.values Planting.Config.parts).map Leaf.path =
    [["min_dim"], ["max_depth"], ["split_ratio", "min"], ["split_ratio", "max"],
      ["keep_kinds_at_max_depth"], ["safeguard"]] := by
  rfl

theorem Json.grounds_of_all {β : Type} {base : Json} {parts : List (Part β)}
    (h : ((Part.values parts).all fun leaf =>
      (base.at? leaf.path).any fun found => !found.isObject) = true) : base.Grounds parts := by
  intro leaf hleaf
  obtain ⟨found, hfound, hsingle⟩ := (Option.any_eq_true _ _).mp (List.all_eq_true.mp h leaf hleaf)
  exact ⟨found, hfound, by simpa using hsingle⟩

/-- A text that is laid over the defaults of a garden or of a planting changes what it
names, nothing else, and nothing in it is ignored. -/
theorem overrides_overlay {text : String} {top : Json} (hparse : Json.parse? text = some top) :
    (∃ defaults, Garden.Config.load .nothing = .ok defaults ∧
      Overlays Garden.Config.load Garden.Config.parts defaults text top) ∧
    ∃ defaults, Planting.Config.load .nothing = .ok defaults ∧
      Overlays Planting.Config.load Planting.Config.parts defaults text top := by
  constructor
  · have hdefaults : Garden.Config.load .nothing = _ := eq_ok_of_get (by decide +kernel)
    exact ⟨_, hdefaults, Garden.Config.reads.overlays (Json.grounds_of_all (by decide +kernel))
      hdefaults hparse⟩
  · have hdefaults : Planting.Config.load .nothing = _ := eq_ok_of_get (by decide +kernel)
    exact ⟨_, hdefaults, Planting.Config.reads.overlays (Json.grounds_of_all (by decide +kernel))
      hdefaults hparse⟩

/-- A limit for the depth, and another margin for ponds. -/
def pondText : String :=
  "\x7b\"max_depth\": 4, \"pond\": \x7b\"margin\": 15\x7d\x7d"

theorem overrides_overlay_pond :
    ∃ top config defaults, Json.parse? pondText = some top ∧
      Garden.Config.load (.text pondText) = .ok config ∧
      config.maxDepth = some 4 ∧ config.pond = ⟨150, 15⟩ ∧
      Garden.Config.load .nothing = .ok defaults ∧
      Overlays Garden.Config.load Garden.Config.parts defaults pondText top := by
  have hsome : (Json.parse? pondText).isSome = true := by
    decide +kernel
  have hloaded : (Garden.Config.load (.text pondText)).toOption.map
      (fun config => (config.maxDepth, config.pond)) = some (some 4, ⟨150, 15⟩) := by
    decide +kernel
  obtain ⟨top, hparse⟩ := Option.isSome_iff_exists.mp hsome
  obtain ⟨⟨defaults, hdefaults, hoverlays⟩, _⟩ := overrides_overlay hparse
  cases hconfig : Garden.Config.load (.text pondText) with
  | error failure =>
      rw [hconfig] at hloaded
      cases hloaded
  | ok config =>
      rw [hconfig] at hloaded
      obtain ⟨hdepth, hpond⟩ := Prod.mk.inj (Option.some.inj hloaded)
      exact ⟨top, config, defaults, hparse, rfl, hdepth, hpond, hdefaults, hoverlays⟩

end Parterre
