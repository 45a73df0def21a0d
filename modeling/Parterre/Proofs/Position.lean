/-
Rules do not look at where a rectangle lies.  On two rectangles of the same sides
a rule asks for the same draws and arrives at the same step, and the step makes
parts of the same sides, so the expansions have one form.  Over the exact
rationals, where nothing is rounded, the second expansion is the first one
shifted as the rectangle was.
-/
import Parterre.Proofs.Layouts
import Parterre.Proofs.Tiling

namespace Parterre

variable {κ α β γ σ : Type}

namespace Sampler

/-- Two computations ask for the same draws and end with related results. -/
inductive Together (related : Except (LayoutError α) β → Except (LayoutError α) γ → Prop) :
    Sampler α β → Sampler α γ → Prop
  | done {first : Except (LayoutError α) β} {second : Except (LayoutError α) γ}
      (h : related first second) : Together related (.done first) (.done second)
  | draw {first : α → Sampler α β} {second : α → Sampler α γ}
      (h : ∀ value, Together related (first value) (second value)) :
      Together related (.draw first) (.draw second)

variable {related : Except (LayoutError α) γ → Except (LayoutError α) γ → Prop}
  {first second : Sampler α γ}

/-- What follows the same computation stays together. -/
theorem Together.bind (hfailed : ∀ failure, related (.error failure) (.error failure))
    (sampler : Sampler α β) {first second : β → Sampler α γ}
    (h : ∀ value, Together related (first value) (second value)) :
    Together related (sampler >>= first) (sampler >>= second) := by
  induction sampler with
  | done result =>
      cases result with
      | error failure => exact .done (hfailed failure)
      | ok value => exact h value
  | draw rest ih => exact .draw ih

/-- On one source the results are related, and the source is left in the same
state. -/
theorem Together.run [DrawSource σ α] (h : Together related first second)
    (hfailed : ∀ failure, related (.error failure) (.error failure)) (source : σ) :
    related (first.run source).1 (second.run source).1 ∧
      (first.run source).2 = (second.run source).2 := by
  induction h generalizing source with
  | done h => exact ⟨h, rfl⟩
  | draw _ ih =>
      rw [Sampler.run, Sampler.run]
      rcases DrawSource.next source with ⟨failure | value, after⟩
      · exact ⟨hfailed failure, rfl⟩
      · exact ih value after

end Sampler

namespace Rect

/-- The same sides, wherever the rectangles lie. -/
structure SameSize (first second : Rect α) : Prop where
  width : first.width = second.width
  height : first.height = second.height

variable {first second : Rect α}

theorem SameSize.extent (h : first.SameSize second) (axis : Axis) :
    first.extent axis = second.extent axis := by
  cases axis with
  | vertical => exact h.width
  | horizontal => exact h.height

theorem SameSize.slice (h : first.SameSize second) (axis : Axis) (start other length : α) :
    (first.slice axis start length).SameSize (second.slice axis other length) := by
  cases axis with
  | vertical => exact ⟨rfl, h.height⟩
  | horizontal => exact ⟨h.width, rfl⟩

theorem SameSize.zip {one other : List (Rect α)} (h : List.Forall₂ SameSize one other)
    (kinds : List κ) :
    List.Forall₂ (fun one other => one.1 = other.1 ∧ one.2.SameSize other.2)
      (kinds.zip one) (kinds.zip other) := by
  induction h generalizing kinds with
  | nil => simp
  | cons hfirst _ ih =>
      cases kinds with
      | nil => exact .nil
      | cons kind rest => exact .cons ⟨rfl, hfirst⟩ (ih rest)

variable [Scalar α]

/-- Cuts make parts of the same sides. -/
theorem SameSize.outline (h : first.SameSize second) (cut : Cut α) :
    List.Forall₂ SameSize (cut.outline first) (cut.outline second) := by
  cases cut with
  | whole => exact .cons h .nil
  | across axis share =>
      simp only [Cut.outline, h.extent]
      exact .cons (h.slice ..) (.cons (h.slice ..) .nil)
  | quarters =>
      simp only [Cut.outline, h.width, h.height]
      exact .cons ⟨rfl, rfl⟩ (.cons ⟨rfl, rfl⟩ (.cons ⟨rfl, rfl⟩ (.cons ⟨rfl, rfl⟩ .nil)))
  | corridor axis width share =>
      simp only [Cut.outline, h.extent]
      exact .cons (h.slice ..) (.cons (h.slice ..) (.cons (h.slice ..) .nil))

/-- What is inside the same margin has the same sides. -/
theorem SameSize.inset {inner other : Rect α} {margin : α} (h : first.SameSize second)
    (hinner : first.inset margin = .ok inner) (hother : second.inset margin = .ok other) :
    inner.SameSize other := by
  obtain ⟨_, rfl, _⟩ := inset_eq_ok_iff.mp hinner
  obtain ⟨_, rfl, _⟩ := inset_eq_ok_iff.mp hother
  simp only [h.width, h.height]
  exact ⟨rfl, rfl⟩

end Rect

variable [Scalar α]

section Draws

variable {first second : Rect α}

theorem Direction.draw_congr (h : first.SameSize second) (axis : Direction) :
    axis.draw first = axis.draw second := by
  cases axis with
  | longer => rw [draw, draw, h.width, h.height]
  | fixed | random => rfl

theorem PaletteCut.draw_congr (h : first.SameSize second) (cut : PaletteCut α) :
    cut.draw first = cut.draw second := by
  cases cut with
  | two axis ratio => rw [draw, draw, Cut.drawAcross, Cut.drawAcross, Direction.draw_congr h]
  | four => rfl

mutual

/-- Guards and weighted choices do not tell the rectangles apart. -/
theorem Rule.settle_congr (h : first.SameSize second) (rule : Rule κ α) :
    rule.settle first = rule.settle second := by
  cases rule with
  | always step => rfl
  | weighted branches => simp only [Rule.settle, Rule.settleBranch_congr h branches]
  | ifBothExceed minWidth minHeight large small =>
      rw [Rule.settle, Rule.settle, h.width, h.height, Rule.settle_congr h large,
        Rule.settle_congr h small]
  | ifEitherExceeds threshold large small =>
      rw [Rule.settle, Rule.settle, h.width, h.height, Rule.settle_congr h large,
        Rule.settle_congr h small]

theorem Rule.settleBranch_congr (h : first.SameSize second) (branches : List (α × Rule κ α))
    (position : Nat) :
    Rule.settleBranch first branches position = Rule.settleBranch second branches position := by
  cases branches with
  | nil => rfl
  | cons branch rest =>
      cases position with
      | zero => exact Rule.settle_congr h branch.2
      | succ position => exact Rule.settleBranch_congr h rest position

end

end Draws

/-- The relation holds between what the same cuts and the same embeddings make of
two rectangles. -/
structure Expansion.Alike (first second : Rect α) (frame : κ)
    (related : Except (LayoutError α) (Expansion κ α) →
      Except (LayoutError α) (Expansion κ α) → Prop) : Prop where
  failed : ∀ failure, related (.error failure) (.error failure)
  final : related (.ok .final) (.ok .final)
  cut : ∀ kinds cut, related (ofCut first kinds cut) (ofCut second kinds cut)
  embed : ∀ feature margin,
    related (ofEmbed first frame feature margin) (ofEmbed second frame feature margin)

section Together

variable {first second : Rect α} {frame : κ}
  {related : Except (LayoutError α) (Expansion κ α) →
    Except (LayoutError α) (Expansion κ α) → Prop}

/-- Cuts that are drawn alike are laid out together. -/
theorem Expansion.Alike.together (h : Alike first second frame related) (kinds : List κ)
    (sampler : Sampler α (Cut α)) :
    Sampler.Together related (sampler >>= fun cut => liftM (ofCut first kinds cut))
      (sampler >>= fun cut => liftM (ofCut second kinds cut)) :=
  .bind h.failed sampler fun cut => .done (h.cut kinds cut)

theorem Step.together (h : first.SameSize second)
    (halike : Expansion.Alike first second frame related) (step : Step κ α) :
    Sampler.Together related (step.expand first frame) (step.expand second frame) := by
  cases step with
  | terminal => exact .done halike.final
  | fill kind => exact .done (halike.cut _ _)
  | bisect axis ratio one other =>
      rw [expand, expand, Cut.drawAcross, Cut.drawAcross, Direction.draw_congr h]
      exact halike.together _ _
  | quarter => exact .done (halike.cut _ _)
  | corridor axis width ratio one strip other =>
      rw [expand, expand, Direction.draw_congr h]
      exact .bind halike.failed _ fun _ =>
        .bind halike.failed _ fun _ => .done (halike.cut _ _)
  | mix candidates cut =>
      rw [expand, expand, PaletteCut.draw_congr h]
      split
      · exact .done (halike.failed _)
      · exact .bind halike.failed _ fun _ => halike.together _ _
  | embed feature margin => exact .done (halike.embed feature margin)

/-- A rule runs together on the two rectangles. -/
theorem Rule.together (h : first.SameSize second)
    (halike : Expansion.Alike first second frame related) (rule : Rule κ α) :
    Sampler.Together related (rule.expand first frame) (rule.expand second frame) := by
  rw [expand, expand, Rule.settle_congr h]
  exact .bind halike.failed _ fun step => step.together h halike

end Together

section SameForm

/-- Two expansions of one form: the same kinds in the same order, rectangles of the
same sides and the same margin. -/
inductive Expansion.SameForm : Expansion κ α → Expansion κ α → Prop
  | final : SameForm .final .final
  | tiled {first second : List (κ × Rect α)}
      (hparts : List.Forall₂ (fun one other => one.1 = other.1 ∧ one.2.SameSize other.2)
        first second) :
      SameForm (.tiled first) (.tiled second)
  | embedded {frame feature : κ} {first second inner other : Rect α} {margin : α}
      (hframe : first.SameSize second) (hfeature : inner.SameSize other) :
      SameForm (.embedded (frame, first) (feature, inner) margin)
        (.embedded (frame, second) (feature, other) margin)

/-- Two results have one form, unless one of them is a failure. -/
def Expansion.SameFormIfOk (one other : Except (LayoutError α) (Expansion κ α)) : Prop :=
  ∀ first second, one = .ok first → other = .ok second → first.SameForm second

theorem Expansion.alike_sameForm {first second : Rect α} (h : first.SameSize second)
    (frame : κ) : Alike first second frame SameFormIfOk where
  failed := by
    intro failure first second hfirst
    cases hfirst
  final := by
    intro first second hfirst hsecond
    cases hfirst
    cases hsecond
    exact .final
  cut := by
    intro kinds cut first second hfirst hsecond
    obtain ⟨rects, hrects, rfl⟩ := ofCut_eq_ok_iff.mp hfirst
    obtain ⟨others, hothers, rfl⟩ := ofCut_eq_ok_iff.mp hsecond
    obtain ⟨rfl, _⟩ := Cut.eq_outline_of_parts hrects
    obtain ⟨rfl, _⟩ := Cut.eq_outline_of_parts hothers
    exact .tiled (Rect.SameSize.zip (h.outline cut) kinds)
  embed := by
    intro feature margin first second hfirst hsecond
    obtain ⟨_, inner, hinner, rfl⟩ := ofEmbed_eq_ok_iff.mp hfirst
    obtain ⟨_, other, hother, rfl⟩ := ofEmbed_eq_ok_iff.mp hsecond
    exact .embedded h (h.inset hinner hother)

end SameForm

/-- The rectangle moved by an offset. -/
def Rect.shift (dx dy : α) (bounds : Rect α) : Rect α :=
  ⟨bounds.x + dx, bounds.y + dy, bounds.width, bounds.height⟩

/-- The expansion with all its rectangles moved by an offset. -/
def Expansion.shift (dx dy : α) : Expansion κ α → Expansion κ α
  | .final => .final
  | .tiled parts => .tiled (parts.map (Prod.map id (Rect.shift dx dy)))
  | .embedded frame feature margin =>
      .embedded (Prod.map id (Rect.shift dx dy) frame) (Prod.map id (Rect.shift dx dy) feature)
        margin

section Shift

variable {dx dy : Rat} {bounds first second : Rect Rat}

theorem Rect.SameSize.eq_shift (h : first.SameSize second) :
    second = first.shift (second.x - first.x) (second.y - first.y) := by
  rw [Rect.shift, add_sub_cancel, add_sub_cancel, h.width, h.height]

theorem Rect.proper_shift_iff : (bounds.shift dx dy).Proper ↔ bounds.Proper :=
  Iff.rfl

theorem Rect.mapM_checked_shift {outlines rects : List (Rect Rat)} :
    (outlines.map (shift dx dy)).mapM checked = .ok rects ↔
      ∃ given, outlines.mapM checked = .ok given ∧ rects = given.map (shift dx dy) := by
  simp only [mapM_checked_eq_ok_iff, List.forall_mem_map, proper_shift_iff]
  constructor
  · rintro ⟨rfl, hproper⟩
    exact ⟨outlines, ⟨rfl, hproper⟩, rfl⟩
  · rintro ⟨_, ⟨rfl, hproper⟩, rfl⟩
    exact ⟨rfl, hproper⟩

theorem Rect.inset_shift {margin : Rat} {inner : Rect Rat} :
    (bounds.shift dx dy).inset margin = .ok inner ↔
      ∃ given, bounds.inset margin = .ok given ∧ inner = given.shift dx dy := by
  simp only [inset_eq_ok_iff]
  constructor
  · rintro ⟨hroom, rfl, hproper⟩
    refine ⟨_, ⟨hroom, rfl, hproper⟩, ?_⟩
    simp only [shift, add_right_comm]
  · rintro ⟨_, ⟨hroom, rfl, hproper⟩, rfl⟩
    refine ⟨hroom, ?_, hproper⟩
    simp only [shift, add_right_comm]

theorem Rect.extent_shift (axis : Axis) :
    (bounds.shift dx dy).extent axis = bounds.extent axis := by
  cases axis <;> rfl

/-- The parts move with the rectangle. -/
theorem Cut.outline_shift (cut : Cut Rat) :
    cut.outline (bounds.shift dx dy) = (cut.outline bounds).map (Rect.shift dx dy) := by
  cases cut with
  | whole => rfl
  | quarters => simp [outline, Rect.shift, add_right_comm]
  | across axis share | corridor axis _ share =>
      cases axis <;>
        simp [outline, Rect.shift, Rect.slice, Rect.origin, Rect.extent, add_right_comm]

theorem Cut.parts_shift {cut : Cut Rat} {rects : List (Rect Rat)} :
    cut.parts (bounds.shift dx dy) = .ok rects ↔
      ∃ given, cut.parts bounds = .ok given ∧ rects = given.map (Rect.shift dx dy) := by
  cases cut with
  | whole =>
      simp only [parts, pure, Except.pure, Except.ok.injEq, exists_eq_left', List.map_cons,
        List.map_nil]
      exact eq_comm
  | across | quarters =>
      simp only [parts, outline_shift]
      exact Rect.mapM_checked_shift
  | corridor axis width share =>
      rw [parts, parts, Rect.extent_shift, outline_shift]
      split
      · simp
      · exact Rect.mapM_checked_shift

/-- The second result is the first one with all rectangles moved, if there is a
first one. -/
def Expansion.Shifts (dx dy : Rat) (one other : Except (LayoutError Rat) (Expansion κ Rat)) :
    Prop :=
  ∀ expansion, other = .ok expansion ↔ ∃ given, one = .ok given ∧ expansion = given.shift dx dy

theorem Expansion.alike_shifts (frame : κ) :
    Alike bounds (bounds.shift dx dy) frame (Shifts dx dy) where
  failed := by
    intro failure expansion
    simp
  final := by
    intro expansion
    simp [shift, eq_comm]
  cut := by
    intro kinds cut expansion
    simp only [ofCut_eq_ok_iff, Cut.parts_shift]
    constructor
    · rintro ⟨_, ⟨given, hgiven, rfl⟩, rfl⟩
      exact ⟨_, ⟨given, hgiven, rfl⟩, by rw [shift, List.zip_map_right]⟩
    · rintro ⟨_, ⟨given, hgiven, rfl⟩, rfl⟩
      exact ⟨_, ⟨given, hgiven, rfl⟩, by rw [shift, List.zip_map_right]⟩
  embed := by
    intro feature margin expansion
    simp only [ofEmbed_eq_ok_iff, Rect.inset_shift]
    constructor
    · rintro ⟨hroom, _, ⟨given, hgiven, rfl⟩, rfl⟩
      exact ⟨_, ⟨hroom, given, hgiven, rfl⟩, rfl⟩
    · rintro ⟨_, ⟨hroom, given, hgiven, rfl⟩, rfl⟩
      exact ⟨hroom, _, ⟨given, hgiven, rfl⟩, rfl⟩

end Shift

/-- Rules are applied in the same way wherever a rectangle lies.  Whatever the
coordinates are, binary64 among them, the source is left in one state, and two
expansions have one form.  Over the exact rationals one rectangle is refused exactly
if the other is, and the expansions differ by the offset of the rectangles. -/
theorem Rule.expand_of_sameSize :
    (∀ (α σ : Type) [Scalar α] [DrawSource σ α] (rule : Rule κ α) (frame : κ)
      (first second : Rect α) (source : σ), first.SameSize second →
      ((rule.expand first frame).run source).2 = ((rule.expand second frame).run source).2 ∧
      ∀ one other, ((rule.expand first frame).run source).1 = .ok one →
        ((rule.expand second frame).run source).1 = .ok other → one.SameForm other) ∧
    ∀ (σ : Type) [DrawSource σ Rat] (rule : Rule κ Rat) (frame : κ) (first second : Rect Rat)
      (source : σ), first.SameSize second →
      ((∃ one, ((rule.expand first frame).run source).1 = .ok one) ↔
        ∃ other, ((rule.expand second frame).run source).1 = .ok other) ∧
      ∀ one other, ((rule.expand first frame).run source).1 = .ok one →
        ((rule.expand second frame).run source).1 = .ok other →
        other = one.shift (second.x - first.x) (second.y - first.y) := by
  constructor
  · intro α σ _ _ rule frame first second source hsize
    have halike := Expansion.alike_sameForm hsize frame
    obtain ⟨hform, hafter⟩ := (rule.together hsize halike).run halike.failed source
    exact ⟨hafter, hform⟩
  · intro σ _ rule frame first second source hsize
    have halike : Expansion.Alike first (first.shift (second.x - first.x) (second.y - first.y))
        frame (Expansion.Shifts (second.x - first.x) (second.y - first.y)) :=
      Expansion.alike_shifts frame
    rw [← hsize.eq_shift] at halike
    obtain ⟨hshifts, _⟩ := (rule.together hsize halike).run halike.failed source
    refine ⟨⟨?_, ?_⟩, ?_⟩
    · rintro ⟨one, hone⟩
      exact ⟨_, (hshifts _).mpr ⟨one, hone, rfl⟩⟩
    · rintro ⟨other, hother⟩
      obtain ⟨one, hone, _⟩ := (hshifts other).mp hother
      exact ⟨one, hone⟩
    · intro one other hone hother
      obtain ⟨given, hgiven, rfl⟩ := (hshifts other).mp hother
      rw [hone, Except.ok.injEq] at hgiven
      rw [hgiven]

namespace Garden

/-- A path across rectangles that are large enough. -/
def pathAcross {α : Type} [Scalar α] : Rule Kind α :=
  .ifEitherExceeds ((50 : Nat) : α)
    (.always (.corridor .longer ((30 : Nat) : α) .corridor .zone .path .zone)) (.always .terminal)

/-- The path at two places. -/
theorem pathAcross_elsewhere :
    ((⟨0, 0, 60, 40⟩ : Rect Float).SameSize ⟨7, 9, 60, 40⟩ ∧
      ∃ one other,
        ((pathAcross.expand (⟨0, 0, 60, 40⟩ : Rect Float) .grass).run
          (⟨0.5⟩ : Steady Float)).1 = .ok one ∧
        ((pathAcross.expand (⟨7, 9, 60, 40⟩ : Rect Float) .grass).run
          (⟨0.5⟩ : Steady Float)).1 = .ok other ∧
        one.SameForm other) ∧
    (⟨0, 0, 60, 40⟩ : Rect Rat).SameSize ⟨7, 9, 60, 40⟩ ∧
      ∃ one,
        ((pathAcross.expand (⟨0, 0, 60, 40⟩ : Rect Rat) .grass).run
          (⟨1 / 2⟩ : Steady Rat)).1 = .ok one ∧
        ((pathAcross.expand (⟨7, 9, 60, 40⟩ : Rect Rat) .grass).run
          (⟨1 / 2⟩ : Steady Rat)).1 = .ok (one.shift (7 - 0) (9 - 0)) := by
  have hfirst : ((pathAcross.expand (⟨0, 0, 60, 40⟩ : Rect Float) .grass).run
      (⟨0.5⟩ : Steady Float)).1.toOption.isSome = true := by
    decide +kernel
  have hsecond : ((pathAcross.expand (⟨7, 9, 60, 40⟩ : Rect Float) .grass).run
      (⟨0.5⟩ : Steady Float)).1.toOption.isSome = true := by
    decide +kernel
  have hexact : ((pathAcross.expand (⟨0, 0, 60, 40⟩ : Rect Rat) .grass).run
      (⟨1 / 2⟩ : Steady Rat)).1.toOption.isSome = true := by
    decide +kernel
  have hfloat : (⟨0, 0, 60, 40⟩ : Rect Float).SameSize ⟨7, 9, 60, 40⟩ := ⟨rfl, rfl⟩
  have hrat : (⟨0, 0, 60, 40⟩ : Rect Rat).SameSize ⟨7, 9, 60, 40⟩ := ⟨rfl, rfl⟩
  obtain ⟨_, hform⟩ :=
    Rule.expand_of_sameSize.1 _ _ pathAcross .grass _ _ (⟨0.5⟩ : Steady Float) hfloat
  obtain ⟨hiff, hshift⟩ :=
    Rule.expand_of_sameSize.2 _ pathAcross .grass _ _ (⟨1 / 2⟩ : Steady Rat) hrat
  obtain ⟨other, hother⟩ := hiff.mp ⟨_, eq_ok_of_get hexact⟩
  refine ⟨⟨hfloat, _, _, eq_ok_of_get hfirst, eq_ok_of_get hsecond,
    hform _ _ (eq_ok_of_get hfirst) (eq_ok_of_get hsecond)⟩, hrat, _, eq_ok_of_get hexact, ?_⟩
  rw [hother, hshift _ _ (eq_ok_of_get hexact) hother]

end Garden

end Parterre
