/-
Rules that never shrink.  A kind leads to another one at full size if its rule
may give a region of that size the other kind.  A kind that leads back to
itself could be expanded for ever, so such tables are refused.
-/
import Parterre.RuleTable

namespace Parterre

variable {κ α : Type} [Scalar α]

/-- The kinds a step produces at the size of the region. -/
def Step.sameSizeKinds (frame : κ) : Step κ α → List κ
  | .fill kind => [kind]
  | .embed .. => [frame]
  | _ => []

mutual

/-- The kinds a rule may produce at the size of the region.  Branches without
weight are never taken. -/
def Rule.sameSizeKinds (frame : κ) : Rule κ α → List κ
  | .always step => step.sameSizeKinds frame
  | .weighted branches => Rule.branchSameSizeKinds frame branches
  | .ifBothExceed _ _ large small | .ifEitherExceeds _ large small =>
      large.sameSizeKinds frame ++ small.sameSizeKinds frame

def Rule.branchSameSizeKinds (frame : κ) : List (α × Rule κ α) → List κ
  | [] => []
  | (weight, branch) :: rest =>
      (if 0 < weight then branch.sameSizeKinds frame else [])
        ++ Rule.branchSameSizeKinds frame rest

end

/-- The kinds that have a rule, each with the kinds that it leads to. -/
abbrev Ways (κ : Type) : Type :=
  List (κ × List κ)

namespace Ways

variable [DecidableEq κ]

/-- The kinds that a kind leads to; a kind without a rule leads nowhere. -/
def behind (ways : Ways κ) (kind : κ) : List κ :=
  (ways.lookup kind).getD []

/-- The number of ways out of kinds that were not seen. -/
def untried (seen : List κ) : Ways κ → Nat
  | [] => 0
  | (kind, kinds) :: rest =>
      (if kind ∈ seen then 0 else kinds.length) + untried seen rest

theorem untried_cons_le (seen : List κ) (kind : κ) (ways : Ways κ) :
    untried (kind :: seen) ways ≤ untried seen ways := by
  induction ways with
  | nil => exact Nat.le_refl 0
  | cons way rest ih =>
      obtain ⟨first, kinds⟩ := way
      rw [untried, untried]
      by_cases hseen : first ∈ seen
      · rw [if_pos hseen, if_pos (List.mem_cons_of_mem kind hseen)]
        omega
      · rw [if_neg hseen]
        split <;> omega

/-- The ways out of a kind that is seen for the first time are tried. -/
theorem length_behind_add_untried_le {seen : List κ} {kind : κ} (h : kind ∉ seen)
    (ways : Ways κ) :
    (ways.behind kind).length + untried (kind :: seen) ways ≤ untried seen ways := by
  induction ways with
  | nil => exact Nat.le_refl 0
  | cons way rest ih =>
      obtain ⟨first, kinds⟩ := way
      by_cases hfirst : kind = first
      · subst hfirst
        have hrest := untried_cons_le seen kind rest
        simp only [behind, List.lookup_cons_self, Option.getD_some, untried,
          List.mem_cons_self, if_true, h, if_false]
        omega
      · have hlookup : behind ((first, kinds) :: rest) kind = behind rest kind := by
          rw [behind, List.lookup_cons, beq_false_of_ne hfirst, behind]
        have hseen : first ∈ kind :: seen ↔ first ∈ seen := by
          rw [List.mem_cons, or_iff_right (Ne.symm hfirst)]
        simp only [hlookup, untried, hseen]
        omega

/-- Kinds are taken off a stack until `start` is among them or none is left.  When
a kind is seen for the first time, the kinds that it leads to are put on the
stack, so every way is tried at most once. -/
def leadsBack (ways : Ways κ) (start : κ) (seen stack : List κ) : Bool :=
  match stack with
  | [] => false
  | kind :: rest =>
      if kind = start then true
      else if kind ∈ seen then leadsBack ways start seen rest
      else leadsBack ways start (kind :: seen) ((ways.behind kind).reverse ++ rest)
termination_by untried seen ways + stack.length
decreasing_by
  · exact Nat.lt_succ_self _
  · have htried := length_behind_add_untried_le ‹kind ∉ seen› ways
    simp only [List.length_append, List.length_reverse, List.length_cons]
    omega

/-- The kind leads back to itself. -/
def leadsToItself (ways : Ways κ) (kind : κ) : Bool :=
  leadsBack ways kind [] (ways.behind kind).reverse

/-- Report the first kind that leads back to itself. -/
def check [RegionKind κ] (ways : Ways κ) : Except (LayoutError α) Unit :=
  match (RegionKind.all : List κ).find? ways.leadsToItself with
  | some kind => throw (.rule kind .neverShrinks)
  | none => return ()

end Ways

namespace RuleTable

variable [DecidableEq κ] [RegionKind κ]

/-- The kinds that a kind leads to at full size. -/
def sameSizeKinds (table : RuleTable κ α) (frame kind : κ) : List κ :=
  match table.rule? kind with
  | some rule => rule.sameSizeKinds frame
  | none => []

/-- The ways at full size, in the order of the entries. -/
def ways (table : RuleTable κ α) (frame : κ) : Ways κ :=
  table.entries.map fun entry => (entry.1, entry.2.sameSizeKinds frame)

/-- No kind leads back to itself at full size. -/
def checkShrinks (table : RuleTable κ α) (frame : κ) :
    Except (LayoutError α) Unit :=
  (table.ways frame).check

end RuleTable

end Parterre
