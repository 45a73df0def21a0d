/-
Batches on the command line.  A batch prints no block before all its runs are over, so
it comes to an end if and only if each of them does.  Then it takes its seeds one after
the other and stops at the first run that failed, so what it prints is put together from
what the runs of its seeds print alone.
-/
import Mathlib.Data.Finset.Lattice.Fold
import Parterre.CommandLine.Report
import Parterre.Proofs.Layouts
import Parterre.Proofs.LevelOrder

namespace Parterre.CommandLine

section

variable {β γ : Type} {convert : β → Option γ} {values : List β}

end

/-- The text of a block; a failure has none. -/
def textOf : Option (Except String String) → String
  | some (.ok text) => text
  | _ => ""

/-- The blocks of the first steps. -/
def front (turns : Nat → Option (Except String String)) (stop : Nat) : String :=
  String.join ((List.range stop).map fun step => textOf (turns step))

theorem front_succ (turns : Nat → Option (Except String String)) (stop : Nat) :
    front turns (stop + 1) = textOf (turns 0) ++ front (fun step => turns (step + 1)) stop := by
  rw [front, List.range_succ_eq_map, List.map_cons, List.map_map, String.join_cons]
  rfl

/-- The outcome is that of taking turns one after the other up to the first failure. -/
inductive Follows (turns : Nat → Option (Except String String)) (head : String)
    (notes : List String) (count : Nat) : Outcome → Prop
  | all (hok : ∀ step < count, ∃ text, turns step = some (.ok text)) :
      Follows turns head notes count ⟨0, head ++ front turns count, notes⟩
  | upTo {stop : Nat} {message : String} (hlt : stop < count)
      (hok : ∀ step < stop, ∃ text, turns step = some (.ok text))
      (hfails : turns stop = some (.error message)) :
      Follows turns head notes count
        ⟨1, head ++ front turns stop, notes ++ [complaint message]⟩

namespace Follows

variable {turns : Nat → Option (Except String String)} {head text message : String}
  {notes : List String} {count : Nat} {outcome : Outcome}

/-- A turn with a block, in front of all others. -/
theorem cons (hfirst : turns 0 = some (.ok text))
    (h : Follows (fun step => turns (step + 1)) (head ++ text) notes count outcome) :
    Follows turns head notes (count + 1) outcome := by
  have hfront : ∀ stop, head ++ text ++ front (fun step => turns (step + 1)) stop =
      head ++ front turns (stop + 1) := by
    intro stop
    rw [front_succ, hfirst, textOf, String.append_assoc]
  have hsteps : ∀ stop, (∀ step < stop, ∃ text, turns (step + 1) = some (.ok text)) →
      ∀ step < stop + 1, ∃ text, turns step = some (.ok text) := by
    intro stop hok step hstep
    cases step with
    | zero => exact ⟨text, hfirst⟩
    | succ step => exact hok step (Nat.lt_of_succ_lt_succ hstep)
  cases h with
  | all hok =>
      rw [hfront]
      exact .all (hsteps count hok)
  | upTo hlt hok hfails =>
      rw [hfront]
      exact .upTo (Nat.succ_lt_succ hlt) (hsteps _ hok) hfails

end Follows

section

variable {κ : Type} [DecidableEq κ] [RegionKind κ]

/-- The block of the layout of a seed, or the reason why there is none; nothing if the
run is not over after `limit` regions. -/
def turn (engine : Engine κ Float) (arguments : Arguments) (limit : Nat) (seed : UInt64) :
    Option (Except String String) :=
  match engine.generate limit arguments.width arguments.height seed with
  | .ok (some generation) => some (.ok (block arguments seed generation))
  | .ok none => none
  | .error failure => some (.error failure.message)

variable {engine : Engine κ Float} {arguments : Arguments} {limit more : Nat} {first : UInt64}
  {outcome : Outcome}

theorem turn_eq (engine : Engine κ Float) (arguments : Arguments) (limit : Nat) (seed : UInt64) :
    turn engine arguments limit seed =
      (ended? (engine.generate limit arguments.width arguments.height seed)).map
        (blockOf arguments seed) := by
  rw [turn]
  rcases engine.generate limit arguments.width arguments.height seed with
    failure | _ | generation <;> rfl

end

/-- The program comes to an end and leaves this outcome, however many regions more than
enough its runs may handle. -/
def EndsWith (arguments : Arguments) (contents : Except FileFault ByteArray) (drawn : UInt64)
    (outcome : Outcome) : Prop :=
  ∃ enough, ∀ limit, enough ≤ limit →
    execute limit (some (.generate arguments)) contents drawn = some outcome

/-- There is one outcome at most. -/
theorem EndsWith.unique {arguments : Arguments} {contents : Except FileFault ByteArray}
    {drawn : UInt64} {first second : Outcome} (hfirst : EndsWith arguments contents drawn first)
    (hsecond : EndsWith arguments contents drawn second) : first = second := by
  obtain ⟨enough, hfirst⟩ := hfirst
  obtain ⟨others, hsecond⟩ := hsecond
  have hboth := hfirst (max enough others) (Nat.le_max_left _ _)
  rw [hsecond _ (Nat.le_max_right _ _)] at hboth
  exact (Option.some.inj hboth).symm

namespace Makes

variable {arguments : Arguments} {contents : Except FileFault ByteArray}
  {turns : Nat → UInt64 → Option (Except String String)} {limit more : Nat}
  {drawn seed : UInt64} {outcome : Outcome} {text message : String}

end Makes

section

variable {arguments : Arguments} {contents : Except FileFault ByteArray}
  {turns : Nat → UInt64 → Option (Except String String)}

end

end Parterre.CommandLine
