/-
The safeguard: the kinds that regions become when they are stopped before
their rules are done.
-/
import Parterre.Kind
import Parterre.Rule.Weighted
import Parterre.Sampler

namespace Parterre

/-- A weighted set of replacement kinds with at least one element. -/
structure Safeguard (κ α : Type) where
  first : α × κ
  others : List (α × κ)

namespace Safeguard

variable {κ α : Type}

def choices (safeguard : Safeguard κ α) : List (α × κ) :=
  safeguard.first :: safeguard.others

def kinds (safeguard : Safeguard κ α) : List κ :=
  safeguard.choices.map Prod.snd

variable [Scalar α]

def single (kind : κ) : Safeguard κ α :=
  ⟨(1, kind), []⟩

/-- All weights are positive. -/
def check [RegionKind κ] (safeguard : Safeguard κ α) :
    Except (LayoutError α) Unit :=
  match safeguard.choices.find? fun choice => ¬ 0 < choice.1 with
  | some (weight, kind) =>
      throw (.config (.safeguardWeight weight (RegionKind.name kind)))
  | none => return ()

/-- The safeguard with the given positive weights, which need not sum up to
one. -/
def ofList [RegionKind κ] :
    List (α × κ) → Except (LayoutError α) (Safeguard κ α)
  | [] => throw (.config .noSafeguard)
  | first :: others => do
      let safeguard : Safeguard κ α := ⟨first, others⟩
      safeguard.check
      return safeguard

/-- The kind at a position, or the last one. -/
def kindAt (safeguard : Safeguard κ α) (position : Nat) : κ :=
  (safeguard.choices[position]?.getD
    (safeguard.choices.getLast (List.cons_ne_nil _ _))).2

/-- The kind for a uniform value: weights are taken relative to their sum. -/
def pick (safeguard : Safeguard κ α) (value : α) : κ :=
  let weights := safeguard.choices.map Prod.fst
  match Weighted.index? (value * Scalar.sum weights) weights with
  | some position => safeguard.kindAt position
  | none => (safeguard.choices.getLast (List.cons_ne_nil _ _)).2

/-- The replacement kind.  A single one is taken without a draw. -/
def draw (safeguard : Safeguard κ α) : Sampler α κ :=
  match safeguard.others with
  | [] => return safeguard.first.2
  | _ :: _ => do
      let value ← Sampler.unit
      return safeguard.pick value

end Safeguard

end Parterre
