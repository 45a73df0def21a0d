/-
Rule tables.  A table is a list of kinds with their rules that passed the
checks: every rule is sound, no kind has two rules, and no kind that needs a
rule is without one.
-/
import Parterre.Rule.Check

namespace Parterre

variable {κ α : Type} [DecidableEq κ] [RegionKind κ] [Scalar α]

namespace RuleTable

/-- Entries are checked in order: first the rule, then that the kind is new
among the kinds before it. -/
def checkEntries (seen : List κ) :
    List (κ × Rule κ α) → Except (LayoutError α) Unit
  | [] => return ()
  | (kind, rule) :: rest => do
      rule.check kind
      if kind ∈ seen then throw (.rule kind .registeredTwice)
      checkEntries (kind :: seen) rest

/-- Every kind that needs a rule is among the given ones. -/
def checkCoverage (kinds : List κ) : Except (LayoutError α) Unit :=
  match (RegionKind.all : List κ).find? fun kind => kind ∉ kinds with
  | some kind => throw (.unknownType (RegionKind.name kind))
  | none => return ()

def check (entries : List (κ × Rule κ α)) : Except (LayoutError α) Unit := do
  checkEntries [] entries
  checkCoverage (entries.map Prod.fst)

end RuleTable

/-- Entries that passed `RuleTable.check`. -/
structure RuleTable (κ α : Type) [DecidableEq κ] [RegionKind κ] [Scalar α] where
  entries : List (κ × Rule κ α)
  accepted : RuleTable.check entries = .ok ()

namespace RuleTable

/-- The table of the given entries. -/
def ofList (entries : List (κ × Rule κ α)) :
    Except (LayoutError α) (RuleTable κ α) :=
  match h : check entries with
  | .ok () => .ok ⟨entries, h⟩
  | .error failure => .error failure

/-- The table of a rule for every kind that needs one. -/
def ofFunction (rule : κ → Rule κ α) : Except (LayoutError α) (RuleTable κ α) :=
  ofList (RegionKind.all.map fun kind => (kind, rule kind))

def rule? (table : RuleTable κ α) (kind : κ) : Option (Rule κ α) :=
  table.entries.lookup kind

/-- The rule of a kind, or a complaint that it has none. -/
def rule (table : RuleTable κ α) (kind : κ) : Except (LayoutError α) (Rule κ α) :=
  match table.rule? kind with
  | some rule => return rule
  | none => throw (.unknownType (RegionKind.name kind))

/-- The rule of the kind leaves every region alone. -/
def isTerminal (table : RuleTable κ α) (kind : κ) : Bool :=
  match table.rule? kind with
  | some (.always .terminal) => true
  | _ => false

def size (table : RuleTable κ α) : Nat :=
  table.entries.length

end RuleTable

end Parterre
