/-
The outline of a tree: one line for each region, indented by two blanks for
each level, with its kind, its rectangle to one decimal and its state.
-/
import Parterre.Decimal.Layout
import Parterre.Region

namespace Parterre

/-- The word for a state. -/
def Status.word : Status → String
  | .pending => "pending"
  | .expanded => "expanded"
  | .terminal => "terminal"

/-- What an outline says about the origin of children. -/
def Composition.remark : Option (Composition Float) → String
  | some (.embedded margin) => " (embed, margin " ++ Decimal.plain margin ++ ")"
  | _ => ""

/-- Position and size, as in "[0.0, 0.0 20.0x10.0]". -/
def Rect.brief (bounds : Rect Float) : String :=
  "[" ++ Decimal.tenths bounds.x ++ ", " ++ Decimal.tenths bounds.y
    ++ " " ++ Decimal.tenths bounds.width
    ++ "x" ++ Decimal.tenths bounds.height ++ "]"

namespace Region

variable {κ : Type} [RegionKind κ]

/-- The blanks in front of a line. -/
def indent (level : Nat) : String :=
  String.ofList (List.replicate (2 * level) ' ')

/-- The line of one region. -/
def outlineLine (level : Nat) (kind : κ) (bounds : Rect Float)
    (state : Status) (composition : Option (Composition Float)) : String :=
  indent level ++ RegionKind.name kind ++ " " ++ bounds.brief ++ " "
    ++ state.word ++ Composition.remark composition

mutual

/-- The lines of a tree whose root is on the given level. -/
def outlineLines (level : Nat) : Region κ Float → List String
  | .node kind bounds state composition children =>
      outlineLine level kind bounds state composition
        :: outlineLinesAll (level + 1) children

def outlineLinesAll (level : Nat) : List (Region κ Float) → List String
  | [] => []
  | region :: rest =>
      region.outlineLines level ++ outlineLinesAll level rest

end

/-- The outline, every line ended by a line break. -/
def outline (region : Region κ Float) : String :=
  String.join ((region.outlineLines 0).map fun line => line ++ "\n")

end Region

end Parterre
