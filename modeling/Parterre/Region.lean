/-
Regions: a tree of kinds and rectangles.  A region owns its children, in the
order in which they are drawn, and records how they came about.
-/
import Parterre.Kind
import Parterre.Rect

namespace Parterre

/-- Where a region is in its life. -/
inductive Status where
  | pending
  | expanded
  | terminal
  deriving DecidableEq

/-- How the children of a region came about. -/
inductive Composition (α : Type) where
  /-- They tile the region. -/
  | tiled
  /-- A frame of the full size, and a feature on top inside the margin. -/
  | embedded (margin : α)
  deriving DecidableEq

/-- A region of a layout with everything below it. -/
inductive Region (κ α : Type) where
  | node (kind : κ) (bounds : Rect α) (state : Status)
      (composition : Option (Composition α)) (children : List (Region κ α))

namespace Region

variable {κ α : Type}

def kind : Region κ α → κ
  | .node kind _ _ _ _ => kind

def bounds : Region κ α → Rect α
  | .node _ bounds _ _ _ => bounds

def state : Region κ α → Status
  | .node _ _ state _ _ => state

def composition : Region κ α → Option (Composition α)
  | .node _ _ _ composition _ => composition

def children : Region κ α → List (Region κ α)
  | .node _ _ _ _ children => children

/-- A region that waits for its rule. -/
def pending (kind : κ) (bounds : Rect α) : Region κ α :=
  .node kind bounds .pending none []

def isTerminal (region : Region κ α) : Bool :=
  region.state == .terminal

def isLeaf (region : Region κ α) : Bool :=
  region.children.isEmpty

mutual

/-- A region, then the listings of its children in order. -/
def preorder : Region κ α → List (Region κ α)
  | .node kind bounds state composition children =>
      .node kind bounds state composition children :: preorderAll children

def preorderAll : List (Region κ α) → List (Region κ α)
  | [] => []
  | region :: rest => region.preorder ++ preorderAll rest

end

mutual

/-- The number of levels below a region. -/
def depth : Region κ α → Nat
  | .node _ _ _ _ children => levels children

/-- The number of levels that some trees take together. -/
def levels : List (Region κ α) → Nat
  | [] => 0
  | region :: rest => max (region.depth + 1) (levels rest)

end

section

variable [Scalar α]

def contains (region : Region κ α) (px py : α) : Bool :=
  region.bounds.contains px py

mutual

/-- The leaf that is seen at a point.  Later children are drawn over earlier
ones, so a feature hides its frame. -/
def leafAt (px py : α) : Region κ α → Option (Region κ α)
  | .node kind bounds state composition children =>
      if !bounds.contains px py then none
      else if children.isEmpty then
        some (.node kind bounds state composition children)
      else topLeafAt px py children

/-- The leaf that is seen when some trees are drawn in order. -/
def topLeafAt (px py : α) : List (Region κ α) → Option (Region κ α)
  | [] => none
  | region :: rest =>
      match topLeafAt px py rest with
      | some leaf => some leaf
      | none => region.leafAt px py

end

end

end Region

end Parterre
