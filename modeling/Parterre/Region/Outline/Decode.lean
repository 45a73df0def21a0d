/-
Reading an outline back.  The indentation of the lines gives the shape of the
tree, and every line gives the name of a kind, a state and whether the region
has an embedded feature.  Rectangles are rounded in an outline, so they are
not read.
-/
import Parterre.Region.Outline

namespace Parterre

/-- What an outline tells about a tree. -/
inductive Skeleton where
  | node (kindName : String) (state : Status) (isEmbed : Bool)
      (children : List Skeleton)

/-- The composition embeds a feature. -/
def Composition.isEmbed {α : Type} : Option (Composition α) → Bool
  | some (.embedded _) => true
  | _ => false

namespace Region

variable {κ α : Type} [RegionKind κ]

mutual

def skeleton : Region κ α → Skeleton
  | .node kind _ state composition children =>
      .node (RegionKind.name kind) state (Composition.isEmbed composition)
        (skeletons children)

def skeletons : List (Region κ α) → List Skeleton
  | [] => []
  | region :: rest => region.skeleton :: skeletons rest

end

end Region

/-- What a line tells about its region. -/
structure Heading where
  level : Nat
  kindName : String
  state : Status
  isEmbed : Bool
  deriving DecidableEq

def Status.ofWord? (word : List Char) : Option Status :=
  if word = Status.pending.word.toList then some .pending
  else if word = Status.expanded.word.toList then some .expanded
  else if word = Status.terminal.word.toList then some .terminal
  else none

/-- Read a line: blanks, a name, a rectangle in brackets, a state and possibly
a remark. -/
def Heading.ofLine? (line : List Char) : Option Heading :=
  let (blanks, rest) := line.span (· == ' ')
  let (kindName, rest) := rest.span (· != ' ')
  let behindBracket := (rest.dropWhile (· != ']')).drop 2
  let (word, remark) := behindBracket.span (· != ' ')
  (Status.ofWord? word).map fun state =>
    ⟨blanks.length / 2, String.ofList kindName, state, !remark.isEmpty⟩

namespace Skeleton

/-- The trees of a level and the lines behind them.  Every call but the last
one takes a line, so there are at most as many rounds as lines and one. -/
def ofHeadings : Nat → Nat → List Heading → List Skeleton × List Heading
  | 0, _, headings => ([], headings)
  | _ + 1, _, [] => ([], [])
  | rounds + 1, level, heading :: rest =>
      if heading.level = level then
        let (children, rest) := ofHeadings rounds (level + 1) rest
        let (siblings, rest) := ofHeadings rounds level rest
        (.node heading.kindName heading.state heading.isEmbed children :: siblings,
          rest)
      else ([], heading :: rest)

/-- The lines of a text; behind the last line break there is no line. -/
def lines (text : List Char) : List (List Char) :=
  (text.splitOn '\n').dropLast

/-- Read the outline of one tree. -/
def ofOutline? (text : String) : Option Skeleton := do
  let headings ← (lines text.toList).mapM Heading.ofLine?
  match ofHeadings (headings.length + 1) 0 headings with
  | ([root], []) => some root
  | _ => none

end Skeleton

end Parterre
