/-
What the command line prints: two lines on the request, then a block for every
generated layout, up to the first run that fails.
-/
import Parterre.CommandLine.Arguments
import Parterre.Engine.Run
import Parterre.Error.Message
import Parterre.Garden.Rules
import Parterre.Planting.Rules
import Parterre.Region.Outline
import Parterre.Region.Summary

namespace Parterre.CommandLine

/-- What a run of the program leaves behind. -/
structure Outcome where
  exitCode : UInt8
  stdout : String
  /-- Complaints, one after the other. -/
  complaints : List String

/-- Blanks behind a text up to a width. -/
def padRight (width : Nat) (text : String) : String :=
  text ++ String.ofList (List.replicate (width - text.length) ' ')

/-- Blanks in front of a text up to a width. -/
def padLeft (width : Nat) (text : String) : String :=
  String.ofList (List.replicate (width - text.length) ' ') ++ text

/-- The lines in front of all blocks. -/
def header (arguments : Arguments) : String :=
  "Layout: " ++ arguments.layout.title ++ "\n"
    ++ "Area: " ++ Decimal.plain arguments.width
    ++ "x" ++ Decimal.plain arguments.height ++ "\n"

/-- The line on the leaves of one kind; shares are relative to the area that
was asked for. -/
def summaryLine (total : Float) (entry : String × LeafTotal Float) : String :=
  "  " ++ padRight 14 entry.1 ++ " " ++ padLeft 4 (toString entry.2.count)
    ++ " leaves  "
    ++ padLeft 5 (Decimal.tenths ((100 : Float) * entry.2.area / total))
    ++ "% of area\n"

/-- The line on the size of a tree. -/
def statsLine (stats : Stats) : String :=
  "Created " ++ toString stats.regions ++ " regions ("
    ++ toString stats.leaves ++ " leaves, depth " ++ toString stats.maxDepth
    ++ ", " ++ toString stats.embeds ++ " embeds, "
    ++ toString stats.safeguarded ++ " stopped by safeguard)\n"

/-- The block of one generated layout. -/
def block {κ : Type} [RegionKind κ] (arguments : Arguments) (seed : UInt64)
    (generation : Generation κ Float) : String :=
  let total := arguments.width * arguments.height
  "\nSeed: " ++ toString seed ++ "\n"
    ++ statsLine generation.stats
    ++ String.join (generation.root.leafTotals.map (summaryLine total))
    ++ (if arguments.outline then generation.root.outline else "")

/-- The seeds of a batch; they wrap around at the largest one. -/
def seeds (first : UInt64) (count : Nat) : List UInt64 :=
  (List.range (max count 1)).map fun step => first + UInt64.ofNat step

/-- The result of a run, unless the run is not over. -/
def ended? {κ : Type} :
    Except (LayoutError Float) (Option (Generation κ Float)) →
      Option (Except (LayoutError Float) (Generation κ Float))
  | .ok (some generation) => some (.ok generation)
  | .ok none => none
  | .error failure => some (.error failure)

/-- The block of a run, or the reason why there is none. -/
def blockOf {κ : Type} [RegionKind κ] (arguments : Arguments) (seed : UInt64) :
    Except (LayoutError Float) (Generation κ Float) → Except String String
  | .ok generation => .ok (block arguments seed generation)
  | .error failure => .error failure.message

/-- The blocks of the runs of a batch, which are taken in step with their seeds, up
to the first run that failed, and why it did. -/
def blocks {κ : Type} [RegionKind κ] (arguments : Arguments) :
    List (UInt64 × Except (LayoutError Float) (Generation κ Float)) →
      List String × Option String
  | [] => ([], none)
  | (seed, run) :: rest =>
      match blockOf arguments seed run with
      | .ok text =>
          let (others, failure) := blocks arguments rest
          (text :: others, failure)
      | .error message => ([], some message)

/-- The complaint about a failure. -/
def complaint (message : String) : String :=
  "Error: " ++ message

/-- What is left behind when blocks are printed behind a header, up to the failure if
there is one. -/
def outcomeOf (head : String) : List String × Option String → Outcome
  | (printed, none) => ⟨0, head ++ String.join printed, []⟩
  | (printed, some message) => ⟨1, head ++ String.join printed, [complaint message]⟩

/-- The whole output for an engine.  No block is printed before all runs are over, so
there is no outcome if one of them is not over after `limit` regions. -/
def report {κ : Type} [DecidableEq κ] [RegionKind κ] (limit : Nat)
    (engine : Engine κ Float) (arguments : Arguments) (seed : UInt64) :
    Option Outcome := do
  let batch := seeds seed arguments.count
  let runs ←
    (engine.generateMany limit arguments.width arguments.height batch).mapM ended?
  return outcomeOf (header arguments) (blocks arguments (batch.zip runs))

/-- Build the engine and print the report, or the reason why there is no
engine. -/
def generate (limit : Nat) (arguments : Arguments) (overrides : Overrides)
    (seed : UInt64) : Option Outcome :=
  match arguments.layout with
  | .garden =>
      match Garden.Config.load overrides >>= Garden.engine with
      | .ok engine => report limit engine arguments seed
      | .error failure => some ⟨1, "", [complaint failure.message]⟩
  | .planting =>
      match Planting.Config.load overrides >>= Planting.engine with
      | .ok engine => report limit engine arguments seed
      | .error failure => some ⟨1, "", [complaint failure.message]⟩

/-- The complaint about a name that is no level of the log. -/
def logComplaints (arguments : Arguments) : List String :=
  if isLogLevel arguments.logLevel then []
  else ["Invalid log level: " ++ arguments.logLevel ++ ". Using 'warn' instead."]

/-- What is laid over the default configuration: the file, if one is named. -/
def overrides (arguments : Arguments) (contents : Except FileFault ByteArray) : Overrides :=
  if arguments.config.isSome then .file contents else .nothing

/-- How the program is called. -/
def usage : String :=
  "Usage: parterre [--layout garden|planting] [--width <number>]"
    ++ " [--height <number>] [--seed <seed>] [--config <file>]"
    ++ " [--count <number>] [--outline] [--log-level <level>]\n"

/-- Run the program on parsed arguments.  The seed is used if none is given,
and `contents` is what the configuration file holds.  A run that goes on for
more than `limit` regions leaves no outcome. -/
def execute (limit : Nat) (request : Option Request)
    (contents : Except FileFault ByteArray) (seed : UInt64) : Option Outcome :=
  match request with
  | none => some ⟨2, "", [usage]⟩
  | some .help => some ⟨0, usage, []⟩
  | some (.generate arguments) =>
      (generate limit arguments (overrides arguments contents)
        (arguments.seed.getD seed)).map fun outcome =>
          { outcome with complaints := logComplaints arguments ++ outcome.complaints }

end Parterre.CommandLine
