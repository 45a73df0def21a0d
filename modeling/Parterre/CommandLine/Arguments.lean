/-
The arguments of the command line.  Every option is given at most once, by a
long name or a letter.  A value follows as the next argument, if it does not
look like an option, or is joined to the option.
-/
import Parterre.Decimal.Reading
import Parterre.Layout

namespace Parterre.CommandLine

/-- The options of the command line. -/
inductive Flag where
  | layout
  | width
  | height
  | seed
  | config
  | count
  | outline
  | logLevel
  | help
  deriving DecidableEq

def Flag.ofName? : String → Option Flag
  | "layout" => some .layout
  | "width" => some .width
  | "height" => some .height
  | "seed" => some .seed
  | "config" => some .config
  | "count" => some .count
  | "outline" => some .outline
  | "log-level" => some .logLevel
  | "help" => some .help
  | _ => none

def Flag.ofLetter? : Char → Option Flag
  | 'l' => some .layout
  | 'W' => some .width
  | 'H' => some .height
  | 's' => some .seed
  | 'c' => some .config
  | 'n' => some .count
  | 'h' => some .help
  | _ => none

/-- The option stands for itself. -/
def Flag.isSwitch : Flag → Bool
  | .outline | .help => true
  | _ => false

/-- An option with its value, which is empty for a switch. -/
structure Setting where
  flag : Flag
  value : String
  deriving DecidableEq

/-- An argument that is an option, with the value that is joined to it. -/
def splitOption? : List Char → Option (Option Flag × Option String)
  | '-' :: '-' :: rest =>
      let (name, joined) := rest.span (· != '=')
      some (Flag.ofName? (String.ofList name),
        if joined.isEmpty then none else some (String.ofList (joined.drop 1)))
  | '-' :: letter :: rest =>
      let joined := match rest with
        | '=' :: value => some (String.ofList value)
        | [] => none
        | value => some (String.ofList value)
      match Flag.ofLetter? letter with
      | some flag => some (some flag, if flag.isSwitch then none else joined)
      | none => some (none, joined)
  | _ => none

/-- The argument can stand behind an option as its value. -/
def isValue (argument : String) : Bool :=
  (splitOption? argument.toList).isNone

/-- The options in order, up to a request for help.  Nothing is returned for
an unknown option, a missing or superfluous value or an argument that belongs
to no option. -/
def settings? : List String → Option (List Setting)
  | [] => some []
  | ["--"] => some []
  | argument :: rest =>
      match splitOption? argument.toList with
      | some (some flag, joined) =>
          if flag.isSwitch then
            if joined.isSome then none
            else if flag = .help then some [⟨.help, ""⟩]
            else (settings? rest).map (⟨flag, ""⟩ :: ·)
          else
            match joined, rest with
            | some value, rest => (settings? rest).map (⟨flag, value⟩ :: ·)
            | none, value :: rest =>
                if isValue value then (settings? rest).map (⟨flag, value⟩ :: ·)
                else none
            | none, [] => none
      | _ => none

/-- What is generated and what is printed of it. -/
structure Arguments where
  layout : Layout
  width : Float
  height : Float
  /-- The seed of the first layout, if one is given. -/
  seed : Option UInt64
  /-- A file with overrides. -/
  config : Option String
  /-- How many layouts with consecutive seeds; zero counts as one. -/
  count : Nat
  /-- Print the whole trees. -/
  outline : Bool
  logLevel : String

def Arguments.defaults : Arguments where
  layout := .garden
  width := 600
  height := 600
  seed := none
  config := none
  count := 1
  outline := false
  logLevel := "warn"

/-- A natural number below `2 ^ 64`, with or without a plus sign. -/
def word? (text : String) : Option Nat :=
  let digits := match text.toList with
    | '+' :: rest => rest
    | rest => rest
  match Decimal.readNat? digits with
  | some value => if value < 1 <<< 64 then some value else none
  | none => none

/-- Apply an option; a value that it does not take is refused. -/
def Arguments.set (arguments : Arguments) (setting : Setting) : Option Arguments :=
  let value := setting.value
  match setting.flag with
  | .layout => (Layout.ofName? value).map ({ arguments with layout := · })
  | .width => (Decimal.read? value).map ({ arguments with width := · })
  | .height => (Decimal.read? value).map ({ arguments with height := · })
  | .seed =>
      (word? value).map fun seed =>
        { arguments with seed := some (UInt64.ofNat seed) }
  | .config =>
      if value.isEmpty then none else some { arguments with config := some value }
  | .count => (word? value).map ({ arguments with count := · })
  | .outline => some { arguments with outline := true }
  | .logLevel => some { arguments with logLevel := value }
  | .help => some arguments

/-- What the command line asks for. -/
inductive Request where
  | generate (arguments : Arguments)
  | help

/-- Apply options in order.  An option may be given once; a request for help
ends the reading. -/
def request? (seen : List Flag) (arguments : Arguments) :
    List Setting → Option Request
  | [] => some (.generate arguments)
  | setting :: rest =>
      if setting.flag = .help then some .help
      else if setting.flag ∈ seen then none
      else
        match arguments.set setting with
        | some arguments => request? (setting.flag :: seen) arguments rest
        | none => none

/-- Read the arguments; nothing is returned for bad usage. -/
def parse? (arguments : List String) : Option Request := do
  let settings ← settings? arguments
  request? [] .defaults settings

/-- The levels of the log. -/
def logLevels : List String :=
  ["off", "error", "warn", "info", "debug", "trace"]

/-- The name is one of a level, in any case. -/
def isLogLevel (text : String) : Bool :=
  logLevels.contains (String.ofList (text.toList.map Char.toLower))

end Parterre.CommandLine
