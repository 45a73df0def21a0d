/-
The program: arguments, the configuration file and the two output streams.
-/
import Parterre.CommandLine.Report

open Parterre

/-- A system error number, which may be reported negated. -/
def errorNumber (code : UInt32) : Nat :=
  (if code < 0x80000000 then code else 0 - code).toNat

/-- The fault behind a failure to read a file. -/
def faultOf (failure : IO.Error) : FileFault :=
  match failure with
  | .noFileOrDirectory .. => .missing
  | .permissionDenied .. => .denied
  | .inappropriateType _ code _ =>
      if errorNumber code = 20 then .notDirectory else .directory
  | .invalidArgument _ code _ =>
      if errorNumber code = 36 then .nameTooLong
      else .stated (toString failure)
  | other => .stated (toString other)

/-- The contents of a file, or why there are none. -/
def readContents (path : String) : IO (Except FileFault ByteArray) := do
  try
    return .ok (← IO.FS.readBinFile path)
  catch failure =>
    return .error (faultOf failure)

/-- The configuration file that a request names. -/
def configPath : Option CommandLine.Request → Option String
  | some (.generate arguments) => arguments.config
  | _ => none

/-- How many regions a run may handle at first. -/
def firstLimit : Nat := 1 <<< 20

def main (arguments : List String) : IO UInt32 := do
  let request := CommandLine.parse? arguments
  let contents ← match configPath request with
    | some path => readContents path
    | none => pure (.error .missing)
  let seed := UInt64.ofNat (← IO.rand 0 (1 <<< 64 - 1))
  -- a run that does not end is tried again for ever
  let outcome ← IO.iterate firstLimit fun limit => do
    match CommandLine.execute limit request contents seed with
    | some outcome => return .inr outcome
    | none => return .inl (2 * limit)
  IO.print outcome.stdout
  for complaint in outcome.complaints do
    IO.eprintln complaint
  return outcome.exitCode.toUInt32
