import Microcode.CommandLine.Run

/-!
# The program

Reads the file that a run needs, and shows the outcome.
-/

namespace Microcode.CommandLine

def faultOfError : IO.Error → FileFault
  | .noFileOrDirectory .. => .notFound
  | .permissionDenied .. => .denied
  | .inappropriateType _ 21 _ => .isDirectory
  | .inappropriateType .. => .notDirectory
  | error => .refused error.toString

def readFile (path : String) : IO (Except FileFault ByteArray) := do
  try
    return .ok (← IO.FS.readBinFile path)
  catch error =>
    return .error (faultOfError error)

def contents (arguments : List String) (environment : Option String) :
    IO (Except FileFault ByteArray) :=
  match readArguments arguments environment with
  | .ok s =>
      match s.neededFile? with
      | some path => readFile path
      | none => return .error .notFound
  | .error _ => return .error .notFound

end Microcode.CommandLine

open Microcode.CommandLine in
def main (arguments : List String) : IO UInt32 := do
  let environment ← IO.getEnv "UCODE_TRACE_FAULT"
  let file ← contents arguments environment
  let result := outcome arguments environment fun _ => file
  IO.print result.output
  IO.eprint result.errors
  return result.exit.toUInt32
