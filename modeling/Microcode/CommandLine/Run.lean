import Microcode.Analysis
import Microcode.CommandLine.Arguments
import Microcode.CommandLine.Opcode
import Microcode.Report.Document
import Microcode.Report.Listing
import Microcode.Report.Tables

/-!
# Runs of the command line

A run reads its arguments, does what they ask for and ends with an exit
status: 0 if it did, 1 if it failed, 2 if the arguments are wrong. It
prints as it goes, piece by piece, and a fault ends it where it stands.
-/

namespace Microcode.CommandLine

def versionNumber : String := "0.1.0"

def commandName : String := "ucode-dis"

inductive RunFault where
  | table (diagnostic : Diagnostic)
  | opcode (text : String) (fault : OpcodeFault)
  | noImage
  | loading (path : String) (diagnostic : Diagnostic)
deriving DecidableEq, Repr

/-- A diagnostic and the fault that it rests on, where that is one of
the system. -/
def diagnosticChain (diagnostic : Diagnostic) : String :=
  match diagnostic with
  | .unreadable fault => diagnostic.message ++ ": " ++ fault.message
  | _ => diagnostic.message

def RunFault.message : RunFault → String
  | .table diagnostic =>
      "building the microinstruction decode table: " ++ diagnosticChain diagnostic
  | .opcode text fault => s!"'{text}' is not a 16-bit hex opcode: " ++ fault.message
  | .noImage => "no image given"
  | .loading path diagnostic => s!"loading {path}: " ++ diagnosticChain diagnostic

/-! ## Sessions -/

/-- Prints, and may be ended by a fault, which does not take back what has
been printed. -/
abbrev Session := ExceptT RunFault (StateM String)

namespace Session

def print (text : String) : Session Unit := modify (· ++ text)

/-- The value, without which the session ends. -/
def require {α ε : Type} (fault : ε → RunFault) : Except ε α → Session α
  | .ok a => pure a
  | .error e => throw (fault e)

/-- How a session ends, and all that it has printed by then. -/
def perform (session : Session Unit) : Except RunFault Unit × String :=
  Id.run (session.run.run "")

end Session

/-! ## What a run prints -/

def opcodeLine (d : Disassembler) (w : Word) : String :=
  Hex.text 4 w.toNat ++ "  " ++ (d.disassemble w).text ++ "\n"

def Settings.options (s : Settings) : Options :=
  { resolution := s.resolution, parallel := s.parallel }

def Settings.listing (s : Settings) : Report.ListingOptions :=
  { separators := s.separators, flags := s.flags }

def Settings.storeFormat (s : Settings) : ControlStore.Format :=
  if s.binary then .binary else .hexText

def report (s : Settings) (a : Analysis) : Session Unit := do
  match s.format with
  | .text =>
      Session.print (Report.listing s.listing a)
      if s.references then
        Session.print "\n"
        Session.print (Report.references a.references)
  | .json => Session.print (Report.document Report.defaultLayout a ++ "\n")

/-- What the settings ask for. The table of encodings comes before a
single opcode and that before a file. -/
def run (s : Settings) (file : String → Except FileFault ByteArray) : Session Unit := do
  let d ← Session.require .table (Disassembler.standard s.options)
  if s.patterns then
    Session.print (Report.encodings d.table)
  else match s.opcode, s.image with
    | some text, _ =>
        let w ← Session.require (.opcode text) (readOpcode text)
        Session.print (opcodeLine d w)
    | none, none => throw .noImage
    | none, some path =>
        let store ← Session.require (.loading path)
          (ControlStore.ofFile s.storeFormat (file path))
        report s (Analysis.ofStore d store)

/-- The file that has to be read to do what the settings ask for. -/
def Settings.neededFile? (s : Settings) : Option String :=
  if s.patterns ∨ s.opcode.isSome then none else s.image

/-! ## How a run ends -/

structure Outcome where
  exit : Nat
  output : String := ""
  errors : String := ""
deriving DecidableEq, Repr

def UsageFault.message : UsageFault → String
  | .unknownOption name => s!"unexpected argument '{name}' found"
  | .repeated => "an option is given more than once"
  | .missingValue => "an option lacks its value"
  | .unexpectedValue name => s!"the option '{name}' takes no value"
  | .invalidValue value => s!"invalid value '{value}'"
  | .unexpectedArgument text => s!"unexpected argument '{text}' found"
  | .missingImage => "no image, opcode or table is asked for"

def helpText : String :=
  "Lists the microcode of an iAPX 432 execution unit.\n\n"
    ++ "Usage: " ++ commandName ++ " [OPTIONS] [IMAGE]\n\n"
    ++ "  -f, --format <FORMAT>          text or json\n"
    ++ "  -b, --binary                   the image is raw big-endian words\n"
    ++ "      --resolution <RESOLUTION>  set-trace-fault or access-destination\n"
    ++ "      --no-separators            no blank lines between blocks\n"
    ++ "      --no-flags                 no column of reference flags\n"
    ++ "  -x, --xref                     print the tables of references too\n"
    ++ "      --patterns                 print the table of encodings\n"
    ++ "      --opcode <HEX>             disassemble one opcode\n"
    ++ "      --parallel                 decode words side by side\n"
    ++ "  -v, --verbose                  say more\n"
    ++ "  -h, --help                     print this help\n"
    ++ "  -V, --version                  print the version\n"

def Halt.outcome : Halt → Outcome
  | .usage fault => { exit := 2, errors := "error: " ++ fault.message ++ "\n" }
  | .help => { exit := 0, output := helpText }
  | .version => { exit := 0, output := commandName ++ " " ++ versionNumber ++ "\n" }

/-- The outcome of a session, of which is given how it ended and what it
printed. -/
def Outcome.ofSession : Except RunFault Unit × String → Outcome
  | (.ok (), output) => { exit := 0, output }
  | (.error fault, output) =>
      { exit := 1, output, errors := "Error: " ++ fault.message ++ "\n" }

def Settings.outcome (s : Settings) (file : String → Except FileFault ByteArray) :
    Outcome :=
  .ofSession (run s file).perform

/-- The outcome of a run with arguments, the value of the environment
variable for the resolution, and the files there are. -/
def outcome (arguments : List String) (environment : Option String)
    (file : String → Except FileFault ByteArray) : Outcome :=
  match readArguments arguments environment with
  | .ok s => s.outcome file
  | .error halt => halt.outcome

end Microcode.CommandLine
