import Microcode.Encoding.Standard

/-!
# Arguments of the command line

Arguments are taken in from left to right. A request for help or for the
version is met where it stands, so only what comes before it can be at
fault. An option that takes a value has it after an equals sign, in the
rest of its cluster, or in the next argument, which must not look like
an option then. No option may be given twice. After `--` everything is
the name of a file.
-/

namespace Microcode.CommandLine

inductive OutputFormat where
  | text
  | json
deriving DecidableEq, Repr

structure Settings where
  image : Option String := none
  format : OutputFormat := .text
  /-- The file holds bytes and not text. -/
  binary : Bool := false
  resolution : Resolution := .setTraceFault
  separators : Bool := true
  flags : Bool := true
  references : Bool := false
  /-- Print the table of encodings and nothing else. -/
  patterns : Bool := false
  /-- Disassemble this opcode and nothing else. -/
  opcode : Option String := none
  parallel : Bool := false
  verbose : Bool := false
deriving DecidableEq, Repr

def Settings.Admitted (s : Settings) : Prop :=
  s.image.isSome ∨ s.patterns = true ∨ s.opcode.isSome

instance : DecidablePred Settings.Admitted :=
  fun s => inferInstanceAs
    (Decidable (s.image.isSome ∨ s.patterns = true ∨ s.opcode.isSome))

/-! ## Options -/

inductive Switch where
  | binary
  | noSeparators
  | noFlags
  | references
  | patterns
  | parallel
  | verbose
deriving DecidableEq, Repr

inductive Setting where
  | format
  | resolution
  | opcode
deriving DecidableEq, Repr

inductive Choice where
  | switch (s : Switch)
  | setting (s : Setting)
  | help
  | version
deriving DecidableEq, Repr

def longNames : List (String × Choice) :=
  [("format", .setting .format), ("binary", .switch .binary),
   ("resolution", .setting .resolution), ("no-separators", .switch .noSeparators),
   ("no-flags", .switch .noFlags), ("xref", .switch .references),
   ("patterns", .switch .patterns), ("opcode", .setting .opcode),
   ("parallel", .switch .parallel), ("verbose", .switch .verbose),
   ("help", .help), ("version", .version)]

/-- The letters of those options that have one. -/
def shortNames : List (Char × Choice) :=
  [('f', .setting .format), ('b', .switch .binary), ('x', .switch .references),
   ('v', .switch .verbose), ('h', .help), ('V', .version)]

def formatNames : List (String × OutputFormat) :=
  [("text", .text), ("json", .json)]

inductive UsageFault where
  | unknownOption (name : String)
  | repeated
  | missingValue
  | unexpectedValue (name : String)
  | invalidValue (value : String)
  | unexpectedArgument (text : String)
  | missingImage
deriving DecidableEq, Repr

/-- Why no settings come of the arguments. -/
inductive Halt where
  | usage (fault : UsageFault)
  | help
  | version
deriving DecidableEq, Repr

/-! ## Reading -/

/-- What the arguments so far have given. -/
structure Given where
  switches : List Switch := []
  format : Option OutputFormat := none
  resolution : Option Resolution := none
  opcode : Option String := none
  image : Option String := none
  /-- An option whose value is to come in the next argument. -/
  pending : Option Setting := none
  /-- The rest are names of files. -/
  filesOnly : Bool := false
deriving DecidableEq, Repr

namespace Given

def turnOn (g : Given) (s : Switch) : Except Halt Given :=
  if s ∈ g.switches then .error (.usage .repeated)
  else .ok { g with switches := s :: g.switches }

/-- The value of an option that has not been given one before. -/
def once {α : Type} (old : Option α) (value : String) (new : Option α) : Except Halt α :=
  match old, new with
  | none, some a => .ok a
  | none, none => .error (.usage (.invalidValue value))
  | some _, _ => .error (.usage .repeated)

def assign (g : Given) (s : Setting) (value : String) : Except Halt Given :=
  let g := { g with pending := none }
  match s with
  | .format =>
      (once g.format value (formatNames.lookup value)).map ({ g with format := some · })
  | .resolution =>
      (once g.resolution value (Resolution.ofName? value)).map
        ({ g with resolution := some · })
  | .opcode => (once g.opcode value (some value)).map ({ g with opcode := some · })

/-- Takes in the name of the file; there is one, and it is not empty. -/
def setImage (g : Given) (path : String) : Except Halt Given :=
  if g.image.isSome then .error (.usage (.unexpectedArgument path))
  else if path = "" then .error (.usage (.invalidValue path))
  else .ok { g with image := some path }

/-- Takes in a long option, given without the two hyphens. -/
def readLong (g : Given) (cs : List Char) : Except Halt Given :=
  let name := String.ofList (cs.takeWhile (· ≠ '='))
  match longNames.lookup name, cs.dropWhile (· ≠ '=') with
  | none, _ => .error (.usage (.unknownOption name))
  | some (.setting s), [] => .ok { g with pending := some s }
  | some (.setting s), _ :: value => g.assign s (String.ofList value)
  | some (.switch s), [] => g.turnOn s
  | some .help, [] => .error .help
  | some .version, [] => .error .version
  | some _, _ :: _ => .error (.usage (.unexpectedValue name))

def clusterValue : List Char → String
  | '=' :: value => String.ofList value
  | value => String.ofList value

/-- Takes in a cluster of short options, given without the hyphen. -/
def readCluster (g : Given) : List Char → Except Halt Given
  | [] => .ok g
  | c :: cs =>
      match shortNames.lookup c with
      | none => .error (.usage (.unknownOption (String.singleton c)))
      | some .help => .error .help
      | some .version => .error .version
      | some (.switch s) =>
          match g.turnOn s with
          | .ok g => g.readCluster cs
          | .error halt => .error halt
      | some (.setting s) =>
          if cs = [] then .ok { g with pending := some s }
          else g.assign s (clusterValue cs)

def readArgument (g : Given) (argument : String) : Except Halt Given :=
  let option (read : Except Halt Given) : Except Halt Given :=
    if g.pending.isSome then .error (.usage .missingValue) else read
  if g.filesOnly then g.setImage argument
  else match argument.toList with
    | ['-', '-'] => option (.ok { g with filesOnly := true })
    | '-' :: '-' :: cs => option (g.readLong cs)
    | '-' :: c :: cs => option (g.readCluster (c :: cs))
    | _ =>
        match g.pending with
        | some s => g.assign s argument
        | none => g.setImage argument

/-- The resolution: an option wins over the environment. -/
def chosenResolution (g : Given) (environment : Option String) :
    Except Halt Resolution :=
  match g.resolution, environment with
  | some resolution, _ => .ok resolution
  | none, none => .ok .setTraceFault
  | none, some name =>
      match Resolution.ofName? name with
      | some resolution => .ok resolution
      | none => .error (.usage (.invalidValue name))

/-- The settings once all arguments are taken in. -/
def settings (g : Given) (environment : Option String) : Except Halt Settings := do
  if g.pending.isSome then throw (.usage .missingValue)
  let resolution ← g.chosenResolution environment
  let s : Settings :=
    { image := g.image
      format := g.format.getD .text
      binary := .binary ∈ g.switches
      resolution
      separators := .noSeparators ∉ g.switches
      flags := .noFlags ∉ g.switches
      references := .references ∈ g.switches
      patterns := .patterns ∈ g.switches
      opcode := g.opcode
      parallel := .parallel ∈ g.switches
      verbose := .verbose ∈ g.switches }
  if s.Admitted then return s else throw (.usage .missingImage)

end Given

/-- Reads the arguments and the value of the environment variable for
the resolution, if it is set. -/
def readArguments (arguments : List String) (environment : Option String) :
    Except Halt Settings := do
  let g ← arguments.foldlM Given.readArgument {}
  g.settings environment

end Microcode.CommandLine
