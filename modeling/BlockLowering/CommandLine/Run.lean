import BlockLowering.CommandLine.Help
import BlockLowering.CommandLine.Report
import BlockLowering.Flat.Document
import BlockLowering.Flat.Listing
import BlockLowering.Flatten.Program
import BlockLowering.Json.Printer
import BlockLowering.Settings.Load
import BlockLowering.Source.Document

/-! What the commands do. All output is part of the result; files are read and written through
whatever access the caller has. -/

namespace BlockLowering.CommandLine

/-- The result of a command: what it logged, and its output or the report of its failure. -/
structure Done where
  log : List Event
  result : Except Report String

/-- What is left of a run for its caller. -/
structure Exit where
  code : UInt8
  output : String
  errors : String
  deriving Repr, DecidableEq

def Format.render (p : Flat.Program) : Format → String
  | listing => p.listing
  | json => p.encode.pretty ++ "\n"

/-- A number in a column of width three. -/
def column (n : Nat) : String := "".pushn ' ' (3 - (toString n).length) ++ toString n

/-- The fields of every class with their words and initial values. -/
def layoutText (l : Layout) : String :=
  String.join (l.sorted.map fun (name, fields) =>
    "class " ++ name ++ " (" ++ toString fields.size ++ " words)\n" ++
      String.join (fields.entries.map fun (field, slot) =>
        "  " ++ column slot.offset.toNat ++ "  " ++ field ++ " = " ++ slot.initial.text ++ "\n"))

variable {m : Type → Type} [Monad m]

def loadProgram (files : Files m) (path : String) : m (Except Report Source.Program) := do
  match ← files.read path with
  | .error f => pure (.error ⟨"Failed to read " ++ path, [f.message]⟩)
  | .ok text =>
    pure ((Source.Program.decode.run (Json.read text)).mapError fun f =>
      ⟨"Failed to parse program tree in " ++ path, [f.message]⟩)

def loadSettings (files : Files m) : Option String → m (Except Report Settings)
  | none => pure (.ok {})
  | some path => do
    let loaded ← Settings.load files path
    pure (loaded.mapError fun f => ⟨"Failed to load config " ++ path, [f.message, f.source]⟩)

/-- Writes the output to a file, if there is one for it. -/
def deliver (files : Files m) (output : Option String) (text : String) :
    m (Except Report String) := do
  match output with
  | none => pure (.ok text)
  | some path =>
    match ← files.write path text with
    | .ok () => pure (.ok "")
    | .error f => pure (.error ⟨"Failed to write " ++ path, [f.message]⟩)

/-- The settings are read before the program. -/
def runLower (files : Files m) (o : LowerOptions) : m Done := do
  match ← loadSettings files o.config with
  | .error r => pure ⟨[], .error r⟩
  | .ok settings =>
    match ← loadProgram files o.file with
    | .error r => pure ⟨[], .error r⟩
    | .ok p =>
      let lowered := lower { settings with validate := settings.validate || o.validate } p
      match lowered.result with
      | .error f => pure ⟨lowered.trail, .error ⟨"Failed to lower " ++ o.file, [f.message]⟩⟩
      | .ok flat => do
        let result ← deliver files o.output (o.format.render flat)
        pure ⟨lowered.trail ++ [⟨[], .loweredFile o.file flat.functions.length flat.classes.length
          flat.blocks.length⟩], result⟩

def runLayout (files : Files m) (path : String) : m Done := do
  let p ← loadProgram files path
  pure ⟨[], p.map fun p => layoutText (.ofClasses p.classes)⟩

/-- The log lines come before the report. -/
def Done.exit (d : Done) (verbosity : Nat) : Exit :=
  let shown := d.log.filter fun e => e.happening.level.detail ≤ verbosity
  let log := String.join (shown.map fun e => e.line ++ "\n")
  match d.result with
  | .ok output => ⟨0, output, log⟩
  | .error r => ⟨1, "", log ++ r.text⟩

def version : String := "cobra 0.1.0\n"

def usage : String :=
  "Usage: cobra [-v]... lower [-c FILE] [-f pretty|json] [-o FILE] [--validate] FILE\n" ++
    "       cobra [-v]... layout FILE\n"

def run (files : Files m) (args : List String) : m Exit := do
  match parse 0 args with
  | none => pure ⟨2, "", usage⟩
  | some .version => pure ⟨0, version, ""⟩
  | some (.help topic form) => pure ⟨0, topic.page.text form, ""⟩
  | some (.run verbosity (.lower options)) => do
    let done ← runLower files options
    pure (done.exit verbosity)
  | some (.run verbosity (.layout file)) => do
    let done ← runLayout files file
    pure (done.exit verbosity)

end BlockLowering.CommandLine
