import DramBanks.Options.Help
import DramBanks.Probe.Simulated
import DramBanks.Program
/-!
# The command line

    Reads the configuration file that the arguments name, runs the
    program and does what its outcome says: help and messages are printed,
    and the report is written.

    System calls are not within reach of this outer layer.  It runs the
    program on a kernel that has none, so a run whose options and
    configuration are in order ends where the first block is mapped, with
    the error of a missing system call; its probe is never asked.
-/

namespace DramBanks

/-- The number of an error that opening or reading a file ended in. -/
def errnoOf : IO.Error → Errno
  | .noFileOrDirectory _ code _ | .permissionDenied _ code _ | .inappropriateType _ code _
  | .invalidArgument _ code _ | .resourceExhausted _ code _ => ⟨code.toNat⟩
  | .hardwareFault code _ | .otherError code _ => ⟨code.toNat⟩
  | _ => .noEntry

def readFile (path : String) : IO (Except Errno ByteArray) := do
  try
    return .ok (← IO.FS.readBinFile path)
  catch e =>
    return .error (errnoOf e)

/-- The bytes of the configuration file that the arguments name. -/
def configurationOf (arguments : List String) : IO (Except Errno ByteArray) := do
  match Options.parse arguments with
  | .ok { config := some path, .. } => readFile path
  | _ => return .error .noEntry

/-- A kernel without system calls, next to a probe that is never asked. -/
def surroundings (configuration : Except Errno ByteArray) (drawn : UInt64) :
    Program.Surroundings Unit Nat where
  kernel := Kernel.unavailable
  probe := Simulation.probe { rule := .constant 0 }
  load := fun _ => Settings.load configuration
  create := fun _ => .ok ()
  drawn := drawn
  date := ""

/-- Prints what the program has to say and writes its report. -/
def finish (outcome : Program.Outcome) : IO UInt32 := do
  for warning in outcome.warnings do
    IO.eprintln s!"warning: {warning.message}"
  match outcome.stop with
  | some (.usage .displayHelp) => Options.helpLines.forM IO.println
  | some (.usage e) => IO.eprintln s!"error: {e.message}"
  | some (.failure f) => IO.eprintln s!"Error: {f.message}"
  | none => pure ()
  match outcome.written with
  | some file => IO.FS.writeFile file.path file.text
  | none => pure ()
  return UInt32.ofNat outcome.status

end DramBanks

def main (arguments : List String) : IO UInt32 := do
  let configuration ← DramBanks.configurationOf arguments
  let drawn ← IO.rand 0 (UInt64.size - 1)
  let surroundings := DramBanks.surroundings configuration (UInt64.ofNat drawn)
  DramBanks.finish (DramBanks.Program.run surroundings arguments 0 ⟨(), []⟩)
