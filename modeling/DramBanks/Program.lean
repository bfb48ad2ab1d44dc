import DramBanks.Analysis
import DramBanks.Options.Parser
/-!
# The program

    The program reads its options, analyzes the machine, writes the report
    where it was asked for one, and fails if the function is incomplete.
    Options that are not understood end it with status 2, help with status
    0, a failure with status 1, and a fault with status 101.
-/

namespace DramBanks.Program

variable {κ σ : Type}

/-- What a run of the program needs from its surroundings. -/
structure Surroundings (κ σ : Type) where
  kernel : Kernel κ
  probe : Probe σ
  load : String → Except Settings.LoadError Overrides
  /-- Whether a file can be created. -/
  create : String → Except Errno Unit
  /-- The seed that was drawn, for settings without one. -/
  drawn : UInt64
  date : String

structure Written where
  path : String
  text : String
deriving DecidableEq, Repr

/-- Why the program ends without success. -/
inductive Stop where
  | usage (e : UsageError)
  | failure (f : Failure)
deriving DecidableEq, Repr

/-- How a run of the program ends. -/
structure Outcome where
  stop : Option Stop := none
  written : Option Written := none
  warnings : List Warning := []
deriving DecidableEq, Repr

namespace Outcome

/-- The exit status. -/
def status (o : Outcome) : Nat :=
  match o.stop with
  | none | some (.usage .displayHelp) => 0
  | some (.usage _) => 2
  | some (.failure (.fault _)) => 101
  | some (.failure _) => 1

/-- The failure that the program returns.  Options that are not understood are none, and a fault
    leaves nothing to return. -/
def failure? (o : Outcome) : Option Failure :=
  match o.stop with
  | none | some (.usage _) | some (.failure (.fault _)) => none
  | some (.failure f) => some f

end Outcome

def save (s : Surroundings κ σ) (o : Options) (r : Report) : Except Errno (Option Written) :=
  match o.output with
  | none => .ok none
  | some path => (s.create path).map fun () => some ⟨path, r.toText s.date⟩

/-- The end of a run with a report. -/
def conclude (s : Surroundings κ σ) (o : Options) (r : Report) : Option Stop × Option Written :=
  match save s o r with
  | .error e => (some (.failure (.unwritable e)), none)
  | .ok written => (if r.success then none else some (.failure .incomplete), written)

/-- Runs the program on its arguments. -/
def run (s : Surroundings κ σ) (arguments : List String) (state : σ) (w : World κ) : Outcome :=
  match Options.parse arguments with
  | .error e => { stop := some (.usage e) }
  | .ok o =>
      match Analysis.settings s.load o with
      | .error e => { stop := some (.failure e) }
      | .ok settings =>
          match Analysis.run s.kernel s.probe o.debug o settings s.drawn state w with
          | (.error e, w) => { stop := some (.failure e), warnings := w.warnings }
          | (.ok r, w) =>
              let (stop, written) := conclude s o r
              ⟨stop, written, w.warnings⟩

end DramBanks.Program
