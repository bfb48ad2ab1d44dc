import DramBanks.Bits
import DramBanks.Probe
/-!
# Simulated memory

    Latencies that follow a rule instead of a machine: the parities of
    masks, the residue of a block number, a table, or a script that is
    read call by call.  Flaky addresses answer with a latency of their
    own.  The state of the probe is the number of timings so far.

    A rule that divides by zero or reads from an empty list has no
    latencies.  The checked probe remembers that it was asked for one.
-/

namespace DramBanks

/-- How the latency of a pair of addresses comes about. -/
inductive LatencyRule where
  | constant (value : Latency)
  /-- `hit` for equal parities under all masks, else `miss`. -/
  | masks (masks : List Mask) (hit miss : Latency)
  /-- `hit` for equal residues of the block numbers, else `miss`. -/
  | residues (unit modulus : UInt64) (hit miss : Latency)
  /-- The latencies in turn, over and over. -/
  | script (values : Array Latency)
  /-- The latency of the distance in pages, over and over. -/
  | pages (values : Array Latency)
  /-- The latency that a table has for the known address or for the candidate. -/
  | table (byKnown : Bool) (entries : List (Address × Latency)) (default : Latency)
deriving DecidableEq, Repr

/-- The addresses whose timings have a latency of their own: every `modulus`-th block. -/
structure Flaky where
  base : Address
  unit : UInt64
  modulus : UInt64
  residue : UInt64
  value : Latency
deriving DecidableEq, Repr

/-- Whether every address has a block number and a residue. -/
def Flaky.isDefined (f : Flaky) : Bool := f.unit != 0 && f.modulus != 0

def Flaky.holds (f : Flaky) (addr : Address) : Bool :=
  (addr - f.base) / f.unit % f.modulus == f.residue

structure Simulation where
  rule : LatencyRule
  /-- Added for every access round. -/
  perRound : Latency := 0
  /-- Added when the rounds are not serialized. -/
  unfenced : Latency := 0
  flaky : Option Flaky := none
deriving DecidableEq, Repr

namespace LatencyRule

/-- Whether the rule gives a latency to every pair. -/
def isDefined : LatencyRule → Bool
  | constant _ | masks _ _ _ | table _ _ _ => true
  | residues unit modulus _ _ => unit != 0 && modulus != 0
  | script values | pages values => !values.isEmpty

/-- The latency at a position of a list that is repeated. -/
def cyclic (values : Array Latency) (position : Nat) : Latency :=
  values.getD (position % values.size) 0

/-- The latency of a pair after a number of earlier timings. -/
def latency : LatencyRule → (known candidate : Address) → (calls : Nat) → Latency
  | constant value, _, _, _ => value
  | masks ms hit miss, a, b, _ =>
      if ms.all fun m => Bits.parity (a &&& m) == Bits.parity (b &&& m) then hit else miss
  | residues unit modulus hit miss, a, b, _ =>
      if a / unit % modulus == b / unit % modulus then hit else miss
  | script values, _, _, calls => cyclic values calls
  | pages values, a, b, _ => cyclic values ((b - a) >>> 12).toNat
  | table byKnown entries default, a, b, _ =>
      (entries.lookup (if byKnown then a else b)).getD default

end LatencyRule

namespace Simulation

/-- The latency of a timing after a number of earlier ones. -/
def latency (m : Simulation) (q : Query) (calls : Nat) : Latency :=
  let value :=
    match m.flaky with
    | some f =>
        if f.holds q.known || f.holds q.candidate then f.value
        else m.rule.latency q.known q.candidate calls
    | none => m.rule.latency q.known q.candidate calls
  value + m.perRound * q.rounds + (if q.fenced then 0 else m.unfenced)

/-- The simulated memory as a probe that counts its timings and samples the first members. -/
def probe (m : Simulation) : Probe Nat where
  measure := fun q calls => (m.latency q calls, calls + 1)
  choose := fun n k calls => (Sample.first n k, calls)

/-- Every timing is a fault if a rule of the memory is not defined. -/
def check (m : Simulation) : Except Fault Unit :=
  if m.rule.isDefined && (m.flaky.map Flaky.isDefined).getD true then .ok ()
  else .error .divisionByZero

/-- The probe that remembers a fault of the rules. -/
def checkedProbe (m : Simulation) : Probe (Nat × Except Fault Unit) :=
  m.probe.guarded fun _ => m.check

end Simulation

end DramBanks
