import DramBanks.Group
import DramBanks.RunLength
import DramBanks.Warning
/-!
# Calibration of the threshold

    One huge block spans every bank many times.  Timing its first byte
    against the first byte of every page gives two clusters of latencies:
    fast pairs in different banks, and slow pairs in one bank.  The
    threshold lies in the gap between them.

    Latencies are counted in bins of ten cycles.  Walking the bins upward,
    the first one with more than two latencies that lies more than two
    bins above the previous such bin, once three quarters of all latencies
    have been met, begins the slow cluster.  Several runs are made and the
    median of their thresholds counts.
-/

namespace DramBanks.Calibration

variable {σ : Type}

def binWidth : Nat := 10

/-! ## One histogram -/

/-- The occupied bins in ascending order, and how many latencies each holds. -/
def histogram (times : List Latency) : List (Nat × Nat) :=
  RunLength.encode ((times.map fun t => t.toNat / binWidth).mergeSort fun a b => decide (a ≤ b))

/-- The middle between two bins, counted from the lowest bin, as a bin. -/
def middle (lowest below above : Nat) : Nat := (above + below) / 2 + lowest

/-- Walks the bins of `total` latencies to the middle of the gap.  `last` is the last bin with more
    than two latencies, counted from the lowest bin, and `found` is how many latencies were met. -/
def gap? (total lowest : Nat) : List (Nat × Nat) → (last found : Nat) → Option Nat
  | [], _, _ => none
  | (bin, count) :: rest, last, found =>
      let i := bin - lowest
      let found := found + count
      if count ≤ 2 then gap? total lowest rest last found
      else if last + 2 < i ∧ total * 3 / 4 ≤ found then some (middle lowest last i)
      else gap? total lowest rest i found

/-- The latency at which a bin begins. -/
def latencyOfBin (bin : Nat) : Except Fault Latency :=
  Word.mul (UInt64.ofNat bin) (UInt64.ofNat binWidth)

/-- How many bins lie between the lowest and the highest latency. -/
def binSpan (bins : List (Nat × Nat)) : Nat :=
  (bins.getLastD (0, 0)).1 - (bins.headD (0, 0)).1 + 1

/-- The threshold that latencies suggest.  A histogram has to fit into the address space. -/
def thresholdOf (times : List Latency) : Except Fault (Option Latency) :=
  let bins := histogram times
  if 1 <<< 60 ≤ binSpan bins then .error .capacity
  else
    match gap? times.length (bins.headD (0, 0)).1 bins 0 0 with
    | none => .ok none
    | some bin => (latencyOfBin bin).map some

/-! ## One run -/

/-- Times `base` against the pages from page `page` on, `left` in number; the latencies come
    in front of those in `times`, the latest first. -/
def timePages (p : Probe σ) (base : Address) (rounds : UInt64) (fenced : Bool) :
    (left page : Nat) → (times : List Latency) → σ → List Latency × σ
  | 0, _, times, s => (times, s)
  | left + 1, page, times, s =>
      let (t, s) := p.measure ⟨base, base + UInt64.ofNat (page * 4096), rounds, fenced⟩ s
      timePages p base rounds fenced left (page + 1) (t :: times) s

/-- The threshold that one run over the pages of the block at `base` suggests. -/
def singleThreshold (p : Probe σ) (base : Address) (pages : Nat) (rounds : UInt64)
    (fenced : Bool) (s : σ) : Except Fault (Option Latency × σ) :=
  if pages = 0 then .ok (none, s)
  else if base.toNat + (pages - 1) * 4096 < UInt64.size then
    let (times, s) := timePages p base rounds fenced pages 0 [] s
    (thresholdOf times).map fun threshold => (threshold, s)
  else .error .sumOverflow

/-! ## Several runs -/

/-- What a number of calibration runs gave. -/
structure Runs (σ : Type) where
  thresholds : List Latency
  /-- A warning for each run that found none, in their order. -/
  warnings : List (Notice σ)
deriving DecidableEq, Repr

/-- Makes `left` runs behind `done` earlier ones. -/
def runs (p : Probe σ) (settings : Settings) (base : Address) :
    (left done : Nat) → Runs σ → σ → Except Fault (Runs σ × σ)
  | 0, _, r, s => .ok (r, s)
  | left + 1, done, r, s =>
      match singleThreshold p base settings.pagesPerHugeBlock.toNat settings.rounds
          settings.fenced s with
      | .error f => .error f
      | .ok (some t, s) =>
          runs p settings base left (done + 1) { r with thresholds := t :: r.thresholds } s
      | .ok (none, s) =>
          runs p settings base left (done + 1)
            { r with warnings := r.warnings ++ [⟨.noGap done, s⟩] } s

/-- The median threshold of the configured number of runs, if one found a gap. -/
def conflictThreshold (p : Probe σ) (settings : Settings) (base : Address) (s : σ) :
    Except Fault (Option Latency × List (Notice σ) × σ) :=
  if 1 <<< 60 ≤ settings.calibrationRuns.toNat then .error .capacity
  else
    (runs p settings base settings.calibrationRuns.toNat 0 ⟨[], []⟩ s).map fun (r, s) =>
      (median r.thresholds, r.warnings, s)

def noGapMessage (runs : UInt64) : String :=
  s!"no latency gap found in {runs} calibration runs"

end DramBanks.Calibration
