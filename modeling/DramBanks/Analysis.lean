import DramBanks.Allocator.HugeFile
import DramBanks.Allocator.Transparent
import DramBanks.Classifier.BlockSize
import DramBanks.Classifier.Translation
import DramBanks.Options
import DramBanks.Report
/-!
# The analysis

    An analysis allocates huge blocks, finds the latency from which on two
    addresses conflict, sorts the addresses of the initial blocks into
    banks, settles the block size, adds the additional blocks, translates
    the groups to physical addresses and derives the bank function.

    The part that measures, `Analysis.group`, works on any probe, and on
    any verdict that the state of the probe gives on the timings so far.
    The analysis runs it on a probe that watches for addresses outside of
    the blocks, and ends in a fault if there was one.
-/

namespace DramBanks

variable {κ σ : Type}

namespace Analysis

/-! ## Allocation -/

def blockCount (s : Settings) : Except Fault Nat :=
  (Word.add s.initialHugeBlocks s.additionalHugeBlocks).map UInt64.toNat

/-- The blocks of an allocator hold a huge block, or the allocation fails. -/
def checkSize (s : Settings) (size : UInt64) : Except Failure Unit :=
  match s.hugeBlockBytes with
  | .error f => .error (.fault f)
  | .ok bytes => if size < bytes then .error (.smallBlocks size s.pagesPerHugeBlock) else .ok ()

def allocateBlocks {ω : Type} (a : Allocator ω) (count : Nat) (w : ω) :
    Except Failure (List Block) × ω :=
  let (blocks, w) := a.allocateBlocks count w
  (blocks.mapError .ofAllocation, w)

def allocateTransparent (k : Kernel κ) (verbose : Bool) (s : Settings) (count : Nat)
    (w : World κ) : Except Failure (List Block) × World κ :=
  match Allocator.Transparent.sizeOfPages s.pagesPerHugeBlock with
  | .error e => (.error e, w)
  | .ok size =>
      match checkSize s size with
      | .error e => (.error e, w)
      | .ok () => allocateBlocks (Allocator.Transparent.allocator k verbose size) count w

def allocateHugeFiles (k : Kernel κ) (s : Settings) (count : Nat) (w : World κ) :
    Except Failure (List Block) × World κ :=
  match Allocator.HugePageSize.ofText? k.memoryInfo with
  | .error f => (.error (.fault f), w)
  | .ok size =>
      match checkSize s (size.getD 0) with
      | .error e => (.error e, w)
      | .ok () =>
          let (blocks, state) := allocateBlocks (Allocator.HugeFile.allocator k size) count ⟨0, w⟩
          (blocks, state.world)

def allocate (k : Kernel κ) (verbose : Bool) (kind : AllocatorKind) (s : Settings) (count : Nat)
    (w : World κ) : Except Failure (List Block) × World κ :=
  match kind with
  | .transparent => allocateTransparent k verbose s count w
  | .hugeFile => allocateHugeFiles k s count w

/-! ## Grouping -/

/-- The state of a measuring stage: the probe's, and the warnings so far. -/
structure Stage (σ : Type) where
  probe : σ
  warnings : List (Notice σ) := []

/-- What the measuring part of an analysis ends with. -/
structure Grouping where
  threshold : Latency
  blockSize : UInt64
  groups : List Group
  /-- Addresses of the additional blocks that matched no group. -/
  unmatched : Nat
deriving DecidableEq, Repr

/-- The configured threshold, or the one that calibration on the first block finds. -/
def threshold (p : Probe σ) (s : Settings) (blocks : List Block) (stage : Stage σ) :
    Except Failure Latency × Stage σ :=
  match s.conflictThreshold, blocks with
  | some t, _ => (.ok t, stage)
  | none, [] => (.error (.fault .outOfRange), stage)
  | none, block :: _ =>
      match Calibration.conflictThreshold p s block.base stage.probe with
      | .error f => (.error (.fault f), stage)
      | .ok (some t, warnings, probe) => (.ok t, ⟨probe, stage.warnings ++ warnings⟩)
      | .ok (none, warnings, probe) =>
          (.error (.noGap s.calibrationRuns), ⟨probe, stage.warnings ++ warnings⟩)

/-- Classifies blocks in turn and counts the addresses of each without a group. -/
def addBlocks (b : Bench σ) (allowNew : Bool) :
    List Block → Classifier σ → Except Fault (List Nat × Classifier σ)
  | [], c => .ok ([], c)
  | block :: rest, c =>
      match c.addRegion b allowNew block.base with
      | .error f => .error f
      | .ok (misses, c) =>
          (addBlocks b allowNew rest c).map fun (more, c) => (misses :: more, c)

/-- The sum of counts, unless it leaves the word. -/
def totalCount (counts : List Nat) : Except Fault Nat :=
  let total := counts.foldr (· + ·) 0
  if total < UInt64.size then .ok total else .error .sumOverflow

/-- Moves to the configured block size, or detects it. -/
def settleBlockSize (b : Bench σ) (c : Classifier σ) : Except Fault (UInt64 × Classifier σ) :=
  match b.settings.blockSize with
  | some size => c.setBlockSizeInSteps b size
  | none => c.detectBlockSize b

/-- Adds the additional blocks to banks of a settled block size. -/
def addAdditional (b : Bench σ) (additional : List Block) (size : UInt64) (c : Classifier σ) :
    Except Fault Grouping × Classifier σ :=
  match addBlocks b false additional c with
  | .error f => (.error f, c)
  | .ok (misses, c) =>
      match totalCount misses with
      | .error f => (.error f, c)
      | .ok unmatched =>
          (.ok ⟨b.threshold, size, c.groups, unmatched⟩,
           if 0 < unmatched then c.warn (.unmatched unmatched) else c)

/-- Settles the block size of regrouped blocks and adds the additional ones, unless the timings
    so far were a fault. -/
def finish (b : Bench σ) (verdict : σ → Except Fault Unit) (additional : List Block)
    (c : Classifier σ) : Except Fault Grouping × Classifier σ :=
  match settleBlockSize b c with
  | .error f => (.error f, c)
  | .ok (size, c) =>
      match verdict c.probe with
      | .error f => (.error f, c)
      | .ok () => addAdditional b additional size c

/-- Sorts the addresses of the blocks, the initial ones of which come first, into banks at a
    threshold. -/
def groupAt (b : Bench σ) (verdict : σ → Except Fault Unit) (blocks : List Block)
    (stage : Stage σ) : Except Failure Grouping × Stage σ :=
  let count := b.settings.initialHugeBlocks.toNat
  let rounds := b.settings.maxRegroupRounds.toNat
  let start := { Classifier.empty b stage.probe with warnings := stage.warnings }
  if blocks.length < count then (.error (.fault .outOfRange), stage)
  else
    match addBlocks b true (blocks.take count) start with
    | .error f => (.error (.fault f), stage)
    | .ok (_, c) =>
        match c.regroupUntilPlausible b rounds with
        | (none, c) => (.error (.oddBankCount c.bankCount rounds), ⟨c.probe, c.warnings⟩)
        | (some _, c) =>
            let (grouping, c) := finish b verdict (blocks.drop count) c
            (grouping.mapError .fault, ⟨c.probe, c.warnings⟩)

/-- Finds the threshold and sorts the addresses of the blocks into banks. -/
def group (p : Probe σ) (verdict : σ → Except Fault Unit) (s : Settings) (blocks : List Block)
    (stage : Stage σ) : Except Failure Grouping × Stage σ :=
  match threshold p s blocks stage with
  | (.error e, stage) => (.error e, stage)
  | (.ok t, stage) => groupAt ⟨s, t, p⟩ verdict blocks stage

/-- The warnings that were given before the first fault of a guarded probe.  Such a probe keeps
    its fault, so what is left is the part of the list in front of it. -/
def beforeFault (notices : List (Notice (σ × Except Fault Unit))) : List Warning :=
  (notices.filter fun n => n.state.2.isOk).map Notice.warning

/-- Groups the blocks and ends in the fault of the first timing outside of them; what is warned
    of behind that timing counts as little as what is found. -/
def groupGuarded (p : Probe σ) (s : Settings) (blocks : List Block) (state : σ)
    (w : World κ) : Except Failure Grouping × World κ :=
  let check := fun (q : Query) => Block.checkMapped blocks q.known q.candidate
  let (grouping, stage) := group (p.guarded check) Prod.snd s blocks ⟨(state, .ok ()), []⟩
  let w := { w with warnings := w.warnings ++ beforeFault stage.warnings }
  match stage.probe.2 with
  | .error f => (.error (.fault f), w)
  | .ok () => (grouping, w)

/-! ## The bank function -/

def physicalGroups (k : Kernel κ) (groups : List Group) (w : World κ) :
    Except Failure (List (List Address)) × World κ :=
  match PageTable.open? k w with
  | (.error e, w) => (.error (.pageTable e), w)
  | (.ok (), w) =>
      match Classifier.translateGroups (PageTable.translate k) groups w with
      | (.error e, w) => (.error (.pageTable e), w)
      | (.ok groups, w) => (.ok groups, w)

/-- Reports on the bank function of a grouping.  The seed is the one that was drawn, unless there
    is one in the settings. -/
def report (k : Kernel κ) (s : Settings) (drawn : UInt64) (g : Grouping) (w : World κ) :
    Except Failure Report × World κ :=
  match physicalGroups k g.groups w with
  | (.error e, w) => (.error e, w)
  | (.ok groups, w) =>
      match BankFunction.derive groups g.blockSize s.errorPercentage s.maxMaskBits.toNat
          (s.threads.getD 1).toNat with
      | .error f => (.error (.fault f), w)
      | .ok f =>
          (.ok (Report.ofFunction f g.blockSize g.threshold (s.seed.getD drawn) g.unmatched),
           if f.isComplete then w else w.warn (.bankMismatch f.masks.length f.bankCount))

/-- Groups the blocks and reports on their bank function. -/
def analyze (k : Kernel κ) (p : Probe σ) (s : Settings) (drawn : UInt64) (blocks : List Block)
    (state : σ) (w : World κ) : Except Failure Report × World κ :=
  match groupGuarded p s blocks state w with
  | (.error e, w) => (.error e, w)
  | (.ok g, w) => report k s drawn g w

/-! ## The whole run -/

def releaseBlocks (k : Kernel κ) (blocks : List Block) (w : World κ) : World κ :=
  blocks.foldl (fun w block => w.release k block.base block.size) w

/-- Allocates the blocks, analyzes them and releases them again.  A fault ends the run where it
    stands, with the blocks still mapped. -/
def run (k : Kernel κ) (p : Probe σ) (verbose : Bool) (o : Options) (s : Settings)
    (drawn : UInt64) (state : σ) (w : World κ) : Except Failure Report × World κ :=
  match blockCount s with
  | .error f => (.error (.fault f), w)
  | .ok count =>
      match allocate k verbose o.allocator s count w with
      | (.error e, w) => (.error e, w)
      | (.ok blocks, w) =>
          match analyze k p s drawn blocks state w with
          | (.error (.fault f), w) => (.error (.fault f), w)
          | (report, w) => (report.map fun r => r.withData o.toJson, releaseBlocks k blocks w)

/-- The settings of a run, given how a configuration file is loaded. -/
def settings (load : String → Except Settings.LoadError Overrides) (o : Options) :
    Except Failure Settings :=
  match o.config.elim (.ok {}) load with
  | .error e => .error (.load e)
  | .ok file =>
      let s := o.settings file
      match s.firstViolation with
      | .error f => .error (.fault f)
      | .ok (some e) => .error (.settings e)
      | .ok none => .ok s

end Analysis

end DramBanks
