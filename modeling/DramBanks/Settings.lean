import DramBanks.Page
/-!
# Settings of an analysis

    The parameters of one run, their defaults, and the rules that a run
    needs them to keep.  `Settings.firstViolation` walks the rules in a
    fixed order and reports the first one that is broken; the only
    arithmetic in it is the size of a huge block, and a size beyond the
    word is a fault.
-/

namespace DramBanks

/-- The generation of the memory, which decides how a cache line is flushed. -/
inductive MemoryType where
  | ddr3
  | ddr4
deriving DecidableEq, Repr

namespace MemoryType

def name : MemoryType → String
  | ddr3 => "ddr3"
  | ddr4 => "ddr4"

/-- An ASCII letter in lower case, any other character as it is. -/
def lower (c : Char) : Char :=
  if 'A' ≤ c ∧ c ≤ 'Z' then Char.ofNat (c.toNat + 32) else c

def ofText? (text : String) : Option MemoryType :=
  match text.toList.map lower with
  | ['d', 'd', 'r', '3'] => some ddr3
  | ['d', 'd', 'r', '4'] => some ddr4
  | _ => none

end MemoryType

/-- The parameters of one analysis. -/
structure Settings where
  /-- Huge blocks in which the banks are discovered. -/
  initialHugeBlocks : UInt64 := 1
  /-- Huge blocks that are added to the known banks afterwards. -/
  additionalHugeBlocks : UInt64 := 0
  pagesPerHugeBlock : UInt64 := Page.perHugeBlock
  /-- First page of a huge block that is classified. -/
  startPage : UInt64 := 0
  /-- First page of a huge block that is no longer classified. -/
  endPage : UInt64 := Page.perHugeBlock
  /-- Block size while the banks are discovered. -/
  initialBlockSize : UInt64 := Page.size
  /-- Fixed block size; detected from the grouping when absent. -/
  blockSize : Option UInt64 := none
  /-- Smallest block size that detection halves down to. -/
  minimumBlockSize : UInt64 := 64
  /-- Fixed row conflict threshold in cycles; calibrated when absent. -/
  conflictThreshold : Option Latency := none
  /-- Calibration runs, of which the median counts. -/
  calibrationRuns : UInt64 := 21
  /-- Members of a group that a new address is timed against. -/
  sampleSize : UInt64 := 9
  /-- Access rounds of one timing. -/
  rounds : UInt64 := 200
  /-- Whether access rounds are serialized. -/
  fenced : Bool := true
  /-- Further searches for a group before an address is given up. -/
  retries : UInt64 := 1
  /-- Percentage of a group's addresses that may contradict a mask. -/
  errorPercentage : UInt64 := 1
  /-- Workers of the mask search; one per processor when absent. -/
  threads : Option UInt64 := none
  /-- Largest number of bits of a mask. -/
  maxMaskBits : UInt32 := 7
  /-- Regrouping rounds before the bank count is given up. -/
  maxRegroupRounds : UInt64 := 64
  memoryType : MemoryType := .ddr4
  seed : Option UInt64 := none
deriving DecidableEq, Repr

/-- A rule that settings break. -/
inductive SettingsError where
  | zero (name : String)
  | notPowerOfTwo (name : String) (value : UInt64)
  | minimumAboveInitial (minimum initial : UInt64)
  | blockSizeBelowMinimum (blockSize minimum : UInt64)
  | blockSizeAboveHugeBlock (blockSize hugeBlockBytes : UInt64)
  | invalidOffsets (start stop pages : UInt64)
  | errorPercentage (percentage : UInt64)
  | maskBits (bits : UInt32)
  | unknownMemoryType (text : String)
deriving DecidableEq, Repr

namespace SettingsError

def message : SettingsError → String
  | zero name => s!"Value 0 is invalid for parameter {name}"
  | notPowerOfTwo name value => s!"{name} must be a power of two, got {value}"
  | minimumAboveInitial minimum initial =>
      s!"minimum block size {minimum} exceeds initial block size {initial}"
  | blockSizeBelowMinimum blockSize minimum =>
      s!"block size {blockSize} is below the minimum block size {minimum}"
  | blockSizeAboveHugeBlock blockSize hugeBlockBytes =>
      s!"initial block size {blockSize} exceeds the huge block size {hugeBlockBytes}"
  | invalidOffsets start stop pages =>
      s!"page offsets {start}..{stop} do not fit into {pages} pages"
  | errorPercentage percentage => s!"mask error percentage {percentage} exceeds 100"
  | maskBits bits => s!"maximum number of mask bits must be within 1..=64, got {bits}"
  | unknownMemoryType text => s!"DRAM type '{text}' not supported"

end SettingsError

namespace Settings

def hugeBlockBytes (s : Settings) : Except Fault UInt64 := Page.bytes s.pagesPerHugeBlock

/-- The counts that may not be zero, in the order in which they are checked. -/
def counts (s : Settings) : List (String × UInt64) :=
  [("initial-thps", s.initialHugeBlocks),
   ("pages-per-thp", s.pagesPerHugeBlock),
   ("end-offset", s.endPage),
   ("initial-block-size", s.initialBlockSize),
   ("minimum-block-size", s.minimumBlockSize),
   ("measurements-for-threshold", s.calibrationRuns),
   ("address-group-comparisons", s.sampleSize),
   ("address-group-measurements", s.rounds),
   ("threads", s.threads.getD 1),
   ("max-regroup-rounds", s.maxRegroupRounds)]

/-- The sizes that have to be powers of two, in the order in which they are checked. -/
def alignedSizes (s : Settings) : List (String × UInt64) :=
  [("initial-block-size", s.initialBlockSize), ("minimum-block-size", s.minimumBlockSize)]

def zeroCount? (s : Settings) : Option SettingsError :=
  (s.counts.find? fun entry => entry.2 == 0).map fun entry => .zero entry.1

def unalignedSize? (s : Settings) : Option SettingsError :=
  (s.alignedSizes.find? fun entry => !Word.isPowerOfTwo entry.2).map
    fun entry => .notPowerOfTwo entry.1 entry.2

/-- The minimum block size may not exceed the initial one. -/
def minimumViolation? (s : Settings) : Option SettingsError :=
  if s.initialBlockSize < s.minimumBlockSize then
    some (.minimumAboveInitial s.minimumBlockSize s.initialBlockSize)
  else none

/-- The initial block size may not exceed a huge block of `bytes` bytes. -/
def hugeBlockViolation? (s : Settings) (bytes : UInt64) : Option SettingsError :=
  if bytes < s.initialBlockSize then
    some (.blockSizeAboveHugeBlock s.initialBlockSize bytes)
  else none

/-- A fixed block size is neither zero nor below the minimum. -/
def fixedSizeViolation? (s : Settings) : Option SettingsError :=
  match s.blockSize with
  | none => none
  | some size =>
      if size = 0 then some (.zero "block-size")
      else if size < s.minimumBlockSize then
        some (.blockSizeBelowMinimum size s.minimumBlockSize)
      else none

/-- A fixed threshold is not zero. -/
def thresholdViolation? (s : Settings) : Option SettingsError :=
  if s.conflictThreshold = some 0 then some (.zero "row-conflict-threshold") else none

/-- The classified pages are a nonempty range of the huge block. -/
def offsetViolation? (s : Settings) : Option SettingsError :=
  if s.endPage ≤ s.startPage ∨ s.pagesPerHugeBlock < s.endPage then
    some (.invalidOffsets s.startPage s.endPage s.pagesPerHugeBlock)
  else none

/-- The tolerated percentage is one. -/
def percentageViolation? (s : Settings) : Option SettingsError :=
  if 100 < s.errorPercentage then some (.errorPercentage s.errorPercentage) else none

/-- A mask has between 1 and 64 bits. -/
def maskBitsViolation? (s : Settings) : Option SettingsError :=
  if s.maxMaskBits = 0 ∨ 64 < s.maxMaskBits then some (.maskBits s.maxMaskBits) else none

/-- The first rule that the settings break, if they break one. -/
def firstViolation (s : Settings) : Except Fault (Option SettingsError) :=
  match s.zeroCount? <|> s.unalignedSize? <|> s.minimumViolation? with
  | some e => .ok (some e)
  | none =>
      s.hugeBlockBytes.map fun bytes =>
        s.hugeBlockViolation? bytes <|> s.fixedSizeViolation? <|> s.thresholdViolation?
          <|> s.offsetViolation? <|> s.percentageViolation? <|> s.maskBitsViolation?

/-- The default settings break no rule. -/
theorem firstViolation_default : ({} : Settings).firstViolation = .ok none := rfl

end Settings

end DramBanks
