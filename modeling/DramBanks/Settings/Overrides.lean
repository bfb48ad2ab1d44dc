import DramBanks.Settings
/-!
# Layers of settings

    A layer gives values to some of the settings and leaves the others
    alone.  The configuration file is one layer and the command line
    another; they are laid over the defaults in this order, and each
    field is decided on its own.
-/

namespace DramBanks

/-- The name of one setting, in the order of the fields of a configuration. -/
inductive Field where
  | initialHugeBlocks | additionalHugeBlocks | pagesPerHugeBlock | startPage | endPage
  | initialBlockSize | blockSize | minimumBlockSize | conflictThreshold | calibrationRuns
  | sampleSize | rounds | fenced | retries | errorPercentage | threads | maxMaskBits
  | maxRegroupRounds | memoryType | seed
deriving DecidableEq, Repr

namespace Field

/-- The key of a setting in a configuration file. -/
def key : Field → String
  | initialHugeBlocks => "initial_thps"
  | additionalHugeBlocks => "additional_thps"
  | pagesPerHugeBlock => "pages_per_thp"
  | startPage => "start_offset"
  | endPage => "end_offset"
  | initialBlockSize => "initial_block_size"
  | blockSize => "block_size"
  | minimumBlockSize => "minimum_block_size"
  | conflictThreshold => "row_conflict_threshold"
  | calibrationRuns => "measurements_for_threshold"
  | sampleSize => "compare_addresses"
  | rounds => "measurements_per_comparison"
  | fenced => "fenced"
  | retries => "max_retries_for_bank_index_search"
  | errorPercentage => "max_error_percentage"
  | threads => "threads"
  | maxMaskBits => "max_mask_bits"
  | maxRegroupRounds => "max_regroup_rounds"
  | memoryType => "flush"
  | seed => "seed"

def all : List Field :=
  [initialHugeBlocks, additionalHugeBlocks, pagesPerHugeBlock, startPage, endPage,
   initialBlockSize, blockSize, minimumBlockSize, conflictThreshold, calibrationRuns,
   sampleSize, rounds, fenced, retries, errorPercentage, threads, maxMaskBits,
   maxRegroupRounds, memoryType, seed]

def ofKey? (key : String) : Option Field := all.find? fun f => f.key == key

theorem mem_all (f : Field) : f ∈ all := by
  cases f <;> decide

end Field

/-- Values for some of the settings. -/
structure Overrides where
  initialHugeBlocks : Option UInt64 := none
  additionalHugeBlocks : Option UInt64 := none
  pagesPerHugeBlock : Option UInt64 := none
  startPage : Option UInt64 := none
  endPage : Option UInt64 := none
  initialBlockSize : Option UInt64 := none
  blockSize : Option (Option UInt64) := none
  minimumBlockSize : Option UInt64 := none
  conflictThreshold : Option (Option Latency) := none
  calibrationRuns : Option UInt64 := none
  sampleSize : Option UInt64 := none
  rounds : Option UInt64 := none
  fenced : Option Bool := none
  retries : Option UInt64 := none
  errorPercentage : Option UInt64 := none
  threads : Option UInt64 := none
  maxMaskBits : Option UInt32 := none
  maxRegroupRounds : Option UInt64 := none
  memoryType : Option MemoryType := none
  seed : Option (Option UInt64) := none
deriving DecidableEq, Repr

/-- The settings with the values of a layer laid over them. -/
def Settings.override (s : Settings) (o : Overrides) : Settings where
  initialHugeBlocks := o.initialHugeBlocks.getD s.initialHugeBlocks
  additionalHugeBlocks := o.additionalHugeBlocks.getD s.additionalHugeBlocks
  pagesPerHugeBlock := o.pagesPerHugeBlock.getD s.pagesPerHugeBlock
  startPage := o.startPage.getD s.startPage
  endPage := o.endPage.getD s.endPage
  initialBlockSize := o.initialBlockSize.getD s.initialBlockSize
  blockSize := o.blockSize.getD s.blockSize
  minimumBlockSize := o.minimumBlockSize.getD s.minimumBlockSize
  conflictThreshold := o.conflictThreshold.getD s.conflictThreshold
  calibrationRuns := o.calibrationRuns.getD s.calibrationRuns
  sampleSize := o.sampleSize.getD s.sampleSize
  rounds := o.rounds.getD s.rounds
  fenced := o.fenced.getD s.fenced
  retries := o.retries.getD s.retries
  errorPercentage := o.errorPercentage.getD s.errorPercentage
  threads := o.threads <|> s.threads
  maxMaskBits := o.maxMaskBits.getD s.maxMaskBits
  maxRegroupRounds := o.maxRegroupRounds.getD s.maxRegroupRounds
  memoryType := o.memoryType.getD s.memoryType
  seed := o.seed.getD s.seed

end DramBanks
