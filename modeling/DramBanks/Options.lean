import DramBanks.Json
import DramBanks.Settings.Overrides
/-!
# Options of a run

    What the command line can say: a configuration file, an allocator,
    values for single settings, and where the report goes.  The settings
    of a run are the defaults with the configuration file laid over them
    and the command line laid over both.
-/

namespace DramBanks

/-- Where blocks come from. -/
inductive AllocatorKind where
  | transparent
  | hugeFile
deriving DecidableEq, Repr

namespace AllocatorKind

def name : AllocatorKind → String
  | transparent => "thp"
  | hugeFile => "hugetlbfs"

def ofName? (name : String) : Option AllocatorKind :=
  [transparent, hugeFile].find? fun kind => kind.name == name

end AllocatorKind

/-- What the command line says. -/
structure Options where
  config : Option String := none
  allocator : AllocatorKind := .transparent
  /-- Values for single settings. -/
  values : Overrides := {}
  /-- Access rounds are not serialized. -/
  noFences : Bool := false
  /-- More is logged. -/
  debug : Bool := false
  output : Option String := none
deriving DecidableEq, Repr

namespace Options

/-- The layer of settings that the options are.  Serialization can only be switched off. -/
def layer (o : Options) : Overrides :=
  { o.values with fenced := if o.noFences then some false else none }

/-- The settings of a run, given the layer of the configuration file. -/
def settings (o : Options) (file : Overrides) : Settings :=
  (({} : Settings).override file).override o.layer

/-- The options by the names of their fields, sorted, with `null` for what was not given. -/
def toJson (o : Options) : Json :=
  .object
    [("additional_thps", .ofOption .ofWord o.values.additionalHugeBlocks),
     ("allocator", .string o.allocator.name),
     ("block_size", .ofOption .ofWord (o.values.blockSize.getD none)),
     ("compare_addresses", .ofOption .ofWord o.values.sampleSize),
     ("config", .ofOption .string o.config),
     ("debug", .bool o.debug),
     ("end_offset", .ofOption .ofWord o.values.endPage),
     ("initial_block_size", .ofOption .ofWord o.values.initialBlockSize),
     ("initial_thps", .ofOption .ofWord o.values.initialHugeBlocks),
     ("max_error_percentage", .ofOption .ofWord o.values.errorPercentage),
     ("max_mask_bits", .ofOption (fun n => .ofNat n.toNat) o.values.maxMaskBits),
     ("max_regroup_rounds", .ofOption .ofWord o.values.maxRegroupRounds),
     ("measurements_for_threshold", .ofOption .ofWord o.values.calibrationRuns),
     ("measurements_per_comparison", .ofOption .ofWord o.values.rounds),
     ("memory_type", .ofOption (fun m => .string m.name) o.values.memoryType),
     ("minimum_block_size", .ofOption .ofWord o.values.minimumBlockSize),
     ("no_fences", .bool o.noFences),
     ("output", .ofOption .string o.output),
     ("pages_per_thp", .ofOption .ofWord o.values.pagesPerHugeBlock),
     ("retries", .ofOption .ofWord o.values.retries),
     ("row_conflict_threshold", .ofOption .ofWord (o.values.conflictThreshold.getD none)),
     ("seed", .ofOption .ofWord (o.values.seed.getD none)),
     ("start_offset", .ofOption .ofWord o.values.startPage),
     ("threads", .ofOption .ofWord o.values.threads)]

end Options

end DramBanks
