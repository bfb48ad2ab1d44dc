import DramBanks.Options.Parser
/-!
# The help text

    One line per option: its letter, its long name, and what it is for.
-/

namespace DramBanks

namespace CommandOption

def purpose : CommandOption → String
  | config => "JSON configuration file"
  | allocator => "where huge blocks come from: thp (default) or hugetlbfs"
  | initialHugeBlocks => "huge blocks in which the banks are discovered"
  | additionalHugeBlocks => "huge blocks added to the discovered banks afterwards"
  | pagesPerHugeBlock => "4 KB pages of a huge block"
  | startPage => "first page of a huge block that is classified"
  | endPage => "first page of a huge block that is no longer classified"
  | initialBlockSize => "block size in bytes while the banks are discovered"
  | blockSize => "fixed block size in bytes instead of detecting it"
  | minimumBlockSize => "smallest block size that detection considers"
  | conflictThreshold => "fixed row conflict threshold in cycles instead of calibrating it"
  | calibrationRuns => "calibration runs"
  | sampleSize => "members of a group that a new address is timed against"
  | rounds => "access rounds of a timing"
  | retries => "further searches before an address is given up"
  | errorPercentage => "percentage of a bank's addresses that may contradict a mask"
  | threads => "workers of the mask search"
  | maxMaskBits => "largest number of bits of a mask"
  | maxRegroupRounds => "regrouping rounds before giving up"
  | memoryType => "generation of the memory: ddr3 or ddr4"
  | seed => "seed of the sampling"
  | noFences => "do not serialize access rounds"
  | debug => "log more"
  | output => "file for the report"
  | help => "print this help"

/-- The letter, the long name and the value of an option. -/
def usage (o : CommandOption) : String :=
  let letter := match o.short? with
    | some c => s!"-{c}, "
    | none => "    "
  let value := if o.takesValue then " <VALUE>" else ""
  s!"  {letter}--{o.long}{value}"

/-- The line of an option, its purpose in a column of its own. -/
def helpLine (o : CommandOption) : String :=
  o.usage ++ String.ofList (List.replicate (48 - o.usage.length) ' ') ++ o.purpose

end CommandOption

def Options.helpLines : List String :=
  ["Find the DRAM bank address function of a machine", "", "Options:"]
    ++ CommandOption.all.map CommandOption.helpLine

end DramBanks
