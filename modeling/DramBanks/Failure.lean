import DramBanks.Allocator
import DramBanks.Calibration
import DramBanks.Classifier.Regroup
import DramBanks.PageTable
import DramBanks.Settings.Reader
/-!
# How a run fails

    The causes for which a run of the program ends without a result, and
    their texts.
-/

namespace DramBanks

/-- Why a run fails. -/
inductive Failure where
  | load (e : Settings.LoadError)
  | settings (e : SettingsError)
  /-- A block size that is no power of two number of pages, in bytes. -/
  | blockSize (bytes : UInt64)
  /-- The blocks of an allocator are smaller than a huge block. -/
  | smallBlocks (bytes pages : UInt64)
  | allocation (e : AllocationError)
  | unwritable (e : Errno)
  | noGap (runs : UInt64)
  /-- The number of banks is not plausible. -/
  | oddBankCount (banks rounds : Nat)
  | pageTable (e : PageTableError)
  | incomplete
  | fault (f : Fault)
deriving DecidableEq, Repr

namespace Failure

def ofAllocation : AllocationError → Failure
  | .fault f => .fault f
  | e => .allocation e

/-- Only a fault is reported as a fault. -/
theorem ofAllocation_eq_fault {e : AllocationError} {f : Fault}
    (h : ofAllocation e = .fault f) : e = .fault f := by
  cases e with
  | fault g =>
      cases h
      rfl
  | system e => cases h
  | noHugePageSize => cases h
  | exhausted => cases h

/-- The kind of a failure that comes from the operating system. -/
def ioKind? : Failure → Option IoKind
  | load (.unreadable e) => some e.kind
  | load .notText => some .invalidData
  | allocation (.system e) => some e.kind
  | allocation .noHugePageSize => some .unsupported
  | unwritable e => some e.kind
  | _ => none

def message : Failure → String
  | load (.unreadable e) => e.message
  | load .notText => "stream did not contain valid UTF-8"
  | load .malformed => "the configuration is not valid"
  | settings e => e.message
  | blockSize bytes =>
      s!"Block size must be a power of two number of 4 KB pages, got {bytes} bytes"
  | smallBlocks bytes pages => s!"Provider blocks of {bytes} bytes cannot hold {pages} pages"
  | allocation e => e.message
  | unwritable e => e.message
  | noGap runs => Calibration.noGapMessage runs
  | oddBankCount banks rounds => Classifier.bankCountMessage banks rounds
  | pageTable e => e.message
  | incomplete => "Bank address function incomplete"
  | fault f => f.message

end Failure

end DramBanks
