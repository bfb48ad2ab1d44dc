import DramBanks.Word
/-!
# Warnings

    What an analysis tells its user without stopping.
-/

namespace DramBanks

/-- An observation that the user should know of. -/
inductive Warning where
  /-- A calibration run whose histogram has no gap. -/
  | noGap (run : Nat)
  /-- Groups that lost all their members to a larger block size. -/
  | emptyGroups (empty groups : Nat) (blockSize : UInt64)
  /-- There is nothing to guess a block size from. -/
  | nothingToGuess (blockSize : UInt64)
  /-- The guess did not change down to the smallest block size. -/
  | notStabilized (blockSize : UInt64)
  /-- One of two block sizes is no power of two. -/
  | cannotStep (current target : UInt64)
  | unmatched (count : Nat)
  /-- The masks found tell apart a different number of banks. -/
  | bankMismatch (masks banks : Nat)
  /-- An allocation that failed after `held` blocks. -/
  | allocationFailed (block held : Nat)
  | misaligned (base : Address) (frame : Address)
  | hiddenFrame (virt : Address)
  /-- A file that could not be removed, and why. -/
  | unlinkFailed (path reason : String)
deriving DecidableEq, Repr

namespace Warning

def message : Warning → String
  | noGap run => s!"Threshold run {run} found no latency gap"
  | emptyGroups empty groups blockSize =>
      s!"{empty} of {groups} groups are empty at block size {blockSize}, "
        ++ "the block size is likely too large"
  | nothingToGuess blockSize => s!"No groups to guess the block size from, keeping {blockSize}"
  | notStabilized blockSize =>
      s!"Block size did not stabilize before reaching the minimum, using {blockSize}"
  | cannotStep current target =>
      s!"Cannot step from block size {current} to {target}, detecting the block size instead"
  | unmatched count => s!"{count} addresses of the additional blocks matched no bank"
  | bankMismatch masks banks =>
      s!"The number of address functions ({masks}) does not match the number of banks ({banks})"
  | allocationFailed block held =>
      s!"Allocation of block {block} failed, releasing {held} blocks"
  | misaligned base frame =>
      s!"Block at {Hex.word base} is not backed by an aligned huge page: "
        ++ s!"PhysAddr({Hex.paddedWord frame})"
  | hiddenFrame virt =>
      s!"Got invalid PFN 0 for virtual address {Hex.word virt}. Are we root?"
  | unlinkFailed path reason => s!"Failed to unlink {path}: {reason}"

end Warning

/-- A warning and the state of the probe when it was given, which tells what had been timed
    by then. -/
structure Notice (σ : Type) where
  warning : Warning
  state : σ
deriving DecidableEq, Repr

end DramBanks
