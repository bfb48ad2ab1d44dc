import DramBanks.Settings
import Mathlib.Algebra.Group.Nat.Defs
import Mathlib.Data.Option.Basic
/-!
# Settings that break no rule

    The rules are checked one after the other, and the first broken one is
    reported.  Settings that break none keep all of them at once: this is
    `Settings.Valid`, one field for every rule, and what the rest of the
    development reads off settings. -/

namespace DramBanks

/-- A power of two shares no bit with its predecessor. -/
theorem Word.isPowerOfTwo_iff {a : UInt64} : isPowerOfTwo a = true ↔ ∃ k, a.toNat = 2 ^ k := by
  have hnat : isPowerOfTwo a = true ↔ a.toNat ≠ 0 ∧ a.toNat &&& (a.toNat - 1) = 0 := by
    rw [isPowerOfTwo, Bool.and_eq_true, bne_iff_ne, beq_iff_eq, Ne, ← UInt64.toNat_inj]
    refine and_congr_right fun hpos => ?_
    have hone : (1 : UInt64) ≤ a := UInt64.le_iff_toNat_le.mpr (Nat.one_le_iff_ne_zero.mpr hpos)
    rw [← UInt64.toNat_inj, UInt64.toNat_and, UInt64.toNat_sub_of_le _ _ hone]
    rfl
  exact hnat.trans Nat.ne_zero_and_sub_one_eq_zero_iff_isPowerOfTwo

namespace Settings

variable {s : Settings}

/-- Settings that keep every rule. -/
structure Valid (s : Settings) : Prop where
  counts : ∀ entry ∈ s.counts, entry.2 ≠ 0
  sizes : ∀ entry ∈ s.alignedSizes, Word.isPowerOfTwo entry.2 = true
  minimum : s.minimumBlockSize ≤ s.initialBlockSize
  bytes : s.pagesPerHugeBlock.toNat * 4096 < 2 ^ 64
  initial : s.initialBlockSize.toNat ≤ s.pagesPerHugeBlock.toNat * 4096
  fixed : ∀ size, s.blockSize = some size → size ≠ 0 ∧ s.minimumBlockSize ≤ size
  threshold : s.conflictThreshold ≠ some 0
  start : s.startPage < s.endPage
  stop : s.endPage ≤ s.pagesPerHugeBlock
  percentage : s.errorPercentage ≤ 100
  maskBits : s.maxMaskBits ≠ 0 ∧ s.maxMaskBits ≤ 64

/-! ## The rules one by one -/

theorem zeroCount?_eq_none : s.zeroCount? = none ↔ ∀ entry ∈ s.counts, entry.2 ≠ 0 := by
  simp only [zeroCount?, Option.map_eq_none_iff, List.find?_eq_none, beq_iff_eq, ne_eq]

theorem unalignedSize?_eq_none : s.unalignedSize? = none ↔
    ∀ entry ∈ s.alignedSizes, Word.isPowerOfTwo entry.2 = true := by
  simp only [unalignedSize?, Option.map_eq_none_iff, List.find?_eq_none, Bool.not_eq_true',
    Bool.not_eq_false]

theorem minimumViolation?_eq_none :
    s.minimumViolation? = none ↔ s.minimumBlockSize ≤ s.initialBlockSize := by
  simp only [minimumViolation?, ite_eq_right_iff, reduceCtorEq, imp_false, UInt64.not_lt]

theorem hugeBlockViolation?_eq_none {bytes : UInt64} :
    s.hugeBlockViolation? bytes = none ↔ s.initialBlockSize ≤ bytes := by
  simp only [hugeBlockViolation?, ite_eq_right_iff, reduceCtorEq, imp_false, UInt64.not_lt]

theorem fixedSizeViolation?_eq_none : s.fixedSizeViolation? = none ↔
    ∀ size, s.blockSize = some size → size ≠ 0 ∧ s.minimumBlockSize ≤ size := by
  rw [fixedSizeViolation?]
  cases s.blockSize with
  | none => simp
  | some size =>
      by_cases hzero : size = 0
      · simp [hzero]
      · simp [hzero, UInt64.not_lt]

theorem thresholdViolation?_eq_none :
    s.thresholdViolation? = none ↔ s.conflictThreshold ≠ some 0 := by
  simp only [thresholdViolation?, ite_eq_right_iff, reduceCtorEq, imp_false, ne_eq]

theorem offsetViolation?_eq_none :
    s.offsetViolation? = none ↔ s.startPage < s.endPage ∧ s.endPage ≤ s.pagesPerHugeBlock := by
  simp only [offsetViolation?, ite_eq_right_iff, reduceCtorEq, imp_false, not_or, UInt64.not_le,
    UInt64.not_lt]

theorem percentageViolation?_eq_none :
    s.percentageViolation? = none ↔ s.errorPercentage ≤ 100 := by
  simp only [percentageViolation?, ite_eq_right_iff, reduceCtorEq, imp_false, UInt64.not_lt]

theorem maskBitsViolation?_eq_none :
    s.maskBitsViolation? = none ↔ s.maxMaskBits ≠ 0 ∧ s.maxMaskBits ≤ 64 := by
  simp only [maskBitsViolation?, ite_eq_right_iff, reduceCtorEq, imp_false, not_or,
    UInt32.not_lt, ne_eq]

/-! ## All rules -/

/-- **RULES**: no violation is reported exactly when every rule is kept. -/
theorem firstViolation_eq_none_iff : s.firstViolation = .ok none ↔ s.Valid := by
  have hbytes : s.pagesPerHugeBlock.toNat * 4096 < 2 ^ 64 →
      s.hugeBlockBytes = .ok (s.pagesPerHugeBlock * 4096)
        ∧ (s.initialBlockSize ≤ s.pagesPerHugeBlock * 4096 ↔
          s.initialBlockSize.toNat ≤ s.pagesPerHugeBlock.toNat * 4096) := by
    intro hlt
    have hmul : s.hugeBlockBytes = .ok (s.pagesPerHugeBlock * 4096) := Word.mul_of_lt hlt
    refine ⟨hmul, ?_⟩
    rw [UInt64.le_iff_toNat_le, Word.toNat_of_mul hmul]
    rfl
  rw [firstViolation]
  split
  · next e he =>
      refine iff_of_false (fun h => nomatch h) fun h => ?_
      rw [zeroCount?_eq_none.mpr h.counts, unalignedSize?_eq_none.mpr h.sizes,
        minimumViolation?_eq_none.mpr h.minimum] at he
      cases he
  · next hnone =>
      rw [Option.orElse_eq_none, Option.orElse_eq_none, zeroCount?_eq_none,
        unalignedSize?_eq_none, minimumViolation?_eq_none] at hnone
      obtain ⟨hcounts, hsizes, hminimum⟩ := hnone
      by_cases hlt : s.pagesPerHugeBlock.toNat * 4096 < 2 ^ 64
      · obtain ⟨hmul, hle⟩ := hbytes hlt
        rw [hmul, Except.map, Except.ok.injEq]
        simp only [Option.orElse_eq_none, hugeBlockViolation?_eq_none, fixedSizeViolation?_eq_none,
          thresholdViolation?_eq_none, offsetViolation?_eq_none, percentageViolation?_eq_none,
          maskBitsViolation?_eq_none]
        constructor
        · rintro ⟨hinitial, hfixed, hthreshold, ⟨hstart, hstop⟩, hpercentage, hmask⟩
          exact ⟨hcounts, hsizes, hminimum, hlt, hle.mp hinitial, hfixed, hthreshold, hstart, hstop,
            hpercentage, hmask⟩
        · intro h
          exact ⟨hle.mpr h.initial, h.fixed, h.threshold, ⟨h.start, h.stop⟩, h.percentage,
            h.maskBits⟩
      · have hover : s.hugeBlockBytes = .error .productOverflow := if_neg hlt
        rw [hover]
        exact iff_of_false (fun h => nomatch h) fun h => hlt h.bytes

namespace Valid

variable (h : s.Valid)
include h

/-! ## What the rules say of single settings -/

theorem initialHugeBlocks_ne_zero : s.initialHugeBlocks ≠ 0 :=
  h.counts ("initial-thps", s.initialHugeBlocks) (by simp [Settings.counts])

theorem minimumBlockSize_ne_zero : s.minimumBlockSize ≠ 0 :=
  h.counts ("minimum-block-size", s.minimumBlockSize) (by simp [Settings.counts])

theorem sampleSize_ne_zero : s.sampleSize ≠ 0 :=
  h.counts ("address-group-comparisons", s.sampleSize) (by simp [Settings.counts])

theorem maxRegroupRounds_ne_zero : s.maxRegroupRounds ≠ 0 :=
  h.counts ("max-regroup-rounds", s.maxRegroupRounds) (by simp [Settings.counts])

/-- The initial block size is a power of two. -/
theorem exists_initialBlockSize : ∃ k, s.initialBlockSize.toNat = 2 ^ k :=
  Word.isPowerOfTwo_iff.mp
    (h.sizes ("initial-block-size", s.initialBlockSize) (by simp [alignedSizes]))

/-- So is the minimum. -/
theorem exists_minimumBlockSize : ∃ k, s.minimumBlockSize.toNat = 2 ^ k :=
  Word.isPowerOfTwo_iff.mp
    (h.sizes ("minimum-block-size", s.minimumBlockSize) (by simp [alignedSizes]))

end Valid

end Settings

end DramBanks
