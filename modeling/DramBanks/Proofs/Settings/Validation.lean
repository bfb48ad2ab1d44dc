import DramBanks.Proofs.Settings
/-!
# What validation tells

    Validation walks the rules and ends in one of three ways: no rule is
    broken, a rule is, or the size of a huge block needs more than a word.
    This size is computed once the counts, the powers of two and the minimum
    are in order, whatever other rules are broken, so a huge block of 2 ^ 52
    pages is a fault where an error was due (`firstViolation_of_vast_block`).

    Apart from that, validation is exact (`firstViolation_exact`).  The rules
    are said over the natural numbers (`Settings.Rules`), and so is what an
    error has to say about the settings that it is reported for
    (`Settings.Breaks`). -/

namespace DramBanks.Settings

variable {s : Settings} {e : SettingsError}

/-- The rules for settings, over the natural numbers. -/
structure Rules (s : Settings) : Prop where
  initialHugeBlocks : s.initialHugeBlocks.toNat ≠ 0
  pagesPerHugeBlock : s.pagesPerHugeBlock.toNat ≠ 0
  endPage : s.endPage.toNat ≠ 0
  initialBlockSize : s.initialBlockSize.toNat ≠ 0
  minimumBlockSize : s.minimumBlockSize.toNat ≠ 0
  calibrationRuns : s.calibrationRuns.toNat ≠ 0
  sampleSize : s.sampleSize.toNat ≠ 0
  rounds : s.rounds.toNat ≠ 0
  threads : ∀ n, s.threads = some n → n.toNat ≠ 0
  maxRegroupRounds : s.maxRegroupRounds.toNat ≠ 0
  initialPower : ∃ k, s.initialBlockSize.toNat = 2 ^ k
  minimumPower : ∃ k, s.minimumBlockSize.toNat = 2 ^ k
  minimum_le : s.minimumBlockSize.toNat ≤ s.initialBlockSize.toNat
  initial_le : s.initialBlockSize.toNat ≤ s.pagesPerHugeBlock.toNat * 4096
  blockSize : ∀ size, s.blockSize = some size →
    size.toNat ≠ 0 ∧ s.minimumBlockSize.toNat ≤ size.toNat
  conflictThreshold : ∀ t, s.conflictThreshold = some t → t.toNat ≠ 0
  start_lt : s.startPage.toNat < s.endPage.toNat
  stop_le : s.endPage.toNat ≤ s.pagesPerHugeBlock.toNat
  errorPercentage : s.errorPercentage.toNat ≤ 100
  maxMaskBits : 1 ≤ s.maxMaskBits.toNat ∧ s.maxMaskBits.toNat ≤ 64

/-- The counts, the powers of two and the minimum are in order. -/
structure Prepared (s : Settings) : Prop where
  counts : ∀ entry ∈ s.counts, entry.2.toNat ≠ 0
  sizes : ∀ entry ∈ s.alignedSizes, ∃ k, entry.2.toNat = 2 ^ k
  minimum : s.minimumBlockSize.toNat ≤ s.initialBlockSize.toNat

/-- The settings break the rule that an error is about, and the error names the values that break
    it. -/
def Breaks (s : Settings) : SettingsError → Prop
  | .zero name => (name, 0) ∈ s.counts
      ∨ name = "block-size" ∧ s.blockSize = some 0
      ∨ name = "row-conflict-threshold" ∧ s.conflictThreshold = some 0
  | .notPowerOfTwo name value => (name, value) ∈ s.alignedSizes ∧ ∀ k, value.toNat ≠ 2 ^ k
  | .minimumAboveInitial minimum initial =>
      minimum = s.minimumBlockSize ∧ initial = s.initialBlockSize ∧ initial.toNat < minimum.toNat
  | .blockSizeBelowMinimum size minimum =>
      s.blockSize = some size ∧ minimum = s.minimumBlockSize ∧ size.toNat < minimum.toNat
  | .blockSizeAboveHugeBlock size bytes =>
      size = s.initialBlockSize ∧ bytes.toNat = s.pagesPerHugeBlock.toNat * 4096
        ∧ bytes.toNat < size.toNat
  | .invalidOffsets start stop pages =>
      start = s.startPage ∧ stop = s.endPage ∧ pages = s.pagesPerHugeBlock
        ∧ (stop.toNat ≤ start.toNat ∨ pages.toNat < stop.toNat)
  | .errorPercentage percentage =>
      percentage = s.errorPercentage ∧ 100 < percentage.toNat
  | .maskBits bits => bits = s.maxMaskBits ∧ (bits.toNat = 0 ∨ 64 < bits.toNat)
  | .unknownMemoryType _ => False

/-! ## Rules that are kept -/

theorem forall_counts_iff : (∀ entry ∈ s.counts, entry.2.toNat ≠ 0)
    ↔ s.initialHugeBlocks.toNat ≠ 0 ∧ s.pagesPerHugeBlock.toNat ≠ 0 ∧ s.endPage.toNat ≠ 0
      ∧ s.initialBlockSize.toNat ≠ 0 ∧ s.minimumBlockSize.toNat ≠ 0
      ∧ s.calibrationRuns.toNat ≠ 0 ∧ s.sampleSize.toNat ≠ 0 ∧ s.rounds.toNat ≠ 0
      ∧ (s.threads.getD 1).toNat ≠ 0 ∧ s.maxRegroupRounds.toNat ≠ 0 := by
  simp only [counts, List.forall_mem_cons, List.not_mem_nil, false_imp_iff, implies_true, and_true]

/-- A number of threads that was not given is not zero. -/
theorem getD_threads_iff :
    (s.threads.getD 1).toNat ≠ 0 ↔ ∀ n, s.threads = some n → n.toNat ≠ 0 := by
  cases s.threads with
  | none => exact iff_of_true Nat.one_ne_zero fun n h => nomatch h
  | some n => simp only [Option.getD_some, Option.some.injEq, forall_eq']

theorem prepared_iff : s.Prepared ↔ (∀ entry ∈ s.counts, entry.2 ≠ 0)
    ∧ (∀ entry ∈ s.alignedSizes, Word.isPowerOfTwo entry.2 = true)
    ∧ s.minimumBlockSize ≤ s.initialBlockSize := by
  simp only [Word.isPowerOfTwo_iff, UInt64.le_iff_toNat_le, ne_eq, ← UInt64.toNat_inj]
  exact ⟨fun h => ⟨h.counts, h.sizes, h.minimum⟩, fun h => ⟨h.1, h.2.1, h.2.2⟩⟩

theorem Valid.rules (h : s.Valid) : s.Rules := by
  have hprepared := prepared_iff.mpr ⟨h.counts, h.sizes, h.minimum⟩
  obtain ⟨hinitial, hpages, hstop, hsize, hminimum, hruns, hsample, hrounds, hthreads, hregroup⟩ :=
    forall_counts_iff.mp hprepared.counts
  have hfixed : ∀ size, s.blockSize = some size →
      size.toNat ≠ 0 ∧ s.minimumBlockSize.toNat ≤ size.toNat := by
    intro size hsize
    obtain ⟨hne, hle⟩ := h.fixed size hsize
    exact ⟨fun hzero => hne (UInt64.toNat_inj.mp hzero), UInt64.le_iff_toNat_le.mp hle⟩
  have hthreshold : ∀ t, s.conflictThreshold = some t → t.toNat ≠ 0 := by
    intro t ht hzero
    exact h.threshold (ht.trans (congrArg some (UInt64.toNat_inj.mp hzero)))
  have hbits := h.maskBits
  rw [ne_eq, ← UInt32.toNat_inj, UInt32.le_iff_toNat_le] at hbits
  exact ⟨hinitial, hpages, hstop, hsize, hminimum, hruns, hsample, hrounds,
    getD_threads_iff.mp hthreads, hregroup, h.exists_initialBlockSize, h.exists_minimumBlockSize,
    hprepared.minimum, h.initial, hfixed, hthreshold, UInt64.lt_iff_toNat_lt.mp h.start,
    UInt64.le_iff_toNat_le.mp h.stop, UInt64.le_iff_toNat_le.mp h.percentage,
    Nat.one_le_iff_ne_zero.mpr hbits.1, hbits.2⟩

theorem Rules.prepared (h : s.Rules) : s.Prepared where
  counts := forall_counts_iff.mpr ⟨h.initialHugeBlocks, h.pagesPerHugeBlock, h.endPage,
    h.initialBlockSize, h.minimumBlockSize, h.calibrationRuns, h.sampleSize, h.rounds,
    getD_threads_iff.mpr h.threads, h.maxRegroupRounds⟩
  sizes := by
    simp only [alignedSizes, List.forall_mem_cons, List.not_mem_nil, false_imp_iff, implies_true,
      and_true]
    exact ⟨h.initialPower, h.minimumPower⟩
  minimum := h.minimum_le

/-- Settings are valid if they keep the rules and a huge block has a size. -/
theorem Rules.valid (h : s.Rules) (hbytes : s.pagesPerHugeBlock.toNat * 4096 < 2 ^ 64) :
    s.Valid := by
  obtain ⟨hcounts, hsizes, hminimum⟩ := prepared_iff.mp h.prepared
  refine ⟨hcounts, hsizes, hminimum, hbytes, h.initial_le, ?_, ?_, ?_, ?_, ?_, ?_⟩
  · intro size hsize
    obtain ⟨hne, hle⟩ := h.blockSize size hsize
    exact ⟨fun hzero => hne (congrArg UInt64.toNat hzero), UInt64.le_iff_toNat_le.mpr hle⟩
  · intro hzero
    exact h.conflictThreshold 0 hzero rfl
  · exact UInt64.lt_iff_toNat_lt.mpr h.start_lt
  · exact UInt64.le_iff_toNat_le.mpr h.stop_le
  · exact UInt64.le_iff_toNat_le.mpr h.errorPercentage
  · rw [ne_eq, ← UInt32.toNat_inj, UInt32.le_iff_toNat_le]
    exact ⟨Nat.one_le_iff_ne_zero.mp h.maxMaskBits.1, h.maxMaskBits.2⟩

/-! ## Rules that are broken -/

theorem Breaks.not_rules (h : s.Breaks e) : ¬ s.Rules := by
  intro hrules
  cases e with
  | zero name =>
      rcases h with hcount | ⟨-, hsize⟩ | ⟨-, hthreshold⟩
      · exact hrules.prepared.counts _ hcount rfl
      · exact (hrules.blockSize 0 hsize).1 rfl
      · exact hrules.conflictThreshold 0 hthreshold rfl
  | notPowerOfTwo name value =>
      obtain ⟨k, hk⟩ := hrules.prepared.sizes _ h.1
      exact h.2 k hk
  | minimumAboveInitial minimum initial =>
      obtain ⟨rfl, rfl, hlt⟩ := h
      exact Nat.not_le_of_lt hlt hrules.minimum_le
  | blockSizeBelowMinimum size minimum =>
      obtain ⟨hsize, rfl, hlt⟩ := h
      exact Nat.not_le_of_lt hlt (hrules.blockSize size hsize).2
  | blockSizeAboveHugeBlock size bytes =>
      obtain ⟨rfl, hbytes, hlt⟩ := h
      exact Nat.not_le_of_lt (hbytes ▸ hlt) hrules.initial_le
  | invalidOffsets start stop pages =>
      obtain ⟨rfl, rfl, rfl, hstop | hpages⟩ := h
      · exact Nat.not_le_of_lt hrules.start_lt hstop
      · exact Nat.not_le_of_lt hpages hrules.stop_le
  | errorPercentage percentage =>
      obtain ⟨rfl, hlt⟩ := h
      exact Nat.not_le_of_lt hlt hrules.errorPercentage
  | maskBits bits =>
      obtain ⟨rfl, hzero | hlt⟩ := h
      · exact Nat.one_le_iff_ne_zero.mp hrules.maxMaskBits.1 hzero
      · exact Nat.not_le_of_lt hlt hrules.maxMaskBits.2
  | unknownMemoryType text => exact h

theorem breaks_of_zeroCount? (h : s.zeroCount? = some e) : s.Breaks e := by
  obtain ⟨⟨name, value⟩, hfind, rfl⟩ := Option.map_eq_some_iff.mp h
  have hzero := List.find?_some hfind
  obtain rfl : value = 0 := eq_of_beq hzero
  exact Or.inl (List.mem_of_find?_eq_some hfind)

theorem breaks_of_unalignedSize? (h : s.unalignedSize? = some e) : s.Breaks e := by
  obtain ⟨entry, hfind, rfl⟩ := Option.map_eq_some_iff.mp h
  refine ⟨List.mem_of_find?_eq_some hfind, fun k hk => ?_⟩
  have hodd := List.find?_some hfind
  rw [Word.isPowerOfTwo_iff.mpr ⟨k, hk⟩] at hodd
  cases hodd

theorem breaks_of_minimumViolation? (h : s.minimumViolation? = some e) : s.Breaks e := by
  obtain ⟨hlt, ⟨⟩⟩ := Option.ite_none_right_eq_some.mp h
  exact ⟨rfl, rfl, UInt64.lt_iff_toNat_lt.mp hlt⟩

theorem breaks_of_hugeBlockViolation? {bytes : UInt64} (hbytes : s.hugeBlockBytes = .ok bytes)
    (h : s.hugeBlockViolation? bytes = some e) : s.Breaks e := by
  obtain ⟨hlt, ⟨⟩⟩ := Option.ite_none_right_eq_some.mp h
  exact ⟨rfl, Word.toNat_of_mul hbytes, UInt64.lt_iff_toNat_lt.mp hlt⟩

theorem breaks_of_fixedSizeViolation? (h : s.fixedSizeViolation? = some e) : s.Breaks e := by
  rw [fixedSizeViolation?] at h
  split at h
  · cases h
  · next size hsize =>
      split at h
      · next hzero =>
          cases h
          exact Or.inr (Or.inl ⟨rfl, hzero ▸ hsize⟩)
      · obtain ⟨hlt, ⟨⟩⟩ := Option.ite_none_right_eq_some.mp h
        exact ⟨hsize, rfl, UInt64.lt_iff_toNat_lt.mp hlt⟩

theorem breaks_of_thresholdViolation? (h : s.thresholdViolation? = some e) : s.Breaks e := by
  obtain ⟨hzero, ⟨⟩⟩ := Option.ite_none_right_eq_some.mp h
  exact Or.inr (Or.inr ⟨rfl, hzero⟩)

theorem breaks_of_offsetViolation? (h : s.offsetViolation? = some e) : s.Breaks e := by
  obtain ⟨hout, ⟨⟩⟩ := Option.ite_none_right_eq_some.mp h
  rw [UInt64.le_iff_toNat_le, UInt64.lt_iff_toNat_lt] at hout
  exact ⟨rfl, rfl, rfl, hout⟩

theorem breaks_of_percentageViolation? (h : s.percentageViolation? = some e) : s.Breaks e := by
  obtain ⟨hlt, ⟨⟩⟩ := Option.ite_none_right_eq_some.mp h
  exact ⟨rfl, UInt64.lt_iff_toNat_lt.mp hlt⟩

theorem breaks_of_maskBitsViolation? (h : s.maskBitsViolation? = some e) : s.Breaks e := by
  obtain ⟨hout, ⟨⟩⟩ := Option.ite_none_right_eq_some.mp h
  rw [← UInt32.toNat_inj, UInt32.lt_iff_toNat_lt] at hout
  exact ⟨rfl, hout⟩

/-! ## Validation -/

/-- The rules behind the size of a huge block: the first broken one is reported. -/
theorem breaks_of_laterViolation {bytes : UInt64} (hbytes : s.hugeBlockBytes = .ok bytes)
    (h : (s.hugeBlockViolation? bytes <|> s.fixedSizeViolation? <|> s.thresholdViolation?
      <|> s.offsetViolation? <|> s.percentageViolation? <|> s.maskBitsViolation?) = some e) :
    s.Breaks e := by
  simp only [Option.orElse_eq_some] at h
  rcases h with h | ⟨-, h | ⟨-, h | ⟨-, h | ⟨-, h | ⟨-, h⟩⟩⟩⟩⟩
  · exact breaks_of_hugeBlockViolation? hbytes h
  · exact breaks_of_fixedSizeViolation? h
  · exact breaks_of_thresholdViolation? h
  · exact breaks_of_offsetViolation? h
  · exact breaks_of_percentageViolation? h
  · exact breaks_of_maskBitsViolation? h

/-- **CASES**: a broken rule is reported, or all rules are kept, unless a huge block that needs
    more than a word comes in between. -/
theorem firstViolation_cases (s : Settings) :
    (∃ e, s.firstViolation = .ok (some e) ∧ s.Breaks e)
      ∨ s.firstViolation = .ok none
      ∨ s.firstViolation = .error .productOverflow ∧ s.Prepared
        ∧ 2 ^ 64 ≤ s.pagesPerHugeBlock.toNat * 4096 := by
  rw [firstViolation]
  split
  · next e he =>
      refine Or.inl ⟨e, rfl, ?_⟩
      simp only [Option.orElse_eq_some] at he
      rcases he with h | ⟨-, h | ⟨-, h⟩⟩
      · exact breaks_of_zeroCount? h
      · exact breaks_of_unalignedSize? h
      · exact breaks_of_minimumViolation? h
  · next hnone =>
      rw [Option.orElse_eq_none, Option.orElse_eq_none, zeroCount?_eq_none,
        unalignedSize?_eq_none, minimumViolation?_eq_none] at hnone
      by_cases hlt : s.pagesPerHugeBlock.toNat * 4096 < UInt64.size
      · obtain ⟨bytes, hbytes, -⟩ := Page.exists_bytes hlt
        have hhuge : s.hugeBlockBytes = .ok bytes := hbytes
        rw [hhuge, Except.map]
        cases hlater : s.hugeBlockViolation? bytes <|> s.fixedSizeViolation?
            <|> s.thresholdViolation? <|> s.offsetViolation? <|> s.percentageViolation?
            <|> s.maskBitsViolation? with
        | none => exact Or.inr (Or.inl rfl)
        | some e => exact Or.inl ⟨e, rfl, breaks_of_laterViolation hhuge hlater⟩
      · have hhuge : s.hugeBlockBytes = .error .productOverflow := if_neg hlt
        rw [hhuge]
        exact Or.inr (Or.inr ⟨rfl, prepared_iff.mpr hnone, Nat.le_of_not_lt hlt⟩)

/-- A huge block that needs more than a word is a fault as soon as it is looked at. -/
theorem firstViolation_of_vast (hprepared : s.Prepared)
    (hvast : 2 ^ 64 ≤ s.pagesPerHugeBlock.toNat * 4096) :
    s.firstViolation = .error .productOverflow := by
  obtain ⟨hcounts, hsizes, hminimum⟩ := prepared_iff.mp hprepared
  have hhuge : s.hugeBlockBytes = .error .productOverflow := if_neg (Nat.not_lt_of_le hvast)
  rw [firstViolation, zeroCount?_eq_none.mpr hcounts, unalignedSize?_eq_none.mpr hsizes,
    minimumViolation?_eq_none.mpr hminimum, hhuge]
  rfl

/-- **VALIDATION** ends for all settings.  It accepts them exactly if they keep all rules and the
    size of a huge block fits into a word, and then the sizes up to the first and the last
    classified page fit as well.  An error that it reports is about a rule that the settings
    break, and names what breaks it.  The only other end is a fault, exactly if the size of a
    huge block does not fit and the rules that are looked at before it are kept. -/
theorem firstViolation_exact (s : Settings) :
    (s.firstViolation = .ok none ↔ s.Rules ∧ s.pagesPerHugeBlock.toNat * 4096 < 2 ^ 64)
      ∧ (s.firstViolation = .ok none →
          s.startPage.toNat * 4096 < 2 ^ 64 ∧ s.endPage.toNat * 4096 < 2 ^ 64)
      ∧ (∀ e, s.firstViolation = .ok (some e) → s.Breaks e ∧ ¬ s.Rules)
      ∧ (∀ f, s.firstViolation = .error f ↔ f = .productOverflow ∧ s.Prepared
          ∧ 2 ^ 64 ≤ s.pagesPerHugeBlock.toNat * 4096) := by
  have hcases := firstViolation_cases s
  have hvalid : s.firstViolation = .ok none
      ↔ s.Rules ∧ s.pagesPerHugeBlock.toNat * 4096 < 2 ^ 64 := by
    rw [firstViolation_eq_none_iff]
    exact ⟨fun h => ⟨h.rules, h.bytes⟩, fun h => h.1.valid h.2⟩
  refine ⟨hvalid, ?_, ?_, ?_⟩
  · intro hnone
    obtain ⟨hrules, hbytes⟩ := hvalid.mp hnone
    have hstart := hrules.start_lt
    have hstop := hrules.stop_le
    omega
  · intro e he
    rcases hcases with ⟨e', he', hbreaks⟩ | hnone | ⟨hfault, -⟩
    · cases he.symm.trans he'
      exact ⟨hbreaks, hbreaks.not_rules⟩
    · cases he.symm.trans hnone
    · cases he.symm.trans hfault
  · intro f
    constructor
    · intro hf
      rcases hcases with ⟨e, he, -⟩ | hnone | ⟨hfault, hprepared, hvast⟩
      · cases hf.symm.trans he
      · cases hf.symm.trans hnone
      · cases hf.symm.trans hfault
        exact ⟨rfl, hprepared, hvast⟩
    · rintro ⟨rfl, hprepared, hvast⟩
      exact firstViolation_of_vast hprepared hvast

/-- A huge block of 2 ^ 52 pages, whose first page that is classified is the last one as well. -/
def vastBlock : Settings := { pagesPerHugeBlock := 4503599627370496, startPage := 512 }

/-- The empty range of pages breaks a rule, but the size of the block is a fault. -/
theorem firstViolation_of_vast_block :
    vastBlock.Breaks (.invalidOffsets 512 512 4503599627370496)
      ∧ vastBlock.firstViolation = .error .productOverflow
      ∧ ∀ r, vastBlock.firstViolation ≠ .ok r :=
  ⟨⟨rfl, rfl, rfl, Or.inl (Nat.le_refl _)⟩, rfl, fun _ h => nomatch h⟩

end DramBanks.Settings
