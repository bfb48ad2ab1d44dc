import DramBanks.Proofs.Calibration.Gap
import DramBanks.Proofs.Classifier.NoiseFree
/-!
# Calibration of two clear clusters

    A probe SEPARATES banks if its latencies are in one bin for addresses in
    one bank, and in another one, at least three bins below, for all others.
    The latencies of a block that has pages of both kinds then fill these
    two bins and no others (`TwoBins`), so there is exactly one gap, and
    every run gives the middle of it.

    That is why calibration finds the same threshold whatever the latencies
    inside of the bins are, and the threshold tells which addresses share a
    bank (`conflictThreshold_separates`). -/

namespace DramBanks.Calibration

/-! ## Probes that separate banks -/

variable {σ β : Type} {p : Probe σ} {bank : Address → β} {fast slow : Nat} {base : Address}

/-- Latencies are in bin `slow` for addresses in one bank, and in bin `fast` for others. -/
structure Separates (p : Probe σ) (bank : Address → β) (fast slow : Nat) : Prop where
  apart : fast + 3 ≤ slow
  same : ∀ q s, bank q.known = bank q.candidate → (p.measure q s).1.toNat / binWidth = slow
  other : ∀ q s, bank q.known ≠ bank q.candidate → (p.measure q s).1.toNat / binWidth = fast

/-- The page at position `i` of the block at `base`. -/
def pageAt (base : Address) (i : Nat) : Address := base + UInt64.ofNat (i * 4096)

/-- How many pages of the block at `base` are in the bank of its first one. -/
def conflicting [DecidableEq β] (bank : Address → β) (base : Address) (pages : Nat) : Nat :=
  (List.range pages).countP fun i => bank base = bank (pageAt base i)

/-- The pages of the block at `base` have addresses; more than two are in the bank of the first
    one, and some are not. -/
structure Mixed [DecidableEq β] (bank : Address → β) (base : Address) (pages : Nat) : Prop where
  room : base.toNat + (pages - 1) * 4096 < 2 ^ 64
  same : 2 < conflicting bank base pages
  other : ∃ i < pages, bank (pageAt base i) ≠ bank base

theorem Mixed.single_eq [DecidableEq β] {pages : Nat} (h : Mixed bank base pages) (p : Probe σ)
    (rounds : UInt64) (fenced : Bool) (s : σ) : singleThreshold p base pages rounds fenced s
      = (thresholdOf (measured p base pages rounds fenced s)).map fun threshold =>
          (threshold, (timePages p base rounds fenced pages 0 [] s).2) := by
  obtain ⟨i, hi, -⟩ := h.other
  exact singleThreshold_eq p rounds fenced s (Nat.ne_zero_of_lt hi) h.room

section Separates

variable [DecidableEq β] (h : Separates p bank fast slow) {pages : Nat}
include h

/-- **RUN**: the bins of timed pages. -/
theorem Separates.binsOf_timePages (rounds : UInt64) (fenced : Bool) (left page : Nat)
    (times : List Latency) (s : σ) :
    binsOf (timePages p base rounds fenced left page times s).1
      = ((List.range' page left).map fun i =>
          if bank base = bank (pageAt base i) then slow else fast).reverse ++ binsOf times := by
  induction left generalizing page times s with
  | zero => rfl
  | succ left ih =>
      have hbin : (p.measure ⟨base, pageAt base page, rounds, fenced⟩ s).1.toNat / binWidth
          = if bank base = bank (pageAt base page) then slow else fast := by
        split
        · next heq => exact h.same ⟨base, _, rounds, fenced⟩ s heq
        · next hne => exact h.other ⟨base, _, rounds, fenced⟩ s hne
      rw [timePages, ih, List.range'_succ, List.map_cons, List.reverse_cons, List.append_assoc,
        ← hbin]
      rfl

/-- A run over a mixed block fills the two bins. -/
theorem Separates.twoBins (hblock : Mixed bank base pages) (rounds : UInt64) (fenced : Bool)
    (s : σ) : TwoBins (measured p base pages rounds fenced s) fast slow := by
  have hbins : binsOf (measured p base pages rounds fenced s)
      = ((List.range pages).map fun i =>
          if bank base = bank (pageAt base i) then slow else fast).reverse := by
    rw [measured, h.binsOf_timePages, List.range_eq_range']
    exact List.append_nil _
  refine ⟨h.apart, ?_, ?_, ?_⟩
  · obtain ⟨i, hi, hne⟩ := hblock.other
    rw [population, hbins, List.count_pos_iff, List.mem_reverse, List.mem_map]
    exact ⟨i, List.mem_range.mpr hi, if_neg fun heq => hne heq.symm⟩
  · have hapart := h.apart
    have hcount : population (measured p base pages rounds fenced s) slow
        = conflicting bank base pages := by
      rw [population, hbins, List.count_reverse, List.count_eq_countP, List.countP_map, conflicting]
      refine List.countP_congr fun i _ => ?_
      simp only [Function.comp_apply, beq_iff_eq, decide_eq_true_eq]
      split
      · next heq => exact iff_of_true rfl heq
      · next hne => exact iff_of_false (by omega) hne
    rw [Dense, hcount]
    exact hblock.same
  · intro bin hpos
    rw [population, hbins, List.count_pos_iff, List.mem_reverse, List.mem_map] at hpos
    obtain ⟨i, -, rfl⟩ := hpos
    split
    · exact Or.inr rfl
    · exact Or.inl rfl

/-- Every run gives the same threshold, in whatever state the probe is. -/
theorem Separates.exists_single (hblock : Mixed bank base pages) (hspan : slow - fast + 1 < 2 ^ 60)
    (rounds : UInt64) (fenced : Bool) (s : σ) :
    ∃ t, t.toNat = (fast + slow) / 2 * binWidth
      ∧ ∀ s, ∃ s', singleThreshold p base pages rounds fenced s = .ok (some t, s') := by
  obtain ⟨t, -, ht⟩ := (h.twoBins hblock rounds fenced s).exists_threshold hspan
  refine ⟨t, ht, fun s => ⟨(timePages p base rounds fenced pages 0 [] s).2, ?_⟩⟩
  obtain ⟨t', hrun, ht'⟩ := (h.twoBins hblock rounds fenced s).exists_threshold hspan
  obtain rfl : t = t' := UInt64.toNat_inj.mp (ht.trans ht'.symm)
  rw [hblock.single_eq, hrun]
  rfl

theorem Separates.single_error (hblock : Mixed bank base pages) (hspan : 2 ^ 60 ≤ slow - fast + 1)
    (rounds : UInt64) (fenced : Bool) (s : σ) :
    singleThreshold p base pages rounds fenced s = .error .capacity := by
  rw [hblock.single_eq, (h.twoBins hblock rounds fenced s).thresholdOf_error hspan]
  rfl

/-- The middle of the two bins tells which addresses share a bank. -/
theorem Separates.le_iff {t : Latency} (ht : t.toNat = (fast + slow) / 2 * binWidth) (q : Query)
    (s : σ) : t ≤ (p.measure q s).1 ↔ bank q.known = bank q.candidate := by
  have hapart := h.apart
  rw [UInt64.le_iff_toNat_le, ht, ← Nat.le_div_iff_mul_le (by decide)]
  by_cases heq : bank q.known = bank q.candidate
  · rw [h.same q s heq]
    exact iff_of_true (by omega) heq
  · rw [h.other q s heq]
    exact iff_of_false (by omega) heq

end Separates

/-! ## Several runs -/

variable {settings : Settings}

/-- **RUN**: runs that all give one threshold give it as often as they are made. -/
theorem runs_eq_replicate {t : Latency}
    (hsingle : ∀ s, ∃ s', singleThreshold p base settings.pagesPerHugeBlock.toNat settings.rounds
      settings.fenced s = .ok (some t, s')) (left done : Nat) (r : Runs σ) (s : σ) :
    ∃ s', runs p settings base left done r s
      = .ok (⟨List.replicate left t ++ r.thresholds, r.warnings⟩, s') := by
  induction left generalizing done r s with
  | zero => exact ⟨s, rfl⟩
  | succ left ih =>
      obtain ⟨s₁, hfirst⟩ := hsingle s
      obtain ⟨s₂, hrest⟩ := ih (done + 1) { r with thresholds := t :: r.thresholds } s₁
      refine ⟨s₂, ?_⟩
      rw [runs, hfirst]
      refine hrest.trans ?_
      rw [List.replicate_succ', List.append_assoc]
      rfl

/-- **CALIBRATION**: a probe that separates banks, over a block with more than two pages in the bank
    of the first one and some in others, is calibrated to the middle of the two bins, whatever
    the latencies in them are, and every timing reaches this threshold exactly for addresses
    that share a bank.  Only a list of thresholds or a histogram that is larger than the address
    space stands against it. -/
theorem conflictThreshold_separates [DecidableEq β] (h : Separates p bank fast slow)
    (hblock : Mixed bank base settings.pagesPerHugeBlock.toNat)
    (hruns : 1 ≤ settings.calibrationRuns) (s : σ) :
    (settings.calibrationRuns.toNat < 2 ^ 60 ∧ slow - fast + 1 < 2 ^ 60 →
        ∃ t s', conflictThreshold p settings base s = .ok (some t, [], s')
          ∧ t.toNat = ((slow - fast) / 2 + fast) * binWidth
          ∧ ∀ q s, t ≤ (p.measure q s).1 ↔ bank q.known = bank q.candidate)
      ∧ (2 ^ 60 ≤ settings.calibrationRuns.toNat ∨ 2 ^ 60 ≤ slow - fast + 1 →
        conflictThreshold p settings base s = .error .capacity) := by
  have hruns' : settings.calibrationRuns.toNat ≠ 0 :=
    Nat.one_le_iff_ne_zero.mp (UInt64.le_iff_toNat_le.mp hruns)
  constructor
  · rintro ⟨hcapacity, hspan⟩
    obtain ⟨t, ht, hsingle⟩ :=
      h.exists_single hblock hspan settings.rounds settings.fenced s
    obtain ⟨s', hall⟩ := runs_eq_replicate hsingle settings.calibrationRuns.toNat 0 ⟨[], []⟩ s
    refine ⟨t, s', ?_, ?_, h.le_iff ht⟩
    · rw [conflictThreshold, if_neg (show ¬ 1 <<< 60 ≤ _ from Nat.not_le_of_lt hcapacity), hall]
      simp only [Except.map, List.append_nil, median_replicate hruns']
    · have hapart := h.apart
      rw [ht, show (fast + slow) / 2 = (slow - fast) / 2 + fast by omega]
  · intro hlarge
    rw [conflictThreshold]
    split
    · rfl
    · next hcapacity =>
        obtain ⟨left, hleft⟩ := Nat.exists_eq_succ_of_ne_zero hruns'
        rw [hleft, runs, h.single_error hblock (hlarge.resolve_left hcapacity)]
        rfl

theorem separates_simulated (settings : Settings) (ms : List Mask) :
    Separates (Bench.simulated settings ms).probe (parities ms) 10 20 := by
  have hnoise : (Bench.simulated {} ms).NoiseFree (parities ms) :=
    Bench.noiseFree_simulated (by decide) ms
  have hiff : ∀ q s, 150 ≤ ((Bench.simulated settings ms).probe.measure q s).1
      ↔ parities ms q.known = parities ms q.candidate := hnoise.measure_iff
  refine ⟨by decide, fun q s hsame => ?_, fun q s hother => ?_⟩
  · have hslow := (hiff q s).mpr hsame
    rw [Bench.measure_simulated] at hslow ⊢
    split at hslow
    · rw [if_pos ‹_›]
      rfl
    · exact absurd hslow (by decide)
  · have hfast := mt (hiff q s).mp hother
    rw [Bench.measure_simulated] at hfast ⊢
    split at hfast
    · exact absurd (by decide) hfast
    · rw [if_neg ‹_›]
      rfl

/-- Five pages, two of which are in another bank than the first one, and a number of runs. -/
def fivePages (runs : UInt64) : Settings :=
  { pagesPerHugeBlock := 5, endPage := 5, calibrationRuns := runs }

theorem mixed_fivePages : Mixed (parities [8192]) 0 5 :=
  ⟨by decide, by decide, 2, by decide, by decide⟩

theorem conflictThreshold_separates_five_pages :
    ∃ t s', conflictThreshold (Bench.simulated (fivePages 3) [8192]).probe (fivePages 3) 0 0
        = .ok (some t, [], s')
      ∧ t.toNat = ((20 - 10) / 2 + 10) * binWidth
      ∧ ∀ q s, t ≤ ((Bench.simulated (fivePages 3) [8192]).probe.measure q s).1
          ↔ parities [8192] q.known = parities [8192] q.candidate := by
  have hblock : Mixed (parities [8192]) 0 (fivePages 3).pagesPerHugeBlock.toNat := mixed_fivePages
  have hcalibrated :=
    conflictThreshold_separates (separates_simulated (fivePages 3) [8192]) hblock (by decide) 0
  exact hcalibrated.1 ⟨by decide, by decide⟩

/-- A list of 2 ^ 60 thresholds does not fit into the address space. -/
theorem conflictThreshold_of_too_many_runs :
    (fivePages 1152921504606846976).firstViolation = .ok none
      ∧ Separates (Bench.simulated {} [8192]).probe (parities [8192]) 10 20
      ∧ Mixed (parities [8192]) 0 (fivePages 1152921504606846976).pagesPerHugeBlock.toNat
      ∧ conflictThreshold (Bench.simulated {} [8192]).probe (fivePages 1152921504606846976) 0 0
          = .error .capacity :=
  ⟨by decide, separates_simulated _ _, mixed_fivePages, rfl⟩

end DramBanks.Calibration
