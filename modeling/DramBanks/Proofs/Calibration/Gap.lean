import DramBanks.Calibration
import DramBanks.Probe.Simulated
import DramBanks.Proofs.Mode
import Mathlib.Algebra.Group.Nat.Defs
import Mathlib.Data.List.Count
/-!
# The gap that a threshold lies in

    Latencies are counted in bins, and a bin with more than two of them is
    DENSE.  A GAP ends at a dense bin that is more than two bins above the
    previous one, with three quarters of all latencies met.  Where no dense
    bin comes before, the lowest bin takes its place, however few latencies
    it holds (`Previous`).

    The walk over the bins stops at the first gap (`firstGap_gap?`).  So a
    threshold has a dense bin at or above it and an occupied one below it,
    and the latter is dense unless no dense bin comes before the gap
    (`singleThreshold_between`). -/

namespace DramBanks.Calibration

variable {times : List Latency} {n low below above : Nat}

/-! ## Bins -/

/-- The bins of latencies. -/
def binsOf (times : List Latency) : List Nat := times.map fun t => t.toNat / binWidth

/-- How many latencies are in a bin. -/
def population (times : List Latency) (bin : Nat) : Nat := (binsOf times).count bin

def Dense (times : List Latency) (bin : Nat) : Prop := 2 < population times bin

/-- How many latencies are in bins before bin `n`. -/
def met (times : List Latency) (n : Nat) : Nat := (binsOf times).countP fun bin => bin < n

/-- The bins with latencies, in ascending order. -/
def occupied (times : List Latency) : List Nat :=
  ((binsOf times).mergeSort fun a b => decide (a ≤ b)).dedup

theorem population_pos_iff {bin : Nat} :
    0 < population times bin ↔ ∃ t ∈ times, t.toNat / binWidth = bin := by
  rw [population, List.count_pos_iff, binsOf, List.mem_map]

theorem mem_occupied {bin : Nat} : bin ∈ occupied times ↔ 0 < population times bin := by
  rw [occupied, List.mem_dedup, List.mem_mergeSort, population, List.count_pos_iff]

theorem pairwise_occupied (times : List Latency) : (occupied times).Pairwise (· < ·) :=
  RunLength.pairwise_dedup (List.pairwise_mergeSort' (· ≤ ·) _)

theorem histogram_eq (times : List Latency) :
    histogram times = (occupied times).map fun bin => (bin, population times bin) := by
  rw [histogram, RunLength.encode_eq (List.pairwise_mergeSort' (· ≤ ·) _)]
  exact List.map_congr_left fun bin _ => congrArg (Prod.mk bin)
    ((List.mergeSort_perm (binsOf times) _).count_eq bin)

/-- Behind empty bins, the latencies of the next one are met. -/
theorem met_succ {bin : Nat} (hle : n ≤ bin)
    (hempty : ∀ k, n ≤ k → k < bin → population times k = 0) :
    met times n + population times bin = met times (bin + 1) := by
  have hnone : ∀ k ∈ binsOf times, n ≤ k → bin ≤ k := by
    intro k hk hnk
    by_contra hlt
    have hzero := hempty k hnk (Nat.lt_of_not_le hlt)
    exact List.count_eq_zero.mp hzero hk
  rw [met, met, population]
  generalize binsOf times = l at hnone
  induction l with
  | nil => rfl
  | cons k rest ih =>
      obtain ⟨hk, hrest⟩ := List.forall_mem_cons.mp hnone
      have hone : (if k < n then 1 else 0) + (if k = bin then 1 else 0)
          = if k < bin + 1 then 1 else 0 := by
        split_ifs <;> omega
      rw [List.countP_cons, List.countP_cons, List.count_cons, ← ih hrest]
      simp only [beq_iff_eq, decide_eq_true_eq]
      omega

/-! ## Gaps -/

/-- The lowest bin with latencies. -/
def IsLowest (times : List Latency) (bin : Nat) : Prop :=
  0 < population times bin ∧ ∀ t ∈ times, bin ≤ t.toNat / binWidth

/-- What counts as the bin before bin `n`: the last dense one, or the lowest one if none of them
    is dense. -/
def Previous (times : List Latency) (n below : Nat) : Prop :=
  (Dense times below ∧ below < n ∧ ∀ k, below < k → k < n → ¬ Dense times k)
    ∨ (IsLowest times below ∧ ∀ k < n, ¬ Dense times k)

theorem Previous.unique {bin : Nat} (h : Previous times n below) (h' : Previous times n bin) :
    below = bin := by
  rcases h with ⟨hdense, hlt, hlast⟩ | ⟨⟨hpos, hlow⟩, hnone⟩
  · rcases h' with ⟨hdense', hlt', hlast'⟩ | ⟨-, hnone'⟩
    · rcases Nat.lt_trichotomy below bin with h | h | h
      · exact absurd hdense' (hlast bin h hlt')
      · exact h
      · exact absurd hdense (hlast' below h hlt)
    · exact absurd hdense (hnone' below hlt)
  · rcases h' with ⟨hdense', hlt', -⟩ | ⟨⟨hpos', hlow'⟩, -⟩
    · exact absurd hdense' (hnone bin hlt')
    · obtain ⟨t, ht, rfl⟩ := population_pos_iff.mp hpos
      obtain ⟨t', ht', rfl⟩ := population_pos_iff.mp hpos'
      exact Nat.le_antisymm (hlow t' ht') (hlow' t ht)

theorem Previous.pos (h : Previous times n below) : 0 < population times below := by
  rcases h with ⟨hdense, -⟩ | ⟨⟨hpos, -⟩, -⟩
  · exact Nat.zero_lt_of_lt hdense
  · exact hpos

/-- Bins that are not dense may be skipped. -/
theorem Previous.skip {m : Nat} (h : Previous times n below) (hle : n ≤ m)
    (hsparse : ∀ k, n ≤ k → k < m → ¬ Dense times k) : Previous times m below := by
  have hbetween : ∀ k < m, (k < n → ¬ Dense times k) → ¬ Dense times k := by
    intro k hk hbefore
    by_cases hkn : k < n
    · exact hbefore hkn
    · exact hsparse k (Nat.le_of_not_lt hkn) hk
  rcases h with ⟨hdense, hlt, hlast⟩ | ⟨hlow, hnone⟩
  · exact Or.inl ⟨hdense, Nat.lt_of_lt_of_le hlt hle, fun k hk hkm => hbetween k hkm (hlast k hk)⟩
  · exact Or.inr ⟨hlow, fun k hkm => hbetween k hkm (hnone k)⟩

theorem Previous.succ {bin : Nat} (hdense : Dense times bin) : Previous times (bin + 1) bin :=
  Or.inl ⟨hdense, Nat.lt_succ_self bin,
    fun _ hk hlt => absurd hk (Nat.not_lt_of_le (Nat.le_of_lt_succ hlt))⟩

/-- A gap from what counts as the bin before it up to a dense bin. -/
structure Gap (times : List Latency) (below above : Nat) : Prop where
  dense : Dense times above
  previous : Previous times above below
  apart : below + 2 < above
  bulk : times.length * 3 / 4 ≤ met times (above + 1)

/-- What is found from bin `n` on: the middle of the first gap, or nothing if there is no gap. -/
def FirstGap (times : List Latency) (n : Nat) : Option Nat → Prop
  | none => ∀ below above, Gap times below above → above < n
  | some middle => ∃ below above, Gap times below above ∧ n ≤ above
      ∧ (∀ below' above', Gap times below' above' → n ≤ above' → above ≤ above')
      ∧ middle = (below + above) / 2

/-- The middle of a gap is not bin 0, and it begins no later than some of the latencies. -/
theorem FirstGap.bounds {middle : Nat} (h : FirstGap times n (some middle)) :
    0 < middle ∧ ∃ t ∈ times, middle * binWidth ≤ t.toNat := by
  obtain ⟨below, above, hgap, -, -, hmiddle⟩ := h
  obtain ⟨t, ht, habove⟩ := population_pos_iff.mp (Nat.zero_lt_of_lt hgap.dense)
  have hapart := hgap.apart
  refine ⟨by omega, t, ht, ?_⟩
  have hle : middle * binWidth ≤ t.toNat / binWidth * binWidth :=
    Nat.mul_le_mul_right _ (by omega)
  exact Nat.le_trans hle (Nat.div_mul_le_self _ _)

/-- Bins where no gap ends may be skipped. -/
theorem FirstGap.skip {m : Nat} {r : Option Nat} (h : FirstGap times m r) (hle : n ≤ m)
    (hnone : ∀ below above, Gap times below above → n ≤ above → m ≤ above) :
    FirstGap times n r := by
  cases r with
  | none =>
      intro below above hgap
      by_contra hge
      exact Nat.lt_irrefl above (Nat.lt_of_lt_of_le (h below above hgap)
        (hnone below above hgap (Nat.le_of_not_lt hge)))
  | some middle =>
      obtain ⟨below, above, hgap, hge, hfirst, heq⟩ := h
      exact ⟨below, above, hgap, Nat.le_trans hle hge,
        fun b a hgap' hna => hfirst b a hgap' (hnone b a hgap' hna), heq⟩

/-! ## The walk -/

/-- The occupied bins from bin `n` on, in ascending order. -/
structure Remaining (times : List Latency) (n : Nat) (rest : List Nat) : Prop where
  ascending : rest.Pairwise (· < ·)
  mem_iff : ∀ bin, bin ∈ rest ↔ n ≤ bin ∧ 0 < population times bin

theorem remaining_occupied (times : List Latency) : Remaining times 0 (occupied times) :=
  ⟨pairwise_occupied times, fun bin => mem_occupied.trans (iff_and_self.mpr fun _ => bin.zero_le)⟩

section Cons

variable {bin : Nat} {rest : List Nat} (h : Remaining times n (bin :: rest))
include h

theorem Remaining.head : n ≤ bin ∧ 0 < population times bin :=
  (h.mem_iff bin).mp (List.mem_cons_self ..)

/-- The bins before the first one that is left are empty. -/
theorem Remaining.empty {k : Nat} (hn : n ≤ k) (hk : k < bin) : population times k = 0 := by
  by_contra hne
  rcases List.mem_cons.mp ((h.mem_iff k).mpr ⟨hn, Nat.pos_of_ne_zero hne⟩) with rfl | hmem
  · exact Nat.lt_irrefl _ hk
  · exact Nat.lt_irrefl _ (Nat.lt_trans hk (List.rel_of_pairwise_cons h.ascending hmem))

theorem Remaining.tail : Remaining times (bin + 1) rest := by
  obtain ⟨hbin, hasc⟩ := List.pairwise_cons.mp h.ascending
  refine ⟨hasc, fun k => ⟨fun hk => ?_, ?_⟩⟩
  · exact ⟨hbin k hk, ((h.mem_iff k).mp (List.mem_cons_of_mem _ hk)).2⟩
  · rintro ⟨hlt, hpos⟩
    have hn : n ≤ k := Nat.le_trans h.head.1 (Nat.le_of_succ_le hlt)
    exact (List.mem_cons.mp ((h.mem_iff k).mpr ⟨hn, hpos⟩)).resolve_left (Nat.ne_of_gt hlt)

/-- A gap from bin `n` on ends at the first bin that is left or behind it. -/
theorem Remaining.le_of_gap (hgap : Gap times below above) (hn : n ≤ above) : bin ≤ above := by
  by_contra hlt
  have hdense := hgap.dense
  rw [Dense, h.empty hn (Nat.lt_of_not_le hlt)] at hdense
  exact Nat.not_lt_zero 2 hdense

theorem Remaining.previous (hprevious : Previous times n below) : Previous times bin below := by
  refine hprevious.skip h.head.1 fun k hn hk hdense => ?_
  rw [Dense, h.empty hn hk] at hdense
  exact Nat.not_lt_zero 2 hdense

/-- If no gap ends at the first bin that is left, the first gap is behind it. -/
theorem Remaining.skip {r : Option Nat} (hprevious : Previous times n below)
    (hnot : ¬ Gap times below bin) (hfirst : FirstGap times (bin + 1) r) : FirstGap times n r := by
  refine hfirst.skip (Nat.le_succ_of_le h.head.1) fun b a hgap hn => ?_
  refine Nat.lt_of_le_of_ne (h.le_of_gap hgap hn) ?_
  rintro rfl
  exact hnot ((h.previous hprevious).unique hgap.previous ▸ hgap)

end Cons

/-- **RUN**: from bin `n` on, the walk finds the first gap. -/
theorem firstGap_gap? {rest : List Nat} (hrest : Remaining times n rest)
    (hlow : IsLowest times low) (hprevious : Previous times n below) :
    FirstGap times n (gap? times.length low (rest.map fun bin => (bin, population times bin))
      (below - low) (met times n)) := by
  have hlowest : ∀ {k}, 0 < population times k → low ≤ k := by
    intro k hk
    obtain ⟨t, ht, rfl⟩ := population_pos_iff.mp hk
    exact hlow.2 t ht
  -- along the walk, `below` is what counts as the bin before all that are left
  induction rest generalizing n below with
  | nil =>
      intro b a hgap
      by_contra hge
      exact List.not_mem_nil ((hrest.mem_iff a).mpr
        ⟨Nat.le_of_not_lt hge, Nat.zero_lt_of_lt hgap.dense⟩)
  | cons bin rest ih =>
      obtain ⟨hn, hpos⟩ := hrest.head
      have hhere := hrest.previous hprevious
      rw [List.map_cons, gap?, met_succ hn fun k => hrest.empty]
      split
      · next hsparse =>
          have hnotdense : ¬ Dense times bin := Nat.not_lt_of_le hsparse
          have hnext : Previous times (bin + 1) below := by
            refine hhere.skip (Nat.le_succ bin) fun k hk hlt => ?_
            rwa [Nat.le_antisymm (Nat.le_of_lt_succ hlt) hk]
          exact hrest.skip hprevious (fun hgap => hnotdense hgap.dense) (ih hrest.tail hnext)
      · next hmany =>
          have hdense : Dense times bin := Nat.lt_of_not_le hmany
          have hbelow := hlowest hhere.pos
          have habove := hlowest hpos
          split
          · next hfound =>
              have hgap : Gap times below bin := ⟨hdense, hhere, by omega, hfound.2⟩
              refine ⟨below, bin, hgap, hn, fun b a => hrest.le_of_gap, ?_⟩
              rw [middle]
              omega
          · next hno =>
              -- the bin ends no gap, but is the one before the next bins
              refine hrest.skip hprevious (fun hgap => hno ⟨?_, hgap.bulk⟩)
                (ih hrest.tail (.succ hdense))
              have hapart := hgap.apart
              omega

/-- The walk over the whole histogram finds the first gap of all. -/
theorem firstGap_histogram (times : List Latency) :
    FirstGap times 0 (gap? times.length ((histogram times).headD (0, 0)).1 (histogram times) 0 0) := by
  have hall := remaining_occupied times
  have hmet : met times 0 = 0 := List.countP_eq_zero.mpr fun k _ => by simp
  rw [histogram_eq]
  cases hcases : occupied times with
  | nil =>
      rw [hcases] at hall
      intro b a hgap
      exact absurd ((hall.mem_iff a).mpr ⟨a.zero_le, Nat.zero_lt_of_lt hgap.dense⟩)
        List.not_mem_nil
  | cons low rest =>
      rw [hcases] at hall
      have hlow : IsLowest times low := by
        refine ⟨hall.head.2, fun t ht => ?_⟩
        by_contra hlt
        have hpos := population_pos_iff.mpr ⟨t, ht, rfl⟩
        rw [hall.empty (Nat.zero_le _) (Nat.lt_of_not_le hlt)] at hpos
        exact Nat.lt_irrefl 0 hpos
      have hstart : Previous times 0 low := Or.inr ⟨hlow, fun k hk => absurd hk k.not_lt_zero⟩
      have hwalk := firstGap_gap? hall hlow hstart
      rw [Nat.sub_self, hmet] at hwalk
      exact hwalk

/-! ## Thresholds -/

theorem latencyOfBin_ok {bin : Nat} (h : bin * binWidth < 2 ^ 64) :
    ∃ t, latencyOfBin bin = .ok t ∧ t.toNat = bin * binWidth := by
  have hbin : (UInt64.ofNat bin).toNat = bin :=
    UInt64.toNat_ofNat_of_lt' (Nat.lt_of_le_of_lt (Nat.le_mul_of_pos_right bin (by decide)) h)
  have hwidth : (UInt64.ofNat binWidth).toNat = binWidth := rfl
  have hmul : latencyOfBin bin = .ok (UInt64.ofNat bin * UInt64.ofNat binWidth) := by
    refine Word.mul_of_lt ?_
    rwa [hbin, hwidth]
  refine ⟨_, hmul, ?_⟩
  rw [Word.toNat_of_mul hmul, hbin, hwidth]

/-- **THRESHOLD**: latencies suggest the beginning of the bin in the middle of the first gap, as
    long as their histogram fits into the address space. -/
theorem thresholdOf_cases (times : List Latency) :
    (binSpan (histogram times) < 2 ^ 60 ∧ ∃ threshold gap, thresholdOf times = .ok threshold
        ∧ FirstGap times 0 gap ∧ threshold.map UInt64.toNat = gap.map (· * binWidth))
      ∨ 2 ^ 60 ≤ binSpan (histogram times) ∧ thresholdOf times = .error .capacity := by
  have hfirst := firstGap_histogram times
  rw [thresholdOf]
  split
  · next hspan => exact Or.inr ⟨hspan, rfl⟩
  · next hspan =>
      refine Or.inl ⟨Nat.lt_of_not_le hspan, ?_⟩
      split
      · next hnone =>
          rw [hnone] at hfirst
          exact ⟨none, none, rfl, hfirst, rfl⟩
      · next bin hsome =>
          rw [hsome] at hfirst
          obtain ⟨-, t, -, hle⟩ := hfirst.bounds
          obtain ⟨latency, hlatency, hnat⟩ :=
            latencyOfBin_ok (Nat.lt_of_le_of_lt hle (UInt64.toNat_lt t))
          refine ⟨some latency, some bin, ?_, hfirst, congrArg some hnat⟩
          rw [hlatency]
          rfl

/-! ## Two bins -/

/-- Latencies that fill two bins, the upper one with more than two of them. -/
structure TwoBins (times : List Latency) (fast slow : Nat) : Prop where
  apart : fast + 3 ≤ slow
  occupied : 0 < population times fast
  dense : Dense times slow
  only : ∀ bin, 0 < population times bin → bin = fast ∨ bin = slow

namespace TwoBins

variable {fast slow : Nat} (h : TwoBins times fast slow)
include h

/-- No dense bin is between the two. -/
theorem not_dense {bin : Nat} (hne : bin ≠ fast) (hlt : bin < slow) : ¬ Dense times bin := by
  intro hdense
  rcases h.only bin (Nat.zero_lt_of_lt hdense) with rfl | rfl
  · exact hne rfl
  · exact Nat.lt_irrefl _ hlt

theorem isLowest : IsLowest times fast := by
  refine ⟨h.occupied, fun t ht => ?_⟩
  have hapart := h.apart
  rcases h.only _ (population_pos_iff.mpr ⟨t, ht, rfl⟩) with heq | heq <;> omega

theorem gap : Gap times fast slow := by
  have hapart := h.apart
  refine ⟨h.dense, ?_, by omega, ?_⟩
  · by_cases hdense : Dense times fast
    · exact Or.inl ⟨hdense, by omega, fun k hk hlt => h.not_dense (Nat.ne_of_gt hk) hlt⟩
    · refine Or.inr ⟨h.isLowest, fun k hlt hk => ?_⟩
      by_cases heq : k = fast
      · exact hdense (heq ▸ hk)
      · exact h.not_dense heq hlt hk
  · have hall : met times (slow + 1) = times.length := by
      rw [met, List.countP_eq_length.mpr, binsOf, List.length_map]
      intro bin hbin
      rcases h.only bin (List.count_pos_iff.mpr hbin) with rfl | rfl
      · exact decide_eq_true (by omega)
      · exact decide_eq_true (Nat.lt_succ_self _)
    rw [hall]
    omega

theorem eq_of_gap {below above : Nat} (hgap : Gap times below above) :
    below = fast ∧ above = slow := by
  have hpos := Nat.zero_lt_of_lt hgap.dense
  obtain rfl : above = slow := by
    refine (h.only above hpos).resolve_left ?_
    rintro rfl
    have hapart := hgap.apart
    have hapart' := h.apart
    rcases h.only below hgap.previous.pos with rfl | rfl <;> omega
  exact ⟨hgap.previous.unique h.gap.previous, rfl⟩

/-- The histogram reaches from one of the bins to the other. -/
theorem binSpan_eq : binSpan (histogram times) = slow - fast + 1 := by
  have hapart := h.apart
  have heq : Calibration.occupied times = [fast, slow] := by
    refine (pairwise_occupied times).eq_of_mem_iff ?_ fun bin => ?_
    · exact List.pairwise_pair.mpr (by omega)
    · rw [mem_occupied, List.mem_cons, List.mem_singleton]
      refine ⟨h.only bin, ?_⟩
      rintro (rfl | rfl)
      · exact h.occupied
      · exact Nat.zero_lt_of_lt h.dense
  rw [histogram_eq, heq]
  rfl

/-- So the threshold is in the middle of the two bins. -/
theorem exists_threshold (hspan : slow - fast + 1 < 2 ^ 60) :
    ∃ t, thresholdOf times = .ok (some t) ∧ t.toNat = (fast + slow) / 2 * binWidth := by
  rcases thresholdOf_cases times with ⟨-, threshold, gap, hrun, hfirst, hnat⟩ | ⟨hlarge, -⟩
  · cases gap with
    | none => exact absurd (hfirst fast slow h.gap) (Nat.not_lt_zero slow)
    | some middle =>
        obtain ⟨below, above, hgap, -, -, rfl⟩ := hfirst
        obtain ⟨rfl, rfl⟩ := h.eq_of_gap hgap
        obtain ⟨t, rfl, ht⟩ := Option.map_eq_some_iff.mp hnat
        exact ⟨t, hrun, ht⟩
  · rw [h.binSpan_eq] at hlarge
    exact absurd hspan (Nat.not_lt_of_le hlarge)

theorem thresholdOf_error (hspan : 2 ^ 60 ≤ slow - fast + 1) :
    thresholdOf times = .error .capacity := by
  rcases thresholdOf_cases times with ⟨hsmall, -⟩ | ⟨-, herror⟩
  · rw [h.binSpan_eq] at hsmall
    exact absurd hspan (Nat.not_le_of_lt hsmall)
  · exact herror

end TwoBins

/-! ## Single runs -/

section Single

variable {σ : Type} {p : Probe σ} {base : Address} {pages : Nat} {rounds : UInt64} {fenced : Bool}
  {s s' : σ}

/-- The latencies of one run over the pages of the block at `base`, the latest first. -/
def measured (p : Probe σ) (base : Address) (pages : Nat) (rounds : UInt64) (fenced : Bool)
    (s : σ) : List Latency :=
  (timePages p base rounds fenced pages 0 [] s).1

theorem singleThreshold_eq (p : Probe σ) (rounds : UInt64) (fenced : Bool) (s : σ)
    (hpages : pages ≠ 0) (hroom : base.toNat + (pages - 1) * 4096 < 2 ^ 64) :
    singleThreshold p base pages rounds fenced s
      = (thresholdOf (measured p base pages rounds fenced s)).map fun threshold =>
          (threshold, (timePages p base rounds fenced pages 0 [] s).2) := by
  rw [singleThreshold, if_neg hpages]
  exact if_pos hroom

/-- **BETWEEN**: the threshold of a run lies in a gap of the measured latencies.  More than two of
    them are in a bin that is entirely at or above it, and some are in a bin that is entirely
    below it.  These are more than two as well, unless no bin below the first one has more than
    two; then they are in the lowest bin. -/
theorem singleThreshold_between {threshold : Latency}
    (hrun : singleThreshold p base pages rounds fenced s = .ok (some threshold, s')) :
    ∃ below above, 2 < population (measured p base pages rounds fenced s) above
      ∧ (∀ t : Latency, t.toNat / binWidth = above → threshold ≤ t)
      ∧ 0 < population (measured p base pages rounds fenced s) below
      ∧ (∀ t : Latency, t.toNat / binWidth = below → t < threshold)
      ∧ (2 < population (measured p base pages rounds fenced s) below
          ∨ (∀ bin < above, population (measured p base pages rounds fenced s) bin ≤ 2)
            ∧ ∀ t ∈ measured p base pages rounds fenced s, below ≤ t.toNat / binWidth) := by
  have hthreshold : thresholdOf (measured p base pages rounds fenced s) = .ok (some threshold) := by
    by_cases hpages : pages = 0
    · rw [singleThreshold, if_pos hpages] at hrun
      cases hrun
    · by_cases hroom : base.toNat + (pages - 1) * 4096 < UInt64.size
      · rw [singleThreshold_eq p rounds fenced s hpages hroom] at hrun
        cases hr : thresholdOf (measured p base pages rounds fenced s) with
        | error f => rw [hr] at hrun; cases hrun
        | ok r => rw [hr] at hrun; cases hrun; rfl
      · rw [singleThreshold, if_neg hpages, if_neg hroom] at hrun
        cases hrun
  rcases thresholdOf_cases (measured p base pages rounds fenced s) with
    ⟨-, r, gap, hr, hfirst, hnat⟩ | ⟨-, herror⟩
  · cases hthreshold.symm.trans hr
    cases gap with
    | none => cases hnat
    | some middle =>
        obtain ⟨below, above, hgap, -, -, hmiddle⟩ := hfirst
        have hapart := hgap.apart
        have hvalue : threshold.toNat = (below + above) / 2 * 10 := hmiddle ▸ Option.some.inj hnat
        refine ⟨below, above, hgap.dense, ?_, hgap.previous.pos, ?_, ?_⟩
        · rintro t rfl
          rw [UInt64.le_iff_toNat_le, hvalue]
          rw [binWidth] at *
          omega
        · rintro t rfl
          rw [UInt64.lt_iff_toNat_lt, hvalue]
          rw [binWidth] at *
          omega
        · rcases hgap.previous with ⟨hdense, -, -⟩ | ⟨hlow, hnone⟩
          · exact Or.inl hdense
          · exact Or.inr ⟨fun bin hbin => Nat.le_of_not_lt (hnone bin hbin), hlow.2⟩
  · cases hthreshold.symm.trans herror

/-- Latencies around 100 and 200 cycles, three of the latter at least. -/
theorem twoBins_ten_twenty {values : List Latency} (hbins : ∀ bin ∈ binsOf values, bin = 10 ∨ bin = 20)
    (hfast : 0 < population values 10) (hslow : 2 < population values 20) : TwoBins values 10 20 :=
  ⟨by decide, hfast, hslow, fun bin hpos => hbins bin (List.count_pos_iff.mp hpos)⟩

/-- Six pages, three of which are slow. -/
def threeSlow : Probe Nat :=
  Simulation.probe ⟨.script #[100, 200, 105, 200, 109, 204], 0, 0, none⟩

theorem singleThreshold_between_three_slow :
    ∃ t s', singleThreshold threeSlow 0 6 1 true 0 = .ok (some t, s')
      ∧ ∃ below above, 2 < population (measured threeSlow 0 6 1 true 0) above
        ∧ (∀ u : Latency, u.toNat / binWidth = above → t ≤ u)
        ∧ 0 < population (measured threeSlow 0 6 1 true 0) below
        ∧ ∀ u : Latency, u.toNat / binWidth = below → u < t := by
  have hbins : TwoBins (measured threeSlow 0 6 1 true 0) 10 20 :=
    twoBins_ten_twenty (by decide) (by decide) (by decide)
  obtain ⟨t, hthreshold, -⟩ := hbins.exists_threshold (by decide)
  have hrun : singleThreshold threeSlow 0 6 1 true 0 = .ok (some t, 6) := by
    rw [singleThreshold_eq threeSlow 1 true 0 (by decide) (by decide), hthreshold]
    rfl
  obtain ⟨below, above, habove, hat, hbelow, hunder, -⟩ := singleThreshold_between hrun
  exact ⟨t, 6, hrun, below, above, habove, hat, hbelow, hunder⟩

/-- Four pages, all but the first of which are slow. -/
def oneFast : Probe Nat := Simulation.probe ⟨.script #[100, 200, 200, 200], 0, 0, none⟩

/-- A single fast latency is enough for a threshold. -/
theorem singleThreshold_of_one_fast :
    singleThreshold oneFast 0 4 1 true 0 = .ok (some 150, 4)
      ∧ ∀ bin, (∀ t : Latency, t.toNat / binWidth = bin → t < 150) →
          population (measured oneFast 0 4 1 true 0) bin ≤ 2 := by
  constructor
  · have hbins : TwoBins (measured oneFast 0 4 1 true 0) 10 20 :=
      twoBins_ten_twenty (by decide) (by decide) (by decide)
    obtain ⟨t, hthreshold, hvalue⟩ := hbins.exists_threshold (by decide)
    obtain rfl : t = 150 := UInt64.toNat_inj.mp hvalue
    rw [singleThreshold_eq oneFast 1 true 0 (by decide) (by decide), hthreshold]
    rfl
  · intro bin hunder
    have hcount : population (measured oneFast 0 4 1 true 0) bin = [20, 20, 20, 10].count bin := rfl
    rw [hcount]
    by_cases hslow : bin = 20
    · exact absurd (hunder 200 (hslow ▸ rfl)) (by decide)
    · have hne : 20 ≠ bin := fun h => hslow h.symm
      rw [List.count_cons_of_ne hne, List.count_cons_of_ne hne, List.count_cons_of_ne hne]
      exact Nat.le_trans List.count_le_length (Nat.le_succ 1)

end Single

end DramBanks.Calibration
