import DramBanks.Proofs.Calibration.Separation
import DramBanks.Proofs.Classifier.Rescaling
/-!
# A constant offset of all latencies

    A machine may answer every access the same number of cycles later.  If
    that is a multiple of ten, every latency moves up by as many bins, and
    everything that calibration looks at is a difference of bins: the width
    of the histogram, the position of a bin above the lowest one, a gap.
    So the histogram moves as a whole (`histogram_later`), its gap moves
    with it (`gap?_raise`), and so does the threshold.

    The offset is strictly increasing on latencies that leave room for it.
    It is a rescaling, then, and a classifier at the threshold that moved
    along finds what it found before (`offset_shifts_threshold`). -/

namespace DramBanks

/-- Numbers that are told apart as before have the same run lengths. -/
theorem RunLength.encode_map {f : Nat → Nat} (hf : Function.Injective f) (ns : List Nat) :
    encode (ns.map f) = (encode ns).map (Prod.map f id) := by
  induction ns with
  | nil => rfl
  | cons n rest ih =>
      show push (f n) (encode (rest.map f)) = (push n (encode rest)).map (Prod.map f id)
      rw [ih]
      cases encode rest with
      | nil => rfl
      | cons entry tail =>
          obtain ⟨m, count⟩ := entry
          simp only [push, List.map_cons, Prod.map_apply, hf.eq_iff]
          split <;> rfl

namespace Calibration

/-- A latency `k` bins later. -/
def later (k : Nat) (t : Latency) : Latency := t + UInt64.ofNat (10 * k)

/-- There is room for a latency `k` bins later. -/
def Room (k : Nat) (t : Latency) : Prop := t.toNat + 10 * k < 2 ^ 64

instance (k : Nat) (t : Latency) : Decidable (Room k t) := inferInstanceAs (Decidable (_ < _))

variable {k : Nat} {times : List Latency}

theorem Room.toNat_later {t : Latency} (h : Room k t) : (later k t).toNat = t.toNat + 10 * k := by
  have hoffset : (UInt64.ofNat (10 * k)).toNat = 10 * k :=
    UInt64.toNat_ofNat_of_lt' (Nat.lt_of_le_of_lt (Nat.le_add_left _ _) h)
  rw [later, UInt64.toNat_add, hoffset]
  exact Nat.mod_eq_of_lt h

theorem Room.bin_later {t : Latency} (h : Room k t) :
    (later k t).toNat / binWidth = t.toNat / binWidth + k := by
  rw [h.toNat_later]
  exact Nat.add_mul_div_left _ _ (by decide)

theorem Room.of_le {t u : Latency} (h : Room k u) (hle : t ≤ u) : Room k t :=
  Nat.lt_of_le_of_lt (Nat.add_le_add_right (UInt64.le_iff_toNat_le.mp hle) _) h

theorem Room.later_le_iff {t u : Latency} (ht : Room k t) (hu : Room k u) :
    later k t ≤ later k u ↔ t ≤ u := by
  rw [UInt64.le_iff_toNat_le, ht.toNat_later, hu.toNat_later, Nat.add_le_add_iff_right,
    UInt64.le_iff_toNat_le]

/-! ## The histogram -/

/-- A bin with its count, `k` bins higher. -/
def raise (k : Nat) : Nat × Nat → Nat × Nat := Prod.map (· + k) id

theorem histogram_later (h : ∀ t ∈ times, Room k t) :
    histogram (times.map (later k)) = (histogram times).map (raise k) := by
  have hbins : (times.map (later k)).map (fun t => t.toNat / binWidth)
      = (times.map fun t => t.toNat / binWidth).map (· + k) := by
    rw [List.map_map, List.map_map]
    exact List.map_congr_left fun t ht => (h t ht).bin_later
  have hsorted := List.map_mergeSort (f := (· + k)) (r := fun a b : Nat => decide (a ≤ b))
    (s := fun a b => decide (a ≤ b)) (l := times.map fun t => t.toNat / binWidth)
    fun a _ b _ => by simp only [Nat.add_le_add_iff_right]
  rw [histogram, hbins, ← hsorted, RunLength.encode_map (add_left_injective k), histogram, raise]

theorem binSpan_raise (bins : List (Nat × Nat)) : binSpan (bins.map (raise k)) = binSpan bins := by
  cases bins with
  | nil => rfl
  | cons entry rest =>
      have hlast : ((entry :: rest).map (raise k)).getLastD (0, 0)
          = raise k ((entry :: rest).getLastD (0, 0)) := by
        rw [List.getLastD_eq_getLast?, List.getLast?_map, List.getLastD_eq_getLast?,
          List.getLast?_cons]
        rfl
      rw [binSpan, hlast, binSpan]
      simp only [raise, List.map_cons, List.headD_cons, Prod.map_fst, Nat.add_sub_add_right]

theorem headD_raise {bins : List (Nat × Nat)} (h : bins ≠ []) :
    ((bins.map (raise k)).headD (0, 0)).1 = (bins.headD (0, 0)).1 + k := by
  cases bins with
  | nil => exact absurd rfl h
  | cons entry rest => rfl

/-- **WALK**: the same gap is found, `k` bins higher. -/
theorem gap?_raise (total lowest : Nat) (bins : List (Nat × Nat)) (last found : Nat) :
    gap? total (lowest + k) (bins.map (raise k)) last found
      = (gap? total lowest bins last found).map (· + k) := by
  induction bins generalizing last found with
  | nil => rfl
  | cons entry rest ih =>
      obtain ⟨bin, count⟩ := entry
      have hmiddle : ∀ i, middle (lowest + k) last i = middle lowest last i + k :=
        fun _ => (Nat.add_assoc _ _ _).symm
      rw [raise] at ih ⊢
      simp only [List.map_cons, Prod.map_apply, id, gap?, Nat.add_sub_add_right, hmiddle]
      split
      · exact ih _ _
      · split
        · rfl
        · exact ih _ _

/-! ## Thresholds -/

theorem latencyOfBin_later {bin : Nat} (h : bin * binWidth + 10 * k < 2 ^ 64) :
    latencyOfBin (bin + k) = (latencyOfBin bin).map (later k) := by
  have hsum : (bin + k) * binWidth = bin * binWidth + 10 * k := by
    rw [Nat.add_mul, Nat.mul_comm k]
    rfl
  obtain ⟨t, ht, hnat⟩ := latencyOfBin_ok (Nat.lt_of_le_of_lt (Nat.le_add_right _ _) h)
  obtain ⟨u, hu, hnat'⟩ := latencyOfBin_ok (hsum ▸ h)
  have hroom : Room k t := by rwa [Room, hnat]
  rw [ht, hu, Except.map, Except.ok.injEq, ← UInt64.toNat_inj, hroom.toNat_later, hnat, hnat', hsum]

/-- **THRESHOLD**: latencies that are all later suggest a threshold that is as much later. -/
theorem thresholdOf_later (h : ∀ t ∈ times, Room k t) :
    thresholdOf (times.map (later k)) = (thresholdOf times).map (Option.map (later k)) := by
  by_cases hempty : histogram times = []
  · rw [thresholdOf, histogram_later h, hempty, thresholdOf, hempty]
    rfl
  · rw [thresholdOf, histogram_later h, binSpan_raise, headD_raise hempty, List.length_map,
      gap?_raise, thresholdOf]
    by_cases hspan : 1 <<< 60 ≤ binSpan (histogram times)
    · simp only [if_pos hspan]
      rfl
    · simp only [if_neg hspan]
      have hfirst := firstGap_histogram times
      cases hgap : gap? times.length ((histogram times).headD (0, 0)).1 (histogram times) 0 0 with
      | none => rfl
      | some bin =>
          rw [hgap] at hfirst
          obtain ⟨-, t, ht, hle⟩ := hfirst.bounds
          have hroom : bin * binWidth + 10 * k < 2 ^ 64 :=
            Nat.lt_of_le_of_lt (Nat.add_le_add_right hle _) (h t ht)
          obtain ⟨u, hu, -⟩ := latencyOfBin_ok (Nat.lt_of_le_of_lt (Nat.le_add_right _ _) hroom)
          simp only [Option.map_some, latencyOfBin_later hroom, hu]
          rfl

/-- A threshold is not zero, and some latencies reach it. -/
theorem thresholdOf_bounds {t : Latency} (h : thresholdOf times = .ok (some t)) :
    1 ≤ t ∧ ∃ u ∈ times, t ≤ u := by
  rcases thresholdOf_cases times with ⟨-, threshold, gap, hrun, hfirst, hnat⟩ | ⟨-, herror⟩
  · cases h.symm.trans hrun
    obtain ⟨bin, rfl, hbin⟩ := Option.map_eq_some_iff.mp hnat.symm
    obtain ⟨hpos, u, hu, hle⟩ := hfirst.bounds
    refine ⟨UInt64.le_iff_toNat_le.mpr ?_, u, hu, UInt64.le_iff_toNat_le.mpr (hbin ▸ hle)⟩
    rw [← hbin]
    exact Nat.mul_pos hpos (by decide)
  · cases h.symm.trans herror

/-! ## Single runs -/

section Single

variable {σ : Type} {p : Probe σ} {base : Address}

/-- What holds of every answer holds of every timed latency. -/
theorem forall_mem_timePages {P : Latency → Prop} (h : ∀ q s, P (p.measure q s).1)
    {rounds : UInt64} {fenced : Bool} {left page : Nat} {s : σ} (htimes : ∀ t ∈ times, P t) :
    ∀ t ∈ (timePages p base rounds fenced left page times s).1, P t := by
  induction left generalizing page times s with
  | zero => exact htimes
  | succ left ih => exact ih (List.forall_mem_cons.mpr ⟨h _ _, htimes⟩)

theorem timePages_later (k : Nat) (p : Probe σ) (base : Address) (rounds : UInt64) (fenced : Bool)
    (left page : Nat) (times : List Latency) (s : σ) :
    timePages (p.mapLatency (later k)) base rounds fenced left page (times.map (later k)) s
      = ((timePages p base rounds fenced left page times s).1.map (later k),
        (timePages p base rounds fenced left page times s).2) := by
  induction left generalizing page times s with
  | zero => rfl
  | succ left ih => exact ih (page + 1) (_ :: times) _

variable (h : ∀ q s, Room k (p.measure q s).1)
include h

/-- A run times latencies with room for the offset. -/
theorem room_of_mem_timePages {rounds : UInt64} {fenced : Bool} {pages : Nat} {s : σ} :
    ∀ t ∈ (timePages p base rounds fenced pages 0 [] s).1, Room k t :=
  forall_mem_timePages h fun _ ht => absurd ht List.not_mem_nil

/-- The same pages are timed, and the threshold is later. -/
theorem singleThreshold_later (pages : Nat) (rounds : UInt64) (fenced : Bool) (s : σ) :
    singleThreshold (p.mapLatency (later k)) base pages rounds fenced s
      = (singleThreshold p base pages rounds fenced s).map
          (Prod.map (Option.map (later k)) id) := by
  have hpages := timePages_later k p base rounds fenced pages 0 [] s
  rw [List.map_nil] at hpages
  rw [singleThreshold, singleThreshold, hpages]
  simp only [thresholdOf_later (room_of_mem_timePages h)]
  split
  · rfl
  · split
    · cases thresholdOf (timePages p base rounds fenced pages 0 [] s).1 <;> rfl
    · rfl

theorem singleThreshold_bounds {pages : Nat} {rounds : UInt64} {fenced : Bool} {s s' : σ}
    {t : Latency} (hrun : singleThreshold p base pages rounds fenced s = .ok (some t, s')) :
    1 ≤ t ∧ Room k t := by
  rw [singleThreshold] at hrun
  split at hrun
  · cases hrun
  · split at hrun
    · obtain ⟨_, hthreshold, heq⟩ := exists_of_map_eq_ok hrun
      cases heq
      obtain ⟨hone, u, hu, hle⟩ := thresholdOf_bounds hthreshold
      exact ⟨hone, (room_of_mem_timePages h u hu).of_le hle⟩
    · cases hrun

end Single

/-! ## Several runs -/

section Several

variable {σ : Type} {p : Probe σ} {settings : Settings} {base : Address}

/-- What holds of the threshold of every run holds of all of them. -/
theorem forall_mem_runs {P : Latency → Prop}
    (hsingle : ∀ s t s', singleThreshold p base settings.pagesPerHugeBlock.toNat settings.rounds
      settings.fenced s = .ok (some t, s') → P t) {left done : Nat} {r r' : Runs σ} {s s' : σ}
    (hr : ∀ t ∈ r.thresholds, P t) (hrun : runs p settings base left done r s = .ok (r', s')) :
    ∀ t ∈ r'.thresholds, P t := by
  induction left generalizing done r s with
  | zero =>
      cases hrun
      exact hr
  | succ left ih =>
      rw [runs] at hrun
      split at hrun
      · cases hrun
      · next t s₁ hfirst => exact ih (List.forall_mem_cons.mpr ⟨hsingle s t s₁ hfirst, hr⟩) hrun
      · refine ih ?_ hrun
        exact hr

/-- The threshold of several runs is that of one of them. -/
theorem of_conflictThreshold {P : Latency → Prop}
    (hsingle : ∀ s t s', singleThreshold p base settings.pagesPerHugeBlock.toNat settings.rounds
      settings.fenced s = .ok (some t, s') → P t) {s : σ} {t : Latency}
    {rest : List (Notice σ) × σ} (hrun : conflictThreshold p settings base s = .ok (some t, rest)) :
    P t := by
  rw [conflictThreshold] at hrun
  split at hrun
  · cases hrun
  · obtain ⟨⟨r, s'⟩, hruns, heq⟩ := exists_of_map_eq_ok hrun
    have hmedian : median r.thresholds = some t := congrArg Prod.fst heq
    exact forall_mem_runs hsingle (fun t ht => absurd ht List.not_mem_nil) hruns t
      (mem_of_median hmedian)

/-- The runs with all their thresholds `k` bins later. -/
def Runs.later (k : Nat) (r : Runs σ) : Runs σ :=
  { r with thresholds := r.thresholds.map (Calibration.later k) }

variable (h : ∀ q s, Room k (p.measure q s).1)
include h

/-- **RUN**: every run finds what it found, `k` bins later. -/
theorem runs_later (settings : Settings) (base : Address) (left done : Nat) (r : Runs σ) (s : σ) :
    runs (p.mapLatency (later k)) settings base left done (r.later k) s
      = (runs p settings base left done r s).map (Prod.map (Runs.later k) id) := by
  induction left generalizing done r s with
  | zero => rfl
  | succ left ih =>
      rw [runs, runs, singleThreshold_later h]
      cases singleThreshold p base settings.pagesPerHugeBlock.toNat settings.rounds
          settings.fenced s with
      | error f => rfl
      | ok reply =>
          obtain ⟨threshold, s₁⟩ := reply
          cases threshold with
          | none => exact ih (done + 1) { r with warnings := r.warnings ++ [⟨.noGap done, s₁⟩] } s₁
          | some t => exact ih (done + 1) { r with thresholds := t :: r.thresholds } s₁

theorem conflictThreshold_later (s : σ) :
    conflictThreshold (p.mapLatency (later k)) settings base s
      = (conflictThreshold p settings base s).map (Prod.map (Option.map (later k)) id) := by
  rw [conflictThreshold, conflictThreshold]
  split
  · rfl
  · have hruns := runs_later h settings base settings.calibrationRuns.toNat 0 ⟨[], []⟩ s
    rw [Runs.later, List.map_nil] at hruns
    rw [hruns]
    cases hrun : runs p settings base settings.calibrationRuns.toNat 0 ⟨[], []⟩ s with
    | error f => rfl
    | ok reply =>
        obtain ⟨r, s'⟩ := reply
        have hroom := forall_mem_runs (fun _ _ _ hsingle => (singleThreshold_bounds h hsingle).2)
          (fun t ht => absurd ht List.not_mem_nil) hrun
        have hmedian : median (r.thresholds.map (later k)) = (median r.thresholds).map (later k) :=
          median_map_of_le_iff fun t ht u hu => (hroom t ht).later_le_iff (hroom u hu)
        simp only [Except.map, Prod.map_apply, Runs.later, hmedian, id]

/-- The offset is a rescaling of every bench with room for its threshold. -/
theorem rescaling_later {t : Latency} (ht : 1 ≤ t) (hroom : Room k t) :
    Rescaling ⟨settings, t, p⟩ (later k) (Room k) where
  threshold := hroom
  measure := h
  increasing t u ht hu hlt := by
    rw [← UInt64.not_le, hu.later_le_iff ht]
    exact UInt64.not_le.mpr hlt
  one_le := ht
  one_le_scale := by
    rw [UInt64.le_iff_toNat_le] at ht ⊢
    rw [hroom.toNat_later]
    exact Nat.le_add_right_of_le ht

/-- **OFFSET**: answers that all come `10 * k` cycles later shift the threshold by as much, in any
    state of the probe and with any settings: calibration finds a threshold, finds no gap or ends
    in a fault exactly if it did before, with the same warnings.  What it finds is not zero and
    has room for the offset.  At every such threshold, any session from any state gives the same
    answers and ends in the same state, or in the same fault; only a score is later, too. -/
theorem offset_shifts_threshold (settings : Settings) (base : Address) (s : σ) :
    conflictThreshold (p.mapLatency (later k)) settings base s
        = (conflictThreshold p settings base s).map (Prod.map (Option.map (later k)) id)
      ∧ (∀ t rest, conflictThreshold p settings base s = .ok (some t, rest) →
          1 ≤ t ∧ t.toNat + 10 * k < 2 ^ 64)
      ∧ ∀ t : Latency, 1 ≤ t → t.toNat + 10 * k < 2 ^ 64 →
          (later k t).toNat = t.toNat + 10 * k
          ∧ ∀ (ops : List Classifier.Operation) (c : Classifier σ),
            Classifier.Parallel (List.Forall₂ (Classifier.Answer.Rescaled (later k) (Room k)))
              (Classifier.performAll ⟨settings, t, p⟩ ops c)
              (Classifier.performAll ⟨settings, later k t, p.mapLatency (later k)⟩ ops c) := by
  refine ⟨conflictThreshold_later h s, ?_, ?_⟩
  · intro t rest hrun
    exact of_conflictThreshold (fun _ _ _ hsingle => singleThreshold_bounds h hsingle) hrun
  · intro t hone hroom
    refine ⟨Room.toNat_later hroom, ?_⟩
    intro ops c
    exact Classifier.performAll_parallel
      (Classifier.perform_rescaled (rescaling_later h hone hroom)) ops c

end Several

/-- Two banks in five pages, thirty cycles later. -/
theorem offset_shifts_threshold_five_pages :
    ∃ t rest, conflictThreshold (Bench.simulated (fivePages 3) [8192]).probe (fivePages 3) 0 0
        = .ok (some t, rest)
      ∧ conflictThreshold ((Bench.simulated (fivePages 3) [8192]).probe.mapLatency (later 3))
          (fivePages 3) 0 0 = .ok (some (later 3 t), rest)
      ∧ (later 3 t).toNat = t.toNat + 30
      ∧ Classifier.Parallel (List.Forall₂ (Classifier.Answer.Rescaled (later 3) (Room 3)))
          (Classifier.performAll ⟨fivePages 3, t, (Bench.simulated (fivePages 3) [8192]).probe⟩
            [.addRegion 0 true, .regroup, .detectBlockSize] ⟨[], 4096, 0, []⟩)
          (Classifier.performAll ⟨fivePages 3, later 3 t,
              (Bench.simulated (fivePages 3) [8192]).probe.mapLatency (later 3)⟩
            [.addRegion 0 true, .regroup, .detectBlockSize] ⟨[], 4096, 0, []⟩) := by
  have hroom : ∀ q s, Room 3 ((Bench.simulated (fivePages 3) [8192]).probe.measure q s).1 := by
    intro q s
    rw [Bench.measure_simulated]
    split
    · decide
    · decide
  obtain ⟨hshift, hbounds, hsessions⟩ := offset_shifts_threshold hroom (fivePages 3) 0 0
  have hblock : Mixed (parities [8192]) 0 (fivePages 3).pagesPerHugeBlock.toNat := mixed_fivePages
  obtain ⟨t, -, hsingle⟩ := (separates_simulated (fivePages 3) [8192]).exists_single hblock
    (by decide) (fivePages 3).rounds (fivePages 3).fenced 0
  obtain ⟨s', hrun⟩ : ∃ s', conflictThreshold (Bench.simulated (fivePages 3) [8192]).probe
      (fivePages 3) 0 0 = .ok (some t, [], s') := by
    obtain ⟨s', hruns⟩ := runs_eq_replicate (s := 0) hsingle 3 0 ⟨[], []⟩
    refine ⟨s', ?_⟩
    rw [conflictThreshold, if_neg (by decide)]
    refine (congrArg _ hruns).trans ?_
    simp only [Except.map, List.append_nil, median_replicate (Nat.succ_ne_zero 2)]
  obtain ⟨hone, hfits⟩ := hbounds t _ hrun
  obtain ⟨hnat, hsame⟩ := hsessions t hone hfits
  refine ⟨t, _, hrun, ?_, hnat, hsame _ _⟩
  rw [hshift, hrun]
  rfl

end Calibration

end DramBanks
