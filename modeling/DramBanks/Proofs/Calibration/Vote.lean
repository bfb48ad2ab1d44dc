import Mathlib
import DramBanks.Calibration
import DramBanks.Proofs.Classifier.Majority
import DramBanks.Proofs.Classifier.Switching
import DramBanks.Proofs.Median
/-!
# The majority of the calibration runs

    Calibration makes its runs one after another and takes the median of
    the thresholds that they found.  What the runs gave (`outcomes`) says
    all about the result: calibration returns exactly when all its runs do,
    unless their list is larger than the address space
    (`map_conflictThreshold`).

    The median is a vote, both here and in the score of a group
    (`median_decides_by_majority`): a minority of timings that are off does
    not keep a score below the threshold or lift it to there, and a minority
    of runs that are off does not move the threshold out of the interval in
    which the others lie. -/

namespace DramBanks

namespace Calibration

variable {σ : Type} {p : Probe σ} {settings : Settings} {base : Address} {s s' : σ}

/-- What a number of runs give that are made one after another: a threshold each, or none where
    there is no gap. -/
def outcomes (p : Probe σ) (settings : Settings) (base : Address) :
    (left : Nat) → σ → Except Fault (List (Option Latency) × σ)
  | 0, s => .ok ([], s)
  | left + 1, s =>
      match singleThreshold p base settings.pagesPerHugeBlock.toNat settings.rounds
          settings.fenced s with
      | .error f => .error f
      | .ok (found, s) =>
          (outcomes p settings base left s).map fun (rest, s) => (found :: rest, s)

/-- The thresholds of the runs that found one. -/
def successes (founds : List (Option Latency)) : List Latency := founds.filterMap id

@[simp] theorem successes_none_cons (founds : List (Option Latency)) :
    successes (none :: founds) = successes founds := rfl

@[simp] theorem successes_some_cons (t : Latency) (founds : List (Option Latency)) :
    successes (some t :: founds) = t :: successes founds := rfl

/-- **RUN**: the runs collect the thresholds of those that find one, the latest first. -/
theorem thresholds_runs (p : Probe σ) (settings : Settings) (base : Address) (left done : Nat)
    (r : Runs σ) (s : σ) :
    (runs p settings base left done r s).map (fun reply => (reply.1.thresholds, reply.2))
      = (outcomes p settings base left s).map fun reply =>
          ((successes reply.1).reverse ++ r.thresholds, reply.2) := by
  induction left generalizing done r s with
  | zero => rfl
  | succ left ih =>
      rw [runs, outcomes]
      cases singleThreshold p base settings.pagesPerHugeBlock.toNat settings.rounds
          settings.fenced s with
      | error f => rfl
      | ok reply =>
          obtain ⟨found, s₁⟩ := reply
          cases found with
          | none =>
              dsimp only
              rw [ih]
              cases outcomes p settings base left s₁ with
              | error f => rfl
              | ok rest => simp only [Except.map, successes_none_cons]
          | some t =>
              dsimp only
              rw [ih]
              cases outcomes p settings base left s₁ with
              | error f => rfl
              | ok rest =>
                  simp only [Except.map, successes_some_cons, List.reverse_cons, List.append_assoc,
                    List.singleton_append]

/-- Calibration ends as its runs do, with the median of what they found. -/
theorem map_conflictThreshold (p : Probe σ) (base : Address)
    (hruns : settings.calibrationRuns.toNat < 2 ^ 60) (s : σ) :
    (conflictThreshold p settings base s).map (fun reply => (reply.1, reply.2.2))
      = (outcomes p settings base settings.calibrationRuns.toNat s).map fun reply =>
          (median (successes reply.1), reply.2) := by
  have hcollected := thresholds_runs p settings base settings.calibrationRuns.toNat 0 ⟨[], []⟩ s
  rw [conflictThreshold, if_neg (show ¬ 1 <<< 60 ≤ _ from Nat.not_le_of_lt hruns)]
  cases hrun : runs p settings base settings.calibrationRuns.toNat 0 ⟨[], []⟩ s with
  | error f =>
      rw [hrun] at hcollected
      rw [eq_error_of_map hcollected.symm]
      rfl
  | ok reply =>
      rw [hrun] at hcollected
      obtain ⟨⟨founds, s₁⟩, hfounds, heq⟩ := exists_of_map_eq_ok hcollected.symm
      obtain ⟨hreverse, rfl⟩ := Prod.mk.inj heq
      -- the runs put the latest threshold in front, which does not matter to the median
      have hmedian : median (successes founds) = median reply.1.thresholds := by
        rw [← hreverse, List.append_nil]
        exact median_eq_of_perm (List.reverse_perm _).symm
      rw [hfounds]
      simp only [Except.map, hmedian]

/-- What calibration returns is the median of what its runs found. -/
theorem exists_outcomes {result : Option Latency} {notices : List (Notice σ)}
    (h : conflictThreshold p settings base s = .ok (result, notices, s')) :
    ∃ founds, outcomes p settings base settings.calibrationRuns.toNat s = .ok (founds, s')
      ∧ median (successes founds) = result := by
  have hruns : settings.calibrationRuns.toNat < 2 ^ 60 := by
    by_contra hge
    rw [conflictThreshold, if_pos (show 1 <<< 60 ≤ _ from Nat.le_of_not_lt hge)] at h
    cases h
  have hmap := map_conflictThreshold p base hruns s
  rw [h] at hmap
  obtain ⟨⟨founds, s₁⟩, hfounds, heq⟩ := exists_of_map_eq_ok hmap.symm
  cases heq
  exact ⟨founds, hfounds, rfl⟩

/-- Calibration returns when its runs do, if the list of their thresholds fits into the address
    space. -/
theorem conflictThreshold_of_outcomes {founds : List (Option Latency)}
    (hruns : settings.calibrationRuns.toNat < 2 ^ 60)
    (h : outcomes p settings base settings.calibrationRuns.toNat s = .ok (founds, s')) :
    ∃ notices, conflictThreshold p settings base s
      = .ok (median (successes founds), notices, s') := by
  have hmap := map_conflictThreshold p base hruns s
  rw [h] at hmap
  obtain ⟨⟨result, notices, s₁⟩, hrun, heq⟩ := exists_of_map_eq_ok hmap
  cases heq
  exact ⟨notices, hrun⟩

end Calibration

open Calibration

/-- **VOTE**: a median reaches a threshold exactly when more than half of the values do.  So a
    score reaches one that is not zero exactly when more than half of the sampled members measure
    at least as much, and never in an empty group.  And if more than half of the calibration runs
    that find a threshold find it in an interval, the calibrated threshold is in this interval;
    calibration returns whenever its runs do, as long as their list fits into the address
    space. -/
theorem median_decides_by_majority (σ : Type) :
    (∀ values : List Latency, values ≠ [] →
        ∃ m, median values = some m
          ∧ ∀ threshold, threshold ≤ m ↔ values.length < 2 * values.countP (threshold ≤ ·))
      ∧ (∀ (b : Bench σ) (g : Group) (addr : Address) (s : σ) (threshold : Latency),
          1 ≤ threshold →
            (threshold ≤ (g.score b addr s).1 ↔
              (g.sampled b s).1.length < 2 *
                (Group.timings b addr (g.sampled b s).1 (g.sampled b s).2).1.countP (threshold ≤ ·))
            ∧ (g.members = [] → ¬ threshold ≤ (g.score b addr s).1))
      ∧ ∀ (p : Probe σ) (settings : Settings) (base : Address) (s : σ),
          (∀ result notices s', conflictThreshold p settings base s = .ok (result, notices, s') →
            ∃ founds, outcomes p settings base settings.calibrationRuns.toNat s = .ok (founds, s')
              ∧ ∀ lo hi, (successes founds).length
                    < 2 * (successes founds).countP (fun t => lo ≤ t ∧ t ≤ hi) →
                  ∃ t, result = some t ∧ lo ≤ t ∧ t ≤ hi)
          ∧ ∀ founds s',
              outcomes p settings base settings.calibrationRuns.toNat s = .ok (founds, s') →
              settings.calibrationRuns.toNat < 2 ^ 60 →
              ∃ result notices, conflictThreshold p settings base s = .ok (result, notices, s') := by
  refine ⟨fun values hne => exists_median_majority hne, ?_, ?_⟩
  · intro b g addr s threshold hthreshold
    refine ⟨g.threshold_le_score_iff addr s hthreshold, ?_⟩
    intro hempty
    rw [Group.score_of_empty addr s hempty]
    exact fun hle => absurd (UInt64.le_trans hthreshold hle) (by decide)
  · intro p settings base s
    constructor
    · intro result notices s' hrun
      obtain ⟨founds, hfounds, hmedian⟩ := exists_outcomes hrun
      refine ⟨founds, hfounds, ?_⟩
      intro lo hi hmajority
      rw [← hmedian]
      exact exists_median_between hmajority
    · intro founds s' hfounds hruns
      exact ⟨_, conflictThreshold_of_outcomes hruns hfounds⟩

/-- Four runs over four pages: three thresholds, one of which is off, and a run without a gap. -/
def fourRuns : Probe Nat :=
  Simulation.probe ⟨.script #[100, 200, 200, 200, 100, 300, 300, 300, 100, 100, 100, 100,
    100, 220, 220, 220], 0, 0, none⟩

def fourPages : Settings := { pagesPerHugeBlock := 4, endPage := 4, calibrationRuns := 4 }

theorem outcomes_fourRuns :
    outcomes fourRuns fourPages 0 4 0 = .ok ([some 150, some 200, none, some 160], 16) := by cbv

/-- Three pages, two of which are in the bank of the address 16384. -/
def threePages : Group := .ofMembers [0, 4096, 8192] 4096

theorem median_decides_by_majority_four_runs :
    (∃ m, median [160, 170, 155, 150] = some m ∧ 155 ≤ m ∧ ¬ 160 ≤ m)
      ∧ 150 ≤ (threePages.score (.simulated {} [8192]) 16384 0).1
      ∧ (¬ 150 ≤ ((Group.ofMembers [] 4096).score (.simulated {} [8192]) 16384 0).1)
      ∧ ∃ t notices, conflictThreshold fourRuns fourPages 0 0 = .ok (some t, notices, 16)
          ∧ 150 ≤ t ∧ t ≤ 160 := by
  obtain ⟨hmedian, hscore, hcalibrated⟩ := median_decides_by_majority Nat
  refine ⟨?_, ?_, ?_, ?_⟩
  · obtain ⟨m, hm, hvote⟩ := hmedian [160, 170, 155, 150] (by decide)
    exact ⟨m, hm, (hvote 155).mpr (by decide), mt (hvote 160).mp (by decide)⟩
  · exact (hscore _ threePages 16384 0 150 (by decide)).1.mpr (by decide +kernel)
  · exact (hscore _ (.ofMembers [] 4096) 16384 0 150 (by decide)).2 rfl
  · obtain ⟨hinside, hreturns⟩ := hcalibrated fourRuns fourPages 0 0
    obtain ⟨result, notices, hrun⟩ := hreturns _ _ outcomes_fourRuns (by decide)
    obtain ⟨founds, hfounds, hinterval⟩ := hinside _ _ _ hrun
    cases hfounds.symm.trans outcomes_fourRuns
    obtain ⟨t, rfl, hlo, hhi⟩ := hinterval 150 160 (by decide)
    exact ⟨t, notices, hrun, hlo, hhi⟩

end DramBanks
