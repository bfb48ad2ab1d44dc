import DramBanks.Classifier
import DramBanks.Probe.Simulated
import DramBanks.Proofs.Median
/-!
# Probes without noise

    A bench is NOISE-FREE for a bank function when a timing reaches the
    threshold exactly when both addresses share a bank.  The score of a
    group then says whether it holds an address of the same bank, as long
    as the group is PURE, all members being of one bank (`score_iff`).  The
    group of mixed banks may score either way.

    The search lemmas hold for every probe: a search that finds a group has
    seen it reach the threshold, and one that does not has seen every group
    miss it.  `classify_cases` is all that adding an address can do. -/

namespace DramBanks

/-! ## Noise-free benches -/

variable {σ β : Type} {b : Bench σ} {bank : Address → β}

/-- Timings tell which addresses share a bank, and groups are sampled. -/
structure Bench.NoiseFree (b : Bench σ) (bank : Address → β) : Prop where
  threshold_pos : 1 ≤ b.threshold
  sample_pos : b.settings.sampleSize ≠ 0
  measure_iff : ∀ q s, b.threshold ≤ (b.probe.measure q s).1 ↔ bank q.known = bank q.candidate

/-- The parities of an address under some masks. -/
def parities (ms : List Mask) (a : Address) : List UInt64 := ms.map fun m => Bits.parity (a &&& m)

/-- A simulated memory whose banks are given by masks, at a threshold between its latencies. -/
def Bench.simulated (settings : Settings) (ms : List Mask) : Bench Nat :=
  ⟨settings, 150, Simulation.probe ⟨.masks ms 200 100, 0, 0, none⟩⟩

theorem Bench.measure_simulated (settings : Settings) (ms : List Mask) (q : Query) (s : Nat) :
    ((Bench.simulated settings ms).probe.measure q s).1
      = if ms.all fun m => Bits.parity (q.known &&& m) == Bits.parity (q.candidate &&& m)
        then 200 else 100 := by
  simp only [simulated, Simulation.probe, Simulation.latency, LatencyRule.latency,
    UInt64.zero_mul, ite_self, UInt64.add_zero]

theorem Bench.noiseFree_simulated {settings : Settings} (h : settings.sampleSize ≠ 0)
    (ms : List Mask) : (Bench.simulated settings ms).NoiseFree (parities ms) := by
  have hthreshold : (Bench.simulated settings ms).threshold = 150 := rfl
  refine ⟨by rw [hthreshold]; decide, h, ?_⟩
  intro q s
  rw [measure_simulated, hthreshold, parities, parities, List.map_inj_left]
  split
  · next hall =>
      refine iff_of_true (by decide) ?_
      intro m hm
      exact beq_iff_eq.mp (List.all_eq_true.mp hall m hm)
  · next hall =>
      refine iff_of_false (by decide) ?_
      intro heq
      exact hall (List.all_eq_true.mpr fun m hm => beq_iff_eq.mpr (heq m hm))

namespace Group

/-- All members of the group lie in one bank. -/
def Pure (bank : Address → β) (g : Group) : Prop :=
  ∀ a ∈ g.members, ∀ a' ∈ g.members, bank a = bank a'

/-- The addresses of a bank take equally long against a new one, as far as the threshold can
    tell. -/
theorem timings_iff (hb : b.NoiseFree bank) {k : β} {members : List Address}
    (h : ∀ a ∈ members, bank a = k) (addr : Address) (s : σ) :
    ∀ t ∈ (timings b addr members s).1, b.threshold ≤ t ↔ k = bank addr := by
  induction members generalizing s with
  | nil =>
      intro t ht
      cases ht
  | cons a rest ih =>
      intro t ht
      rcases List.mem_cons.mp ht with rfl | ht
      · rw [hb.measure_iff, h a (List.mem_cons_self ..)]
      · exact ih (fun x hx => h x (List.mem_cons_of_mem _ hx)) _ t ht

/-- **SCORE**: a pure group reaches the threshold exactly when it holds an address of the same
    bank. -/
theorem score_iff (hb : b.NoiseFree bank) {g : Group} (hpure : g.Pure bank) (addr : Address)
    (s : σ) : b.threshold ≤ (g.score b addr s).1 ↔ ∃ a ∈ g.members, bank a = bank addr := by
  by_cases hempty : g.members = []
  · -- an empty group scores 0, below every threshold
    rw [score_of_empty addr s hempty, hempty]
    refine iff_of_false ?_ (by simp)
    intro hle
    exact absurd (UInt64.le_trans hb.threshold_pos hle) (by decide)
  · obtain ⟨a, ha⟩ := List.exists_mem_of_ne_nil _ hempty
    have hsampled : ∀ x ∈ (g.sampled b s).1, bank x = bank a :=
      fun x hx => hpure x (mem_of_mem_sampled hx) a ha
    have htimes := timings_iff hb hsampled addr (g.sampled b s).2
    have hne : (timings b addr (g.sampled b s).1 (g.sampled b s).2).1 ≠ [] := by
      have hsize : b.settings.sampleSize.toNat ≠ 0 :=
        fun h => hb.sample_pos (UInt64.toNat_inj.mp h)
      have hmembers := List.length_pos_iff.mpr hempty
      rw [← List.length_pos_iff, length_timings, length_sampled]
      omega
    obtain ⟨t, ht⟩ := exists_median hne
    have hscore : (g.score b addr s).1 = t := by
      show (median (timings b addr (g.sampled b s).1 (g.sampled b s).2).1).getD 0 = t
      rw [ht]
      rfl
    rw [hscore, htimes t (mem_of_median ht)]
    constructor
    · intro h
      exact ⟨a, ha, h⟩
    · rintro ⟨a', ha', h⟩
      exact (hpure a ha a' ha').trans h

end Group

namespace Classifier

/-! ## What a search has seen -/

variable {addr : Address} {groups : List Group}

/-- The best group is the one to begin with, or one that was seen to reach the threshold. -/
theorem bestGroup_some {index i : Nat} {t : Latency} {best : Option (Nat × Latency)} {s : σ}
    (h : (bestGroup b addr groups index best s).1 = some (i, t)) :
    best = some (i, t) ∨ ∃ k g s', i = index + k ∧ groups[k]? = some g
      ∧ b.threshold ≤ (g.score b addr s').1 := by
  induction groups generalizing index best s with
  | nil => exact Or.inl h
  | cons g rest ih =>
      rcases ih h with hbetter | ⟨k, g', s', rfl, hget, hscore⟩
      · -- what was best when `rest` was reached is old, or is `g`
        have hhere : best = some (i, t) ∨ i = index ∧ b.threshold ≤ (g.score b addr s).1 := by
          cases best with
          | none =>
              rw [better] at hbetter
              split at hbetter
              · next hle =>
                  cases hbetter
                  exact Or.inr ⟨rfl, hle⟩
              · cases hbetter
          | some best =>
              rw [better] at hbetter
              split at hbetter
              · next hle =>
                  cases hbetter
                  exact Or.inr ⟨rfl, hle.1⟩
              · exact Or.inl hbetter
        rcases hhere with hbest | ⟨rfl, hscore⟩
        · exact Or.inl hbest
        · exact Or.inr ⟨0, g, s, rfl, rfl, hscore⟩
      · exact Or.inr ⟨k + 1, g', s', by omega, hget, hscore⟩

/-- There is no best group when all were seen to miss the threshold. -/
theorem bestGroup_none {index : Nat} {best : Option (Nat × Latency)} {s : σ}
    (h : (bestGroup b addr groups index best s).1 = none) :
    best = none ∧ ∀ g ∈ groups, ∃ s', ¬ b.threshold ≤ (g.score b addr s').1 := by
  induction groups generalizing index best s with
  | nil => exact ⟨h, fun g hg => nomatch hg⟩
  | cons g rest ih =>
      obtain ⟨hbetter, hrest⟩ := ih h
      cases best with
      | some best =>
          rw [better] at hbetter
          split at hbetter <;> cases hbetter
      | none =>
          rw [better] at hbetter
          split at hbetter
          · cases hbetter
          · next hlt =>
              refine ⟨rfl, fun g' hg' => ?_⟩
              rcases List.mem_cons.mp hg' with rfl | hg'
              · exact ⟨s, hlt⟩
              · exact hrest g' hg'

/-- A group that is found was seen to reach the threshold. -/
theorem search_some {attempts i : Nat} {s : σ}
    (h : (search b addr groups attempts s).1 = some i) :
    ∃ g s', groups[i]? = some g ∧ b.threshold ≤ (g.score b addr s').1 := by
  induction attempts generalizing s with
  | zero => cases h
  | succ attempts ih =>
      rw [search] at h
      split at h
      · next hbest =>
          cases h
          rcases bestGroup_some (congrArg Prod.fst hbest) with hnone | ⟨k, g, s', hi, hget, hscore⟩
          · cases hnone
          · rw [Nat.zero_add] at hi
            exact ⟨g, s', hi ▸ hget, hscore⟩
      · exact ih h

/-- When no group is found, all were seen to miss the threshold. -/
theorem search_none {attempts : Nat} {s : σ}
    (h : (search b addr groups (attempts + 1) s).1 = none) :
    ∀ g ∈ groups, ∃ s', ¬ b.threshold ≤ (g.score b addr s').1 := by
  rw [search] at h
  split at h
  · cases h
  · next hbest => exact (bestGroup_none (congrArg Prod.fst hbest)).2

/-- **ADDING**: an address joins a group that was seen to reach the threshold; it opens a group
    or is left out when all groups were seen to miss it. -/
theorem classify_cases (b : Bench σ) (allowNew : Bool) (c : Classifier σ) (addr : Address) :
    (∃ i g s, c.groups[i]? = some g ∧ b.threshold ≤ (g.score b addr s).1
        ∧ (c.classify b allowNew addr).1 = true
        ∧ (c.classify b allowNew addr).2.groups = c.groups.modify i (·.push addr))
      ∨ ((∀ g ∈ c.groups, ∃ s, ¬ b.threshold ≤ (g.score b addr s).1)
        ∧ (c.classify b allowNew addr).1 = false
        ∧ (c.classify b allowNew addr).2.groups =
          if allowNew then c.groups ++ [.ofMembers [addr] c.blockSize] else c.groups) := by
  rw [classify]
  split
  · next index c' hfound =>
      have hgroups : c'.groups = c.groups := congrArg (fun r => r.2.groups) hfound.symm
      have hsearch : (search b addr c.groups (attempts b) c.probe).1 = some index :=
        congrArg Prod.fst hfound
      obtain ⟨g, s, hget, hscore⟩ := search_some hsearch
      refine Or.inl ⟨index, g, s, hget, hscore, rfl, ?_⟩
      show c'.groups.modify index _ = _
      rw [hgroups]
  · next c' hnone =>
      have hgroups : c'.groups = c.groups := congrArg (fun r => r.2.groups) hnone.symm
      have hsize : c'.blockSize = c.blockSize := congrArg (fun r => r.2.blockSize) hnone.symm
      have hsearch : (search b addr c.groups (attempts b) c.probe).1 = none :=
        congrArg Prod.fst hnone
      refine Or.inr ⟨search_none hsearch, rfl, ?_⟩
      cases allowNew with
      | true =>
          show c'.groups ++ [.ofMembers [addr] c'.blockSize] = _
          rw [hgroups, hsize]
          rfl
      | false => exact hgroups

end Classifier

end DramBanks
