import DramBanks.Proofs.Classifier.Runs
/-!
# Guessing the block size

    Cutting blocks into smaller ones does not change their runs, except
    that every block counts for as many as it is cut into
    (`IsBlocks.bankRuns_cut`).  A run of pieces starts with a block, as
    there are pieces of the same block in front of any other one, and takes
    whole blocks (`maximalRun_fine_iff`).

    From the cut of some blocks the guess is therefore the most frequent
    run of the blocks themselves, whatever size they are cut to
    (`Holds.guessBlockSize`). -/

namespace DramBanks.Classifier

/-! ## Runs of smaller blocks -/

section Fine

variable {step q start : Nat} (hstep : 0 < step) (hq : 0 < q)
include hstep hq

/-- The block of a place behind the start of a block. -/
theorem block_behind (hblock : q * step ∣ start) (i : Nat) :
    (start + i * step) / (q * step) * (q * step) = start + i / q * (q * step) := by
  obtain ⟨m, rfl⟩ := hblock
  rw [Nat.mul_add_div (Nat.mul_pos hq hstep), Nat.mul_div_mul_right i q hstep, Nat.add_mul,
    Nat.mul_comm m]

/-- The block of the place in front of the start of a block. -/
theorem block_in_front (hblock : q * step ∣ start) (hle : step ≤ start) :
    q * step ≤ start ∧ (start - step) / (q * step) * (q * step) = start - q * step := by
  obtain ⟨m, rfl⟩ := hblock
  obtain ⟨m, rfl⟩ : ∃ k, m = k + 1 := by
    refine Nat.exists_eq_succ_of_ne_zero ?_
    rintro rfl
    omega
  have hpos : 0 < q * step := Nat.mul_pos hq hstep
  have hsub : q * step * (m + 1) - step = q * step * m + (q * step - step) := by
    have hone : step ≤ q * step := Nat.le_mul_of_pos_left step hq
    rw [Nat.mul_succ]
    omega
  refine ⟨Nat.le_mul_of_pos_right _ (Nat.succ_pos m), ?_⟩
  rw [hsub, Nat.mul_add_div hpos, Nat.div_eq_of_lt (Nat.sub_lt hpos hstep), Nat.add_zero,
    Nat.mul_succ, Nat.add_sub_cancel, Nat.mul_comm]

/-- In front of any other place of a block there is a place of the same block. -/
theorem block_inside (hstart : step ∣ start) (hblock : ¬ q * step ∣ start) :
    step ≤ start ∧ (start - step) / (q * step) = start / (q * step) := by
  have hpos : 0 < q * step := Nat.mul_pos hq hstep
  have hmod : step ≤ start % (q * step) :=
    Nat.le_of_dvd (Nat.pos_of_ne_zero fun h => hblock (Nat.dvd_of_mod_eq_zero h))
      ((Nat.dvd_mod_iff (Nat.dvd_mul_left step q)).mpr hstart)
  have hsplit := Nat.div_add_mod start (q * step)
  have hsub : start - step
      = q * step * (start / (q * step)) + (start % (q * step) - step) := by omega
  have hrest : (start % (q * step) - step) / (q * step) = 0 :=
    Nat.div_eq_of_lt (Nat.lt_of_le_of_lt (Nat.sub_le _ _) (Nat.mod_lt start hpos))
  refine ⟨Nat.le_trans hmod (Nat.mod_le _ _), ?_⟩
  rw [hsub, Nat.mul_add_div hpos, hrest, Nat.add_zero]

/-- Runs of places that are filled block by block start with a block, and take whole blocks. -/
theorem maximalRun_fine_iff {p : Nat → Prop} (hstart : step ∣ start)
    (hp : p (start / (q * step) * (q * step))) (length : Nat) :
    MaximalRun (fun n => step ∣ n ∧ p (n / (q * step) * (q * step))) step length start
      ↔ q * step ∣ start ∧ q ∣ length ∧ MaximalRun p (q * step) (length / q) start := by
  constructor
  · rintro ⟨hrun, hleft, hright⟩
    have hB : q * step ∣ start := by
      by_contra hnot
      obtain ⟨hle, hsame⟩ := block_inside hstep hq hstart hnot
      refine hleft hle ⟨Nat.dvd_sub hstart dvd_rfl, ?_⟩
      rwa [hsame]
    have hblock := block_behind hstep hq hB
    have hlength : q ∣ length := by
      by_contra hnot
      have hlt : length / q * q < length :=
        Nat.lt_of_le_of_ne (Nat.div_mul_le_self _ _) fun h => hnot (Dvd.intro_left _ h)
      have hlast := (hrun _ hlt).2
      rw [hblock, Nat.mul_div_cancel _ hq] at hlast
      refine hright ⟨Nat.dvd_add hstart (Nat.dvd_mul_left _ _), ?_⟩
      rwa [hblock]
    refine ⟨hB, hlength, ?_, ?_, ?_⟩
    · intro i hi
      have hlt : i * q < length :=
        Nat.lt_of_lt_of_le (Nat.mul_lt_mul_of_pos_right hi hq) (Nat.div_mul_le_self _ _)
      have hplace := (hrun _ hlt).2
      rwa [hblock, Nat.mul_div_cancel _ hq] at hplace
    · intro hge hpB
      have hle : step ≤ start := Nat.le_trans (Nat.le_mul_of_pos_left step hq) hge
      refine hleft hle ⟨Nat.dvd_sub hstart dvd_rfl, ?_⟩
      rwa [(block_in_front hstep hq hB hle).2]
    · intro hpB
      refine hright ⟨Nat.dvd_add hstart (Nat.dvd_mul_left _ _), ?_⟩
      rwa [hblock]
  · rintro ⟨hB, hlength, hrun, hleft, hright⟩
    have hblock := block_behind hstep hq hB
    refine ⟨?_, ?_, ?_⟩
    · intro i hi
      refine ⟨Nat.dvd_add hstart (Nat.dvd_mul_left _ _), ?_⟩
      rw [hblock]
      exact hrun _ (Nat.div_lt_div_of_lt_of_dvd hlength hi)
    · rintro hge ⟨-, hpB⟩
      obtain ⟨hge', heq⟩ := block_in_front hstep hq hB hge
      rw [heq] at hpB
      exact hleft hge' hpB
    · rintro ⟨-, hpB⟩
      rw [hblock] at hpB
      exact hright hpB

end Fine

variable {σ β : Type} [DecidableEq β] {bank : Address → β} {c : Classifier σ}
  {size step : UInt64} {starts : List Address}

omit [DecidableEq β] in
/-- What is occupied by cut blocks is what lies in a block on a boundary of the smaller size. -/
theorem IsBlocks.inBank_cut_iff (h : IsBlocks bank size starts) (hstep : step.toNat ∣ size.toNat)
    (k : β) (n : Nat) : InBank bank (cut size step starts) k n
      ↔ step.toNat ∣ n ∧ InBank bank starts k (n / size.toNat * size.toNat) := by
  have hpos := pos_of_power h.power
  constructor
  · rintro ⟨x, hx, rfl, hbank⟩
    obtain ⟨hdvd, start, hstart, hblock⟩ := (h.mem_cut hstep).mp hx
    refine ⟨hdvd, start, hstart, ?_, (h.constant _ _ hblock).trans hbank⟩
    rw [← UInt64.toNat_inj, UInt64.toNat_div, UInt64.toNat_div] at hblock
    rw [← hblock, Nat.div_mul_cancel (h.aligned start hstart)]
  · rintro ⟨hdvd, start, hstart, heq, hbank⟩
    have hend := add_size_le h.power (h.aligned start hstart)
    have hmod := Nat.mod_lt n hpos
    have hsplit := Nat.div_add_mod' n size.toNat
    have hn : (UInt64.ofNat n).toNat = n := by
      rw [UInt64.toNat_ofNat']
      exact Nat.mod_eq_of_lt (by omega)
    have hblock : start / size = UInt64.ofNat n / size := by
      rw [← UInt64.toNat_inj, UInt64.toNat_div, UInt64.toNat_div, hn, heq,
        Nat.mul_div_cancel _ hpos]
    exact ⟨UInt64.ofNat n, (h.mem_cut hstep).mpr ⟨hn.symm ▸ hdvd, start, hstart, hblock⟩, hn,
      (h.constant _ _ hblock).symm.trans hbank⟩

omit [DecidableEq β] in
/-- Of the pieces of a block only the first one may start a run, and it does so exactly if the
    block starts one of as many blocks. -/
theorem IsBlocks.maximalRun_cut_iff (h : IsBlocks bank size starts)
    (hstep : step.toNat ∣ size.toNat) {start : Address} (hstart : start ∈ starts) {i : Nat}
    (hi : i < size.toNat / step.toNat) {a : Address}
    (ha : a.toNat = start.toNat + i * step.toNat) (length : Nat) :
    MaximalRun (InBank bank (cut size step starts) (bank a)) step.toNat length a.toNat
      ↔ i = 0 ∧ size.toNat / step.toNat ∣ length ∧ MaximalRun (InBank bank starts (bank start))
          size.toNat (length / (size.toNat / step.toNat)) start.toNat := by
  have hpos := pos_of_power h.power
  have hsteppos : 0 < step.toNat := Nat.pos_of_dvd_of_pos hstep hpos
  have hmul : size.toNat / step.toNat * step.toNat = size.toNat := Nat.div_mul_cancel hstep
  have hq : 0 < size.toNat / step.toNat := Nat.pos_of_mul_pos_right (hmul.symm ▸ hpos)
  have hlt : i * step.toNat < size.toNat := hmul ▸ Nat.mul_lt_mul_of_pos_right hi hsteppos
  obtain ⟨m, hm⟩ := h.aligned start hstart
  -- the piece lies in the block of its start
  have hdiv : a.toNat / size.toNat * size.toNat = start.toNat := by
    rw [ha, hm, Nat.mul_add_div hpos, Nat.div_eq_of_lt hlt, Nat.add_zero, Nat.mul_comm]
  have hbank : bank a = bank start := by
    refine h.constant a start ?_
    rw [← UInt64.toNat_inj, UInt64.toNat_div, UInt64.toNat_div, ← hdiv, Nat.mul_div_cancel _ hpos]
  have hdvd : step.toNat ∣ a.toNat := by
    rw [ha]
    exact Nat.dvd_add (hm ▸ Nat.dvd_trans hstep (Nat.dvd_mul_right _ _)) (Nat.dvd_mul_left _ _)
  have hfirst : size.toNat ∣ a.toNat ↔ i = 0 := by
    rw [ha, hm, Nat.dvd_add_right (Nat.dvd_mul_right _ _)]
    constructor
    · intro hdvd
      have hzero := Nat.eq_zero_of_dvd_of_lt hdvd hlt
      exact (Nat.mul_eq_zero.mp hzero).resolve_right (Nat.ne_of_gt hsteppos)
    · rintro rfl
      rw [Nat.zero_mul]
      exact Nat.dvd_zero _
  have hplace : InBank bank starts (bank start)
      (a.toNat / (size.toNat / step.toNat * step.toNat)
        * (size.toNat / step.toNat * step.toNat)) := by
    rw [hmul]
    exact ⟨start, hstart, hdiv.symm, rfl⟩
  have hfine := maximalRun_fine_iff hsteppos hq hdvd hplace length
  rw [hmul] at hfine
  rw [hbank, maximalRun_congr (h.inBank_cut_iff hstep (bank start)), hfine, hfirst]
  refine and_congr_right ?_
  rintro rfl
  rw [ha, Nat.zero_mul, Nat.add_zero]

/-- A block that is cut into `q` pieces counts for `q` in its run. -/
theorem IsBlocks.bankRuns_cut (h : IsBlocks bank size starts) (hstep : step.toNat ∣ size.toNat)
    (length : Nat) : bankRuns bank (cut size step starts) step.toNat length
      = if size.toNat / step.toNat ∣ length
        then bankRuns bank starts size.toNat (length / (size.toNat / step.toNat)) else 0 := by
  have hpos := pos_of_power h.power
  have hmul : size.toNat / step.toNat * step.toNat = size.toNat := Nat.div_mul_cancel hstep
  have hone : ∀ start ∈ starts, (progression start step (size.toNat / step.toNat)).countP
      (fun a => MaximalRun (InBank bank (cut size step starts) (bank a)) step.toNat length a.toNat)
        = if decide (size.toNat / step.toNat ∣ length ∧ MaximalRun (InBank bank starts (bank start))
            size.toNat (length / (size.toNat / step.toNat)) start.toNat) then 1 else 0 := by
    intro start hstart
    have hend := add_size_le h.power (h.aligned start hstart)
    refine countP_progression (by rw [hmul]; exact hend) (Nat.pos_of_dvd_of_pos hstep hpos)
      (Nat.pos_of_mul_pos_right (hmul.symm ▸ hpos)) ?_
    intro i hi a ha
    rw [decide_eq_true_eq, decide_eq_true_eq]
    exact h.maximalRun_cut_iff hstep hstart hi ha length
  have hsum : bankRuns bank (cut size step starts) step.toNat length = starts.countP fun start =>
      decide (size.toNat / step.toNat ∣ length ∧ MaximalRun (InBank bank starts (bank start))
        size.toNat (length / (size.toNat / step.toNat)) start.toNat) := by
    rw [countP_eq_sum, ← List.map_congr_left hone]
    exact List.countP_flatMap
  rw [hsum]
  by_cases hlength : size.toNat / step.toNat ∣ length
  · simp only [hlength, true_and, if_true, bankRuns]
  · rw [if_neg hlength, List.countP_eq_zero]
    intro start _ hrun
    exact hlength (of_decide_eq_true hrun).1

theorem bankRuns_zero (bank : Address → β) (addrs : List Address) (step : Nat) :
    bankRuns bank addrs step 0 = 0 := by
  rw [bankRuns, List.countP_eq_zero]
  intro a ha hrun
  refine (of_decide_eq_true hrun).2.2 ⟨a, ha, ?_, rfl⟩
  rw [Nat.zero_mul, Nat.add_zero]

omit [DecidableEq β] in
theorem IsBlocks.spaced_cut (h : IsBlocks bank size starts) (hstep : step.toNat ∣ size.toNat) :
    Spaced step (cut size step starts) := by
  have hdvd : ∀ a ∈ cut size step starts, step.toNat ∣ a.toNat :=
    fun a ha => ((h.mem_cut hstep).mp ha).1
  refine ⟨h.nodup_cut hstep, ?_, ?_⟩
  · intro a ha x hx
    rw [Nat.mod_eq_zero_of_dvd (hdvd a ha), Nat.mod_eq_zero_of_dvd (hdvd x hx)]
  · intro a ha
    exact add_size_le (power_of_dvd h.power hstep) (hdvd a ha)

/-! ## Guessing -/

section Guess

variable (hblocks : IsBlocks bank size starts) (hold : c.blockSize.toNat ∣ size.toNat)
  (h : Holds bank (cut size c.blockSize starts) c.groups)

include hblocks hold h

/-- **GUESS**: the guess is the most frequent run of the blocks, at whatever size they are
    classified. -/
theorem Holds.guessBlockSize {m : Nat} (hm : 0 < bankRuns bank starts size.toNat m)
    (hbeats : ∀ length, bankRuns bank starts size.toNat length < bankRuns bank starts size.toNat m
      ∨ bankRuns bank starts size.toNat length = bankRuns bank starts size.toNat m ∧ m ≤ length)
    (hroom : m * size.toNat < 2 ^ 64) :
    ∃ c', c.guessBlockSize = .ok (UInt64.ofNat m * size, c') ∧ c'.blockSize = c.blockSize
      ∧ Holds bank (cut size c.blockSize starts) c'.groups := by
  have hpos := pos_of_power hblocks.power
  have hsteppos : 0 < c.blockSize.toNat := Nat.pos_of_dvd_of_pos hold hpos
  have hmul : size.toNat / c.blockSize.toNat * c.blockSize.toNat = size.toNat :=
    Nat.div_mul_cancel hold
  have hq : 0 < size.toNat / c.blockSize.toNat := Nat.pos_of_mul_pos_right (hmul.symm ▸ hpos)
  obtain ⟨lengths, hruns, hcount⟩ :=
    h.exists_allRuns hsteppos (hblocks.spaced_cut hold)
  -- the lengths are those of the blocks, each block in its pieces
  have hfine : ∀ length, lengths.count (length * (size.toNat / c.blockSize.toNat))
      = bankRuns bank starts size.toNat length := by
    intro length
    rw [hcount, hblocks.bankRuns_cut hold, if_pos (Nat.dvd_mul_left _ _),
      Nat.mul_div_cancel _ hq]
  have hmem : m * (size.toNat / c.blockSize.toNat) ∈ lengths := by
    rw [← List.count_pos_iff, hfine]
    exact hm
  have hmode : mode lengths = m * (size.toNat / c.blockSize.toNat) := by
    refine (mode_eq_iff (List.ne_nil_of_mem hmem)).mpr ⟨hmem, ?_⟩
    intro v hv
    rw [← List.count_pos_iff, hcount, hblocks.bankRuns_cut hold] at hv
    split at hv
    · next hdvd =>
        obtain ⟨length, rfl⟩ := hdvd
        rw [Beats, Nat.mul_comm _ length, hfine, hfine]
        rcases hbeats length with hlt | ⟨heq, hle⟩
        · exact Or.inl hlt
        · exact Or.inr ⟨heq, Nat.mul_le_mul_right _ hle⟩
    · exact absurd hv (Nat.lt_irrefl 0)
  have hvalue : UInt64.ofNat (mode lengths) * c.blockSize = UInt64.ofNat m * size := by
    rw [hmode, UInt64.ofNat_mul, UInt64.mul_assoc, ← eq_ofNat_mul hold]
  have hguess := guessBlockSize_of_lengths hruns (by rw [hmode, Nat.mul_assoc, hmul]; exact hroom)
  rw [hvalue] at hguess
  exact ⟨_, hguess, rfl, h.map fun g => List.mergeSort_perm _ _⟩

end Guess

end DramBanks.Classifier
