import DramBanks.Classifier.Operation
import DramBanks.Proofs.Classifier.Guess
import DramBanks.Proofs.Classifier.Region
/-!
# Detecting the block size

    When no run of blocks is more frequent than those of one block, the
    guess is the size of the blocks.  It is taken at once when the blocks
    are classified at a smaller size; at the size itself they are halved
    first, and grow back (`Holds.detectBlockSize`).

    The blocks of several regions are held after these were classified one
    by one, and regrouping does not change this (`exists_filled`).  That
    regions were classified means that their addresses could be listed
    (`visitCount_lt_of_filled`). -/

namespace DramBanks.Classifier

variable {σ β : Type} [DecidableEq β] {b : Bench σ} {bank : Address → β} {c : Classifier σ}
  {size : UInt64} {starts : List Address}

/-! ## Detecting -/

section Detect

variable (hb : b.NoiseFree bank) (hblocks : IsBlocks bank size starts)
  (hold : c.blockSize.toNat ∣ size.toNat) (h : Holds bank (cut size c.blockSize starts) c.groups)

omit [DecidableEq β] in
include hb hblocks hold h in
/-- The size of the blocks is taken, unless it is there already. -/
theorem Holds.commitGuess :
    ∃ c', c.commitGuess b size = .ok c' ∧ c'.blockSize = size ∧ Holds bank starts c'.groups := by
  have hpos := pos_of_power hblocks.power
  rw [Classifier.commitGuess, if_neg (toNat_pos_iff.mp hpos)]
  split
  · next heq =>
      rw [← heq, cut_self hpos] at h
      exact ⟨_, rfl, heq.symm, h⟩
  · obtain ⟨c', hset, hsame, hholds⟩ := h.setBlockSize hb hblocks hold dvd_rfl (Or.inr hold)
    rw [cut_self hpos] at hholds
    exact ⟨c', hset, hsame, hholds⟩

omit hold h in
include hblocks in
/-- If no run is more frequent than those of one block, the guess is the size of the blocks. -/
theorem Holds.guessBlockSize_of_single (hone : 0 < bankRuns bank starts size.toNat 1)
    (hmost : ∀ length, bankRuns bank starts size.toNat length ≤ bankRuns bank starts size.toNat 1)
    {c : Classifier σ} (hold : c.blockSize.toNat ∣ size.toNat)
    (h : Holds bank (cut size c.blockSize starts) c.groups) :
    ∃ c', c.guessBlockSize = .ok (size, c') ∧ c'.blockSize = c.blockSize
      ∧ Holds bank (cut size c.blockSize starts) c'.groups := by
  have hbeats : ∀ length,
      bankRuns bank starts size.toNat length < bankRuns bank starts size.toNat 1
        ∨ bankRuns bank starts size.toNat length = bankRuns bank starts size.toNat 1
          ∧ 1 ≤ length := by
    intro length
    rcases Nat.eq_zero_or_pos length with rfl | hpos
    · rw [bankRuns_zero]
      exact Or.inl hone
    · rcases Nat.lt_or_eq_of_le (hmost length) with hlt | heq
      · exact Or.inl hlt
      · exact Or.inr ⟨heq, hpos⟩
  have hroom : 1 * size.toNat < 2 ^ 64 := by
    rw [Nat.one_mul]
    exact UInt64.toNat_lt size
  have hvalue : UInt64.ofNat 1 * size = size := UInt64.one_mul size
  have hguess := h.guessBlockSize hblocks hold hone hbeats hroom
  rwa [hvalue] at hguess

include hb hblocks hold h in
/-- **DETECTION**: if no run is more frequent than those of one block, the size of the blocks is
    found, and the groups hold the blocks. -/
theorem Holds.detectBlockSize (hhalf : b.settings.minimumBlockSize < size → 2 ≤ size.toNat)
    (hone : 0 < bankRuns bank starts size.toNat 1)
    (hmost : ∀ length, bankRuns bank starts size.toNat length ≤ bankRuns bank starts size.toNat 1) :
    ∃ c', c.detectBlockSize b = .ok (size, c') ∧ c'.blockSize = size
      ∧ Holds bank starts c'.groups := by
  obtain ⟨c', hdetect, hsame, hholds⟩ : ∃ c', c.detectFrom b c.blockSize = .ok c'
      ∧ c'.blockSize = size ∧ Holds bank starts c'.groups := by
    obtain ⟨c₁, hguess₁, hsame₁, h₁⟩ := Holds.guessBlockSize_of_single hblocks hone hmost hold h
    have hold₁ : c₁.blockSize.toNat ∣ size.toNat := hsame₁ ▸ hold
    rw [← hsame₁] at h₁
    rw [detectFrom, hguess₁]
    simp only
    split
    · next hcond =>
        -- the blocks are halved, and grow back
        obtain ⟨heq, hlt⟩ := hcond
        rw [← heq] at hlt ⊢
        have htwo := hhalf hlt
        have hnat : (size / 2).toNat = size.toNat / 2 := UInt64.toNat_div size 2
        obtain ⟨hnonzero, hdvd⟩ := half_of_power hblocks.power htwo
        obtain ⟨c₂, hset, hsame₂, h₂⟩ := h₁.setBlockSize hb hblocks hold₁ hdvd
          (Or.inl (by rw [hsame₁, ← heq]; exact hdvd))
        rw [← hsame₂] at h₂ hdvd
        obtain ⟨c₃, hguess₃, hsame₃, h₃⟩ :=
          Holds.guessBlockSize_of_single hblocks hone hmost hdvd h₂
        rw [if_neg hnonzero, hset]
        simp only
        have hne : size ≠ size / 2 := by
          intro heq'
          rw [← heq'] at hnat
          omega
        rw [detectFrom, hguess₃]
        simp only
        rw [dif_neg fun hcond => hne hcond.1]
        rw [← hsame₃] at h₃ hdvd
        exact h₃.commitGuess hb hblocks hdvd
    · exact h₁.commitGuess hb hblocks hold₁
  refine ⟨c', ?_, hsame, hholds⟩
  rw [Classifier.detectBlockSize, hdetect, Except.map, hsame]

end Detect

/-! ## Filling -/

omit [DecidableEq β] in
/-- Regions that are classified in new groups one by one are held with what was held before. -/
theorem Holds.performRegions (hb : b.NoiseFree bank) (hpos : 0 < size.toNat)
    (hold : c.blockSize.toNat ∣ size.toNat) (hcount : visitCount b.settings c.blockSize < 2 ^ 60)
    {bases addrs : List Address} (haligned : ∀ base ∈ bases, Aligned b.settings size base)
    (h : Holds bank addrs c.groups) :
    ∃ answers c', performAll b (bases.map fun base => .addRegion base true) c = .ok (answers, c')
      ∧ c'.blockSize = c.blockSize
      ∧ Holds bank (cut size c.blockSize (bases.flatMap (regionBlocks b.settings size)) ++ addrs)
          c'.groups := by
  induction bases generalizing c addrs with
  | nil => exact ⟨[], c, rfl, rfl, h⟩
  | cons base rest ih =>
      rw [List.forall_mem_cons] at haligned
      obtain ⟨n, c₁, hadd, hsame₁, -, h₁⟩ := h.addRegion hb haligned.1 hpos hold hcount
      obtain ⟨answers, c', hrun, hsame', h'⟩ :=
        ih (hsame₁ ▸ hold) (hsame₁ ▸ hcount) haligned.2 h₁
      refine ⟨.misses n :: answers, c', ?_, hsame'.trans hsame₁, h'.of_perm ?_⟩
      · rw [List.map_cons, performAll, perform, hadd]
        simp only [Except.map, hrun]
      · rw [hsame₁, List.flatMap_cons, cut, cut, cut, List.flatMap_append, ← List.append_assoc]
        exact List.perm_append_comm.append_right _

/-- The operations that only regroup. -/
def Regroups (op : Operation) : Prop :=
  op = .regroup ∨ ∃ maxRounds, op = .regroupUntilPlausible maxRounds

omit [DecidableEq β] in
/-- Regrouping in any way holds what was held. -/
theorem Holds.performRegroups (hb : b.NoiseFree bank) {ops : List Operation}
    (hops : ∀ op ∈ ops, Regroups op) {addrs : List Address} (h : Holds bank addrs c.groups) :
    ∃ answers c', performAll b ops c = .ok (answers, c') ∧ c'.blockSize = c.blockSize
      ∧ Holds bank addrs c'.groups := by
  induction ops generalizing c with
  | nil => exact ⟨[], c, rfl, rfl, h⟩
  | cons op rest ih =>
      rw [List.forall_mem_cons] at hops
      obtain ⟨answer, c₁, hone, hsame₁, h₁⟩ : ∃ answer c₁, c.perform b op = .ok (answer, c₁)
          ∧ c₁.blockSize = c.blockSize ∧ Holds bank addrs c₁.groups := by
        rcases hops.1 with rfl | ⟨maxRounds, rfl⟩
        · exact ⟨_, _, rfl, blockSize_regroup b c, h.regroup hb⟩
        · exact ⟨_, _, rfl, blockSize_regroupRounds b maxRounds 0 c,
            h.regroupRounds hb maxRounds 0⟩
      obtain ⟨answers, c', hrun, hsame', h'⟩ := ih hops.2 h₁
      refine ⟨answer :: answers, c', ?_, hsame'.trans hsame₁, h'⟩
      rw [performAll, hone]
      simp only [hrun, Except.map]

omit [DecidableEq β] in
/-- Regions whose addresses can be listed are filled from the beginning on, regrouped in any way,
    and held. -/
theorem exists_filled (hb : b.NoiseFree bank) (hpos : 0 < size.toNat)
    (hinit : b.settings.initialBlockSize.toNat ∣ size.toNat)
    (hcount : visitCount b.settings b.settings.initialBlockSize < 2 ^ 60) {bases : List Address}
    (haligned : ∀ base ∈ bases, Aligned b.settings size base) {regroups : List Operation}
    (hregroups : ∀ op ∈ regroups, Regroups op) (s : σ) :
    ∃ answers c,
      performAll b ((bases.map fun base => .addRegion base true) ++ regroups) (empty b s)
          = .ok (answers, c)
        ∧ c.blockSize.toNat ∣ size.toNat
        ∧ Holds bank (cut size c.blockSize (bases.flatMap (regionBlocks b.settings size)))
            c.groups := by
  have hnil : Holds bank [] (empty b s).groups := Holds.nil
  obtain ⟨answers₁, c₁, hfill, hsame₁, h₁⟩ := hnil.performRegions hb hpos hinit hcount haligned
  obtain ⟨answers₂, c, hregroup, hsame₂, h⟩ := h₁.performRegroups hb hregroups
  have hsame : c.blockSize = b.settings.initialBlockSize := hsame₂.trans hsame₁
  rw [List.append_nil] at h
  refine ⟨answers₁ ++ answers₂, c, ?_, hsame ▸ hinit, hsame ▸ h⟩
  rw [performAll_append, hfill]
  simp only [hregroup, Except.map]

omit [DecidableEq β] in
/-- A region is filled only if its addresses can be listed. -/
theorem visitCount_lt_of_filled {s : σ} {bases : List Address} (hbases : bases ≠ [])
    (haligned : ∀ base ∈ bases, Aligned b.settings size base)
    (hpos : 0 < b.settings.initialBlockSize.toNat) {ops : List Operation}
    {r : List Answer × Classifier σ}
    (hrun : performAll b ((bases.map fun base => .addRegion base true) ++ ops) (empty b s) = .ok r) :
    visitCount b.settings b.settings.initialBlockSize < 2 ^ 60 := by
  obtain ⟨base, rest, rfl⟩ := List.exists_cons_of_ne_nil hbases
  have h := haligned base (List.mem_cons_self ..)
  refine Nat.lt_of_not_le fun hmany => ?_
  have hadd : (empty b s).addRegion b true base = .error .capacity :=
    addRegion_eq_capacity h.start_lt h.stop_lt hpos hmany true
  rw [List.map_cons, List.cons_append, performAll, perform, hadd] at hrun
  cases hrun

/-! ## From empty to detected -/

/-- The runs of addresses do not depend on their order. -/
theorem bankRuns_perm {addrs addrs' : List Address} (h : addrs.Perm addrs') (step length : Nat) :
    bankRuns bank addrs step length = bankRuns bank addrs' step length := by
  have hplace : ∀ k n, InBank bank addrs k n ↔ InBank bank addrs' k n := by
    intro k n
    simp only [InBank, h.mem_iff]
  rw [bankRuns, bankRuns, h.countP_eq]
  simp only [maximalRun_congr (hplace _)]

/-- **TRUE SIZE**: let banks be constant on aligned blocks of a size, and let regions be filled
    whose ends are block boundaries, at a power of two that is not larger, and regrouped in any
    way.  If no run of the filled blocks in a bank is more frequent than those of one block, the
    size is detected, and there is one group for every bank, with the filled blocks of it.
    Regions are filled unless their addresses are too many to be listed. -/
theorem detect_finds_size (hb : b.NoiseFree bank) (hminimum : 1 ≤ b.settings.minimumBlockSize)
    (hsize : ∃ k, size.toNat = 2 ^ k) (hinitial : ∃ k, b.settings.initialBlockSize.toNat = 2 ^ k)
    (hle : b.settings.initialBlockSize ≤ size)
    (hconstant : ∀ a x, a / size = x / size → bank a = bank x) {bases filled : List Address}
    (haligned : ∀ base ∈ bases, Aligned b.settings size base)
    (hapart : bases.Pairwise fun p q => ∀ a, InRegion b.settings p a → ¬ InRegion b.settings q a)
    {regroups : List Operation} (hregroups : ∀ op ∈ regroups, Regroups op)
    (hnodup : filled.Nodup)
    (hfilled : ∀ a, a ∈ filled ↔ size.toNat ∣ a.toNat ∧ ∃ base ∈ bases, InRegion b.settings base a)
    (hone : 0 < bankRuns bank filled size.toNat 1)
    (hmost : ∀ length, bankRuns bank filled size.toNat length ≤ bankRuns bank filled size.toNat 1)
    (s : σ) :
    (visitCount b.settings b.settings.initialBlockSize < 2 ^ 60 →
      ∃ answers c,
        performAll b ((bases.map fun base => .addRegion base true) ++ regroups) (empty b s)
          = .ok (answers, c))
      ∧ ∀ answers c,
        performAll b ((bases.map fun base => .addRegion base true) ++ regroups) (empty b s)
            = .ok (answers, c) →
          ∃ c', c.detectBlockSize b = .ok (size, c')
            ∧ ∃ banks : List β, banks.Nodup ∧ (∀ x, x ∈ banks ↔ ∃ a ∈ filled, bank a = x)
              ∧ List.Forall₂ (fun x g => g.members.Perm (filled.filter fun a => bank a = x))
                  banks c'.groups := by
  have hpos := pos_of_power hsize
  have hdvd : b.settings.initialBlockSize.toNat ∣ size.toNat := by
    obtain ⟨k, hk⟩ := hsize
    obtain ⟨i, hi⟩ := hinitial
    rw [UInt64.le_iff_toNat_le, hi, hk] at hle
    rw [hi, hk]
    exact Nat.pow_dvd_pow 2 ((Nat.pow_le_pow_iff_right Nat.one_lt_two).mp hle)
  have hfill := fun hcount => exists_filled hb hpos hdvd hcount haligned hregroups s
  refine ⟨fun hcount => ?_, fun answers c hrun => ?_⟩
  · obtain ⟨answers, c, hrun, -, -⟩ := hfill hcount
    exact ⟨answers, c, hrun⟩
  have hbases : bases ≠ [] := by
    -- a run has a block, which lies in a region
    rintro rfl
    obtain rfl : filled = [] := by
      refine List.eq_nil_iff_forall_not_mem.mpr fun a ha => ?_
      obtain ⟨-, base, hbase, -⟩ := (hfilled a).mp ha
      cases hbase
    exact absurd hone (Nat.lt_irrefl 0)
  have hcount := visitCount_lt_of_filled hbases haligned (pos_of_power hinitial) hrun
  obtain ⟨answers₀, c₀, hrun₀, hold, h⟩ := hfill hcount
  obtain ⟨rfl, rfl⟩ := Prod.mk.inj (Except.ok.inj (hrun₀.symm.trans hrun))
  have hblocks := isBlocks_regions hsize haligned hapart hconstant
  have hperm := regionBlocks_perm hpos haligned hblocks.nodup hnodup hfilled
  simp only [← bankRuns_perm hperm] at hone hmost
  have hhalf : b.settings.minimumBlockSize < size → 2 ≤ size.toNat := by
    intro hlt
    rw [UInt64.lt_iff_toNat_lt] at hlt
    have hminnat : 1 ≤ b.settings.minimumBlockSize.toNat := UInt64.le_iff_toNat_le.mp hminimum
    omega
  obtain ⟨c', hdetect, -, h'⟩ := h.detectBlockSize hb hblocks hold hhalf hone hmost
  exact ⟨c', hdetect, (h'.of_perm hperm).exists_banks⟩

/-- The mask that tells two blocks of 8 KB apart, classified in pages and regrouped. -/
theorem detect_finds_size_two_blocks :
    ∃ answers c c',
      performAll (Bench.simulated { endPage := 4, pagesPerHugeBlock := 4 } [8192])
          (([0].map fun base => .addRegion base true) ++ [.regroup])
          (empty (Bench.simulated { endPage := 4, pagesPerHugeBlock := 4 } [8192]) 0)
          = .ok (answers, c)
        ∧ c.detectBlockSize (Bench.simulated { endPage := 4, pagesPerHugeBlock := 4 } [8192])
            = .ok (8192, c')
        ∧ ∃ banks : List (List UInt64), banks.Nodup
          ∧ (∀ x, x ∈ banks ↔ ∃ a ∈ [0, 8192], parities [8192] a = x)
          ∧ List.Forall₂
              (fun x g => g.members.Perm ([0, 8192].filter fun a => parities [8192] a = x))
              banks c'.groups := by
  have hsize : ∃ k, (8192 : UInt64).toNat = 2 ^ k := ⟨13, by decide⟩
  have hconstant : ∀ a x : Address, a / 8192 = x / 8192 →
      parities [8192] a = parities [8192] x := by
    intro a x heq
    rw [← UInt64.toNat_inj, UInt64.toNat_div, UInt64.toNat_div] at heq
    have hms : ∀ m ∈ [8192], Mask.Within 13 64 m := List.forall_mem_singleton.mpr (by decide)
    exact parities_eq_iff.mpr (Mask.alike_of_div_eq hms heq)
  have hfilled : ∀ a : Address, a ∈ [0, 8192] ↔ (8192 : UInt64).toNat ∣ a.toNat
      ∧ ∃ base ∈ [0], InRegion { endPage := 4, pagesPerHugeBlock := 4 } base a := by
    intro a
    rw [List.mem_cons, List.mem_singleton]
    constructor
    · rintro (rfl | rfl)
      · exact ⟨by decide, 0, List.mem_singleton_self 0, by decide⟩
      · exact ⟨by decide, 0, List.mem_singleton_self 0, by decide⟩
    · rintro ⟨⟨q, hq⟩, base, hbase, hin⟩
      obtain rfl := List.mem_singleton.mp hbase
      have hlt : a.toNat < 16384 := hin.2
      have hq8192 : a.toNat = 8192 * q := hq
      have hcases : q = 0 ∨ q = 1 := by omega
      rcases hcases with rfl | rfl
      · exact Or.inl (UInt64.toNat_inj.mp hq8192)
      · exact Or.inr (UInt64.toNat_inj.mp hq8192)
  have hone : bankRuns (parities [8192]) [0, 8192] (8192 : UInt64).toNat 1 = 2 := by decide +kernel
  have hmost : ∀ length, bankRuns (parities [8192]) [0, 8192] (8192 : UInt64).toNat length
      ≤ bankRuns (parities [8192]) [0, 8192] (8192 : UInt64).toNat 1 := by
    intro length
    rw [hone]
    exact List.countP_le_length
  have haligned : ∀ base ∈ [0], Aligned { endPage := 4, pagesPerHugeBlock := 4 } 8192 base :=
    List.forall_mem_singleton.mpr ⟨by decide, by decide, by decide, by decide⟩
  obtain ⟨hfills, hfinds⟩ := detect_finds_size
    (b := Bench.simulated { endPage := 4, pagesPerHugeBlock := 4 } [8192])
    (Bench.noiseFree_simulated (by decide) _) (by decide) hsize ⟨12, by decide⟩ (by decide)
    hconstant haligned (List.pairwise_singleton _ _) (List.forall_mem_singleton.mpr (Or.inl rfl))
    (by decide) hfilled (hone ▸ Nat.two_pos) hmost 0
  obtain ⟨answers, c, hrun⟩ := hfills (by decide)
  obtain ⟨c', hdetect, hbanks⟩ := hfinds answers c hrun
  exact ⟨answers, c, c', hrun, hdetect, hbanks⟩

end DramBanks.Classifier
