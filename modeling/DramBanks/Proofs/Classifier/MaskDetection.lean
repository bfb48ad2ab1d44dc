import DramBanks.Proofs.Classifier.Pairs
/-!
# Detection on memory with masks

    Let bit `k` be the lowest bit of independent masks.  Blocks of `2 ^ k`
    bytes lie in one bank each, and the halves of a double block, which
    differ in bit `k`, do not (`parities_ne_of_halves`).

    Which size is detected in a complete huge block depends on how the masks
    overlap: it is that of the blocks if runs of two of them are not more
    frequent than those of one (`detect_complete`), which one mask with one
    of the bits `k` and `k + 1` ensures.  Otherwise it is twice as large, and
    nothing is left of the groups (`detect_complete_double`). -/

namespace DramBanks.Classifier

open Mask

/-! ## Masks -/

section Masks

variable {ms : List Mask} {k : Nat} {m : Mask}

theorem toNat_xor_of_dvd {e d : Nat} {a x : Address} (ha : 2 ^ e ∣ a.toNat) (hd : d < 2 ^ e)
    (hx : x.toNat = a.toNat + d) : (x ^^^ a).toNat = d := by
  obtain ⟨q, hq⟩ := ha
  rw [UInt64.toNat_xor, hx, hq, toNat_two_pow_mul_add_xor hd]

theorem reads_ne_of_alike {a x : Address} (h : Alike ms a x) (hm : m ∈ ms) :
    reads m (x ^^^ a) = false := by
  rw [reads_xor, alike_iff.mp h m hm, Bool.xor_self]

/-- A mask with a bit tells apart what differs in this bit alone. -/
theorem not_alike_of_bit (hk : k < 64) (hm : m ∈ ms) (hbit : m.toNat.testBit k = true)
    {a x : Address} (ha : 2 ^ (k + 1) ∣ a.toNat) (hx : x.toNat = a.toNat + 2 ^ k) :
    ¬ Alike ms a x := by
  intro halike
  have hxor : x ^^^ a = Bits.bit k := by
    refine UInt64.toNat_inj.mp ?_
    rw [toNat_xor_of_dvd ha (Nat.pow_lt_pow_right Nat.one_lt_two (Nat.lt_succ_self k)) hx,
      Bits.toNat_bit hk]
  have hread := reads_ne_of_alike halike hm
  rw [hxor, reads_bit hk, hbit] at hread
  cases hread

/-- A mask with one of two bits tells apart what differs in both alone. -/
theorem not_alike_of_two_bits (hk : k + 1 < 64) (hm : m ∈ ms)
    (hbits : m.toNat.testBit k ≠ m.toNat.testBit (k + 1)) {a x : Address}
    (ha : a.toNat % 2 ^ (k + 2) = 2 ^ k) (hx : x.toNat = a.toNat + 2 ^ k) : ¬ Alike ms a x := by
  intro halike
  have hsplit := Nat.div_add_mod a.toNat (2 ^ (k + 2))
  rw [ha] at hsplit
  -- the address in front, which has neither bit
  have hlt := UInt64.toNat_lt a
  have ho : (UInt64.ofNat (2 ^ (k + 2) * (a.toNat / 2 ^ (k + 2)))).toNat
      = 2 ^ (k + 2) * (a.toNat / 2 ^ (k + 2)) := by
    rw [UInt64.toNat_ofNat']
    exact Nat.mod_eq_of_lt (by omega)
  have hdvd : 2 ^ (k + 2) ∣ (UInt64.ofNat (2 ^ (k + 2) * (a.toNat / 2 ^ (k + 2)))).toNat :=
    ⟨_, ho⟩
  have hpow : 2 ^ k + 2 ^ k = 2 ^ (k + 1) := by rw [Nat.pow_succ, Nat.mul_two]
  have hxa : a ^^^ UInt64.ofNat (2 ^ (k + 2) * (a.toNat / 2 ^ (k + 2))) = Bits.bit k := by
    refine UInt64.toNat_inj.mp ?_
    rw [toNat_xor_of_dvd hdvd (d := 2 ^ k) (Nat.pow_lt_pow_right Nat.one_lt_two (by omega))
      (by omega), Bits.toNat_bit (by omega)]
  have hxx : x ^^^ UInt64.ofNat (2 ^ (k + 2) * (a.toNat / 2 ^ (k + 2))) = Bits.bit (k + 1) := by
    refine UInt64.toNat_inj.mp ?_
    rw [toNat_xor_of_dvd hdvd (d := 2 ^ (k + 1)) (Nat.pow_lt_pow_right Nat.one_lt_two (by omega))
      (by omega), Bits.toNat_bit hk]
  have hreads := alike_iff.mp halike m hm
  have hbit : reads m (a ^^^ x) = (m.toNat.testBit k ^^ m.toNat.testBit (k + 1)) := by
    rw [← reads_bit hk, ← reads_bit (Nat.lt_of_succ_lt hk), ← hxa, ← hxx, reads_xor, reads_xor,
      reads_xor]
    cases reads m a <;> cases reads m x <;>
      cases reads m (UInt64.ofNat (2 ^ (k + 2) * (a.toNat / 2 ^ (k + 2)))) <;> rfl
  rw [reads_xor, hreads, Bool.xor_self] at hbit
  exact hbits (by simpa using hbit.symm)

/-- Independent masks have a lowest bit. -/
theorem exists_lowest {s n : Nat} (hne : ms ≠ []) (hind : Independent ms)
    (hms : ∀ m ∈ ms, Within s n m) :
    ∃ k, s ≤ k ∧ k < n ∧ (∀ m ∈ ms, Within k n m) ∧ ∃ m ∈ ms, m.toNat.testBit k = true := by
  obtain ⟨m, hm⟩ := List.exists_mem_of_ne_nil ms hne
  have hnonzero : m ≠ 0 := by
    have hone := hind [m] (List.singleton_sublist.mpr hm) (List.cons_ne_nil _ _)
    rintro rfl
    exact hone rfl
  obtain ⟨i, hi⟩ := Bits.exists_testBit hnonzero
  have hexists : ∃ k, ∃ m ∈ ms, m.toNat.testBit k = true := ⟨i, m, hm, hi⟩
  obtain ⟨m', hm', hbit⟩ := Nat.find_spec hexists
  refine ⟨Nat.find hexists, (hms m' hm' _ hbit).1, (hms m' hm' _ hbit).2, ?_, m', hm', hbit⟩
  intro l hl j hj
  exact ⟨Nat.find_min' hexists ⟨l, hl, hj⟩, (hms l hl j hj).2⟩

end Masks

/-! ## Complete huge blocks -/

section Detect

variable {σ : Type} {b : Bench σ} {ms : List Mask} {n k : Nat} {base size : UInt64}
  {c : Classifier σ} (hregion : Complete b.settings n base) (hkn : k < n)
  (hsize : size.toNat = 2 ^ k) (hms : ∀ m ∈ ms, Within k n m)
  (hbit : ∃ m ∈ ms, m.toNat.testBit k = true)

include hsize

theorem two_mul_size : 2 * size.toNat = 2 ^ (k + 1) := by
  rw [hsize, Nat.pow_succ, Nat.mul_comm]

include hbit in
/-- The halves of a double block lie in different banks. -/
theorem parities_ne_of_halves (a x : Address) (ha : 2 * size.toNat ∣ a.toNat)
    (hx : x.toNat = a.toNat + size.toNat) : parities ms a ≠ parities ms x := by
  obtain ⟨m, hm, htest⟩ := hbit
  rw [two_mul_size hsize] at ha
  rw [hsize] at hx
  intro heq
  exact not_alike_of_bit (Bits.lt_of_testBit htest) hm htest ha hx (parities_eq_iff.mp heq)

/-- The two middle ones of four aligned blocks lie in different banks if a mask has exactly one of
    the lowest two bits. -/
theorem parities_ne_of_middle (hk : k + 1 < 64)
    (hbits : ∃ m ∈ ms, m.toNat.testBit k ≠ m.toNat.testBit (k + 1)) (a x : Address)
    (ha : a.toNat % (4 * size.toNat) = size.toNat) (hx : x.toNat = a.toNat + size.toNat) :
    parities ms a ≠ parities ms x := by
  obtain ⟨m, hm, htests⟩ := hbits
  have hfour : 4 * size.toNat = 2 ^ (k + 2) := by rw [hsize, Nat.pow_add, Nat.mul_comm]
  rw [hfour, hsize] at ha
  rw [hsize] at hx
  intro heq
  exact not_alike_of_two_bits hk hm htests ha hx (parities_eq_iff.mp heq)

include hregion hkn

theorem mem_blocks_iff {a : Address} : a ∈ regionBlocks b.settings size base ↔
    size.toNat ∣ a.toNat ∧ base.toNat ≤ a.toNat ∧ a.toNat < base.toNat + 2 ^ n := by
  rw [(hregion.aligned_of_le hkn.le hsize).mem_regionBlocks_iff (pos_of_power ⟨k, hsize⟩), InRegion,
    hregion.start, hregion.stop]
  rfl

theorem double_dvd_base : 2 * size.toNat ∣ base.toNat := by
  rw [two_mul_size hsize]
  exact Nat.dvd_trans (Nat.pow_dvd_pow 2 hkn) hregion.aligned

/-- The second half of a double block has the first half in front of it. -/
theorem mem_blocks_front {a : Address} (ha : a ∈ regionBlocks b.settings size base)
    (hodd : ¬ 2 * size.toNat ∣ a.toNat) :
    size.toNat ≤ a.toNat ∧ a - size ∈ regionBlocks b.settings size base := by
  have hpos := pos_of_power ⟨k, hsize⟩
  have hbase := double_dvd_base hregion hkn hsize
  rw [mem_blocks_iff hregion hkn hsize] at ha ⊢
  obtain ⟨hdvd, hle, hlt⟩ := ha
  have hbehind : base.toNat + size.toNat ≤ a.toNat := by
    have hne : a.toNat - base.toNat ≠ 0 := by
      intro hzero
      have heq : a.toNat = base.toNat := by omega
      exact hodd (heq ▸ hbase)
    have hdiff := Nat.le_of_dvd (Nat.pos_of_ne_zero hne)
      (Nat.dvd_sub hdvd (Nat.dvd_trans (Nat.dvd_mul_left _ 2) hbase))
    omega
  have hsizele : size.toNat ≤ a.toNat := by omega
  have hsub : (a - size).toNat = a.toNat - size.toNat :=
    UInt64.toNat_sub_of_le _ _ (UInt64.le_iff_toNat_le.mpr hsizele)
  rw [hsub]
  exact ⟨hsizele, Nat.dvd_sub hdvd dvd_rfl, by omega, by omega⟩

include hbit in
/-- The first block of all is a run of one block. -/
theorem bankRuns_one_pos_complete :
    0 < bankRuns (parities ms) (regionBlocks b.settings size base) size.toNat 1 := by
  have hpos := pos_of_power ⟨k, hsize⟩
  have hbase := double_dvd_base hregion hkn hsize
  have hmem : base ∈ regionBlocks b.settings size base := by
    rw [mem_blocks_iff hregion hkn hsize]
    exact ⟨Nat.dvd_trans (Nat.dvd_mul_left _ 2) hbase, Nat.le_refl _,
      Nat.lt_add_of_pos_right (Nat.two_pow_pos n)⟩
  refine bankRuns_one_pos (parities_ne_of_halves hsize hbit) hmem hbase ?_
  rintro hle ⟨x, hx, hnat, -⟩
  have hfirst := ((mem_blocks_iff hregion hkn hsize).mp hx).2.1
  omega

omit hsize in
/-- A complete huge block that is classified in pages and regrouped. -/
theorem exists_filled_in_pages (hsize : size.toNat = 2 ^ k) (hb : b.NoiseFree (parities ms))
    (hk : 12 ≤ k) (hinitial : b.settings.initialBlockSize = 4096) {regroups : List Operation}
    (hregroups : ∀ op ∈ regroups, Regroups op) (s : σ) :
    ∃ answers c, performAll b (.addRegion base true :: regroups) (empty b s) = .ok (answers, c)
      ∧ c.blockSize.toNat ∣ size.toNat
      ∧ Holds (parities ms) (cut size c.blockSize (regionBlocks b.settings size base))
          c.groups := by
  have hpage : (4096 : UInt64).toNat = 2 ^ 12 := by decide
  have hinit : b.settings.initialBlockSize.toNat ∣ size.toNat := by
    rw [hinitial, hsize, hpage]
    exact Nat.pow_dvd_pow 2 hk
  have hcount : visitCount b.settings b.settings.initialBlockSize < 2 ^ 60 := by
    have hword := hregion.lt_word
    rw [hinitial, hregion.visitCount_eq (Nat.le_trans hk hkn.le) hpage]
    exact Nat.pow_lt_pow_right Nat.one_lt_two (by omega)
  have hfill := exists_filled hb (pos_of_power ⟨k, hsize⟩) hinit hcount
    (List.forall_mem_singleton.mpr (hregion.aligned_of_le hkn.le hsize)) hregroups s
  rwa [List.flatMap_singleton] at hfill

include hms hbit

/-- Runs of one block that are frequent enough lead to the size of the blocks. -/
theorem detect_complete (hb : b.NoiseFree (parities ms)) (hk : 1 ≤ k)
    (hold : c.blockSize.toNat ∣ size.toNat)
    (h : Holds (parities ms) (cut size c.blockSize (regionBlocks b.settings size base)) c.groups)
    (hle : bankRuns (parities ms) (regionBlocks b.settings size base) size.toNat 2
      ≤ bankRuns (parities ms) (regionBlocks b.settings size base) size.toNat 1) :
    ∃ c', c.detectBlockSize b = .ok (size, c') ∧ (∀ g ∈ c'.groups, g.members ≠ [])
      ∧ ∀ a x, a / size = x / size → Alike ms a x := by
  have hblocks := hregion.isBlocks hkn.le hsize hms
  have hsplit := parities_ne_of_halves hsize hbit
  have hmost : ∀ length,
      bankRuns (parities ms) (regionBlocks b.settings size base) size.toNat length
      ≤ bankRuns (parities ms) (regionBlocks b.settings size base) size.toNat 1 := by
    intro length
    rcases Nat.lt_or_ge length 3 with hlt | hge
    · have hcases : length = 0 ∨ length = 1 ∨ length = 2 := by omega
      rcases hcases with rfl | rfl | rfl
      · rw [bankRuns_zero]
        exact Nat.zero_le _
      · exact Nat.le_refl _
      · exact hle
    · rw [bankRuns_of_three_le hblocks hsplit hge]
      exact Nat.zero_le _
  have htwo : 2 ≤ size.toNat := hsize ▸ Nat.pow_le_pow_right Nat.two_pos hk
  obtain ⟨c', hdetect, -, hholds⟩ := h.detectBlockSize hb hblocks hold (fun _ => htwo)
    (bankRuns_one_pos_complete hregion hkn hsize hbit) hmost
  exact ⟨c', hdetect, hholds.filled,
    fun a x heq => parities_eq_iff.mp (hblocks.constant a x heq)⟩

/-- Runs of two blocks that are more frequent lead to double blocks, and to nothing else. -/
theorem detect_complete_double (hold : c.blockSize.toNat ∣ size.toNat)
    (h : Holds (parities ms) (cut size c.blockSize (regionBlocks b.settings size base)) c.groups)
    (hmore : bankRuns (parities ms) (regionBlocks b.settings size base) size.toNat 1
      < bankRuns (parities ms) (regionBlocks b.settings size base) size.toNat 2) :
    ∃ c', c.detectBlockSize b = .ok (2 * size, c') ∧ c'.groups ≠ []
      ∧ (∀ g ∈ c'.groups, g.members = [])
      ∧ ¬ ∀ a x, a / (2 * size) = x / (2 * size) → Alike ms a x := by
  have hword := hregion.lt_word
  have hroom := hregion.lt
  have hdouble : (2 * size).toNat = 2 * size.toNat := by
    rw [UInt64.toNat_mul]
    refine Nat.mod_eq_of_lt ?_
    show 2 * size.toNat < 2 ^ 64
    rw [two_mul_size hsize]
    exact Nat.pow_lt_pow_right Nat.one_lt_two (by omega)
  have hpower : ∃ j, (2 * size).toNat = 2 ^ j := ⟨k + 1, hdouble.trans (two_mul_size hsize)⟩
  have hsplit := parities_ne_of_halves hsize hbit
  obtain ⟨c', hdetect, hne, hempty⟩ := h.detectBlockSize_double (b := b) hdouble hpower hsplit
    (hregion.isBlocks hkn.le hsize hms) hold hmore
  refine ⟨c', hdetect, hne, hempty, ?_⟩
  intro hconstant
  -- the first two blocks make up a double block
  have hbase := double_dvd_base hregion hkn hsize
  have hpow : 2 ^ k ≤ 2 ^ n := Nat.pow_le_pow_right Nat.two_pos hkn.le
  have hsecond : (base + size).toNat = base.toNat + size.toNat := by
    rw [UInt64.toNat_add]
    exact Nat.mod_eq_of_lt (by omega)
  have hsame : base / (2 * size) = (base + size) / (2 * size) := by
    obtain ⟨q, hq⟩ := hbase
    have hpos := pos_of_power ⟨k, hsize⟩
    rw [← UInt64.toNat_inj, UInt64.toNat_div, UInt64.toNat_div, hsecond, hdouble, hq,
      Nat.mul_add_div (by omega), Nat.mul_div_cancel_left _ (by omega),
      Nat.div_eq_of_lt (a := size.toNat) (by omega), Nat.add_zero]
  exact hsplit base (base + size) hbase hsecond (parities_eq_iff.mpr (hconstant _ _ hsame))

end Detect

/-- **MASKS**: without noise, the huge block of some independent masks is detected to have blocks
    up to their lowest bit `k`, which the groups hold, if among the maximal runs of these blocks
    those of two are not more frequent than those of one.  This is so if a mask has exactly
    one of the bits `k` and `k + 1`.  If runs of two are more frequent, blocks of twice the size
    are detected, which do not lie in one bank, and all groups are emptied. -/
theorem detect_on_masks {σ : Type} {b : Bench σ} {ms : List Mask} {n : Nat} {base : Address}
    (hb : b.NoiseFree (parities ms)) (hregion : Complete b.settings n base)
    (hinitial : b.settings.initialBlockSize = 4096) (hne : ms ≠ []) (hind : Independent ms)
    (hms : ∀ m ∈ ms, Within 12 n m) {regroups : List Operation}
    (hregroups : ∀ op ∈ regroups, Regroups op) (s : σ) :
    ∃ k size, 12 ≤ k ∧ k < n ∧ (∀ m ∈ ms, Within k n m)
      ∧ (∃ m ∈ ms, m.toNat.testBit k = true) ∧ size.toNat = 2 ^ k
      ∧ ∃ answers c, performAll b (.addRegion base true :: regroups) (empty b s) = .ok (answers, c)
        ∧ (bankRuns (parities ms) (progression base size (2 ^ (n - k))) (2 ^ k) 2
              ≤ bankRuns (parities ms) (progression base size (2 ^ (n - k))) (2 ^ k) 1 →
            ∃ c', c.detectBlockSize b = .ok (size, c') ∧ (∀ g ∈ c'.groups, g.members ≠ [])
              ∧ ∀ a x, a / size = x / size → Alike ms a x)
        ∧ (bankRuns (parities ms) (progression base size (2 ^ (n - k))) (2 ^ k) 1
              < bankRuns (parities ms) (progression base size (2 ^ (n - k))) (2 ^ k) 2 →
            ∃ c', c.detectBlockSize b = .ok (2 * size, c') ∧ c'.groups ≠ []
              ∧ (∀ g ∈ c'.groups, g.members = [])
              ∧ ¬ ∀ a x, a / (2 * size) = x / (2 * size) → Alike ms a x)
        ∧ ((∃ m ∈ ms, m.toNat.testBit k ≠ m.toNat.testBit (k + 1)) →
            bankRuns (parities ms) (progression base size (2 ^ (n - k))) (2 ^ k) 2
              ≤ bankRuns (parities ms) (progression base size (2 ^ (n - k))) (2 ^ k) 1) := by
  obtain ⟨k, hk12, hkn, hlow, hbit⟩ := exists_lowest hne hind hms
  have hword := hregion.lt_word
  have hsize : (UInt64.ofNat (2 ^ k)).toNat = 2 ^ k := toNat_ofNat_two_pow (by omega)
  generalize UInt64.ofNat (2 ^ k) = size at hsize
  have hblocks := hregion.isBlocks hkn.le hsize hlow
  have hsplit := parities_ne_of_halves hsize hbit
  obtain ⟨answers, c, hrun, hold, hholds⟩ :=
    exists_filled_in_pages hregion hkn hsize hb hk12 hinitial hregroups s
  refine ⟨k, size, hk12, hkn, hlow, hbit, hsize, answers, c, hrun, ?_⟩
  rw [← hregion.regionBlocks_eq hkn.le hsize, ← hsize]
  refine ⟨?_, ?_, ?_⟩
  · exact detect_complete hregion hkn hsize hlow hbit hb (by omega) hold hholds
  · exact detect_complete_double hregion hkn hsize hlow hbit hold hholds
  · intro hbits
    exact bankRuns_two_le_one hblocks (fun a ha => mem_blocks_front hregion hkn hsize ha) hsplit
      (parities_ne_of_middle hsize (by omega) hbits)

/-- A huge block of 2 MB with four banks, and with the settings that are the default. -/
theorem detect_on_masks_four_banks :
    ∃ k size, 12 ≤ k ∧ k < 21 ∧ (∀ m ∈ [24576, 81920], Within k 21 m)
      ∧ (∃ m ∈ ([24576, 81920] : List Mask), m.toNat.testBit k = true) ∧ size.toNat = 2 ^ k
      ∧ ∃ answers c,
          performAll (Bench.simulated {} [24576, 81920])
              [.addRegion 6291456 true, .regroupUntilPlausible 64]
              (empty (Bench.simulated {} [24576, 81920]) 0) = .ok (answers, c)
        ∧ (bankRuns (parities [24576, 81920]) (progression 6291456 size (2 ^ (21 - k))) (2 ^ k) 2
              ≤ bankRuns (parities [24576, 81920]) (progression 6291456 size (2 ^ (21 - k))) (2 ^ k)
                1 →
            ∃ c', c.detectBlockSize (Bench.simulated {} [24576, 81920]) = .ok (size, c')
              ∧ (∀ g ∈ c'.groups, g.members ≠ [])
              ∧ ∀ a x, a / size = x / size → Alike [24576, 81920] a x)
        ∧ (bankRuns (parities [24576, 81920]) (progression 6291456 size (2 ^ (21 - k))) (2 ^ k) 1
              < bankRuns (parities [24576, 81920]) (progression 6291456 size (2 ^ (21 - k))) (2 ^ k)
                2 →
            ∃ c', c.detectBlockSize (Bench.simulated {} [24576, 81920]) = .ok (2 * size, c')
              ∧ c'.groups ≠ [] ∧ (∀ g ∈ c'.groups, g.members = [])
              ∧ ¬ ∀ a x, a / (2 * size) = x / (2 * size) → Alike [24576, 81920] a x)
        ∧ ((∃ m ∈ ([24576, 81920] : List Mask), m.toNat.testBit k ≠ m.toNat.testBit (k + 1)) →
            bankRuns (parities [24576, 81920]) (progression 6291456 size (2 ^ (21 - k))) (2 ^ k) 2
              ≤ bankRuns (parities [24576, 81920]) (progression 6291456 size (2 ^ (21 - k))) (2 ^ k)
                1) := by
  have hregion : Complete {} 21 6291456 := ⟨rfl, by decide, by decide, by decide⟩
  have hind : Independent [24576, 81920] := by
    rw [independent_cons, ← mem_sums, independent_cons, ← mem_sums]
    exact ⟨by decide, by decide, independent_nil⟩
  have hms : ∀ m ∈ [24576, 81920], Within 12 21 m := by
    rw [List.forall_mem_cons]
    exact ⟨by decide, List.forall_mem_singleton.mpr (by decide)⟩
  exact detect_on_masks (b := Bench.simulated {} [24576, 81920])
    (Bench.noiseFree_simulated (by decide) _) hregion rfl (by decide) hind hms
    (List.forall_mem_singleton.mpr (Or.inr ⟨64, rfl⟩)) 0

/-- The mask of bits 12 and 13: of 16 pages, the first and the last one are runs, and the others
    are seven runs of two pages. -/
theorem detect_empties_groups :
    (Bench.simulated { pagesPerHugeBlock := 16, endPage := 16 } [12288]).NoiseFree
        (parities [12288])
      ∧ Complete { pagesPerHugeBlock := 16, endPage := 16 } 16 0
      ∧ Independent [12288] ∧ (∀ m ∈ [12288], Within 12 16 m)
      ∧ ∃ answers c c',
          performAll (Bench.simulated { pagesPerHugeBlock := 16, endPage := 16 } [12288])
              [.addRegion 0 true, .regroup]
              (empty (Bench.simulated { pagesPerHugeBlock := 16, endPage := 16 } [12288]) 0)
            = .ok (answers, c)
          ∧ c.detectBlockSize (Bench.simulated { pagesPerHugeBlock := 16, endPage := 16 } [12288])
            = .ok (8192, c')
          ∧ (∃ g ∈ c'.groups, g.members = [])
          ∧ ¬ ∀ a x, a / 8192 = x / 8192 → Alike [12288] a x := by
  have hnoise : (Bench.simulated { pagesPerHugeBlock := 16, endPage := 16 } [12288]).NoiseFree
      (parities [12288]) := Bench.noiseFree_simulated (by decide) _
  have hregion : Complete { pagesPerHugeBlock := 16, endPage := 16 } 16 0 :=
    ⟨rfl, by decide, by decide, by decide⟩
  have hind : Independent [12288] := by
    rw [independent_cons, ← mem_sums]
    exact ⟨by decide, independent_nil⟩
  have hms : ∀ m ∈ [12288], Within 12 16 m := List.forall_mem_singleton.mpr (by decide)
  have hbit : ∃ m ∈ ([12288] : List Mask), m.toNat.testBit 12 = true :=
    ⟨12288, List.mem_singleton_self _, by decide⟩
  have hsize : (4096 : UInt64).toNat = 2 ^ 12 := by decide
  obtain ⟨answers, c, hrun, hold, hholds⟩ := exists_filled_in_pages
    (b := Bench.simulated { pagesPerHugeBlock := 16, endPage := 16 } [12288]) hregion (by decide)
    hsize hnoise (Nat.le_refl 12) rfl (List.forall_mem_singleton.mpr (Or.inl rfl)) 0
  have hmore : bankRuns (parities [12288])
        (regionBlocks { pagesPerHugeBlock := 16, endPage := 16 } 4096 0) (4096 : UInt64).toNat 1
      < bankRuns (parities [12288])
        (regionBlocks { pagesPerHugeBlock := 16, endPage := 16 } 4096 0)
          (4096 : UInt64).toNat 2 := by
    decide +kernel
  obtain ⟨c', hdetect, hne, hempty, hnot⟩ :=
    detect_complete_double hregion (by decide) hsize hms hbit hold hholds hmore
  obtain ⟨g, hg⟩ := List.exists_mem_of_ne_nil _ hne
  exact ⟨hnoise, hregion, hind, hms, answers, c, c', hrun, hdetect, ⟨g, hg, hempty g hg⟩, hnot⟩

end DramBanks.Classifier
