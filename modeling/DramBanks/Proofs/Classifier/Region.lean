import DramBanks.Proofs.Classifier.Resizing
import DramBanks.Proofs.Mask.Coset
/-!
# The blocks of a huge block

    The part of a huge block that is classified runs from one page to
    another, in steps of the block size from its first address on, unless
    the list of these addresses would be larger than the address space
    (`regionAddresses_eq`).  When both ends lie on block boundaries,
    classifying it at any size that divides the blocks classifies the cut
    of its blocks (`Aligned.regionBlocks_eq_cut`).

    Banks that are given by masks are constant on blocks that end below the
    bits of the masks, and groups that hold the blocks of a complete huge
    block are the classes of these under the masks. -/

namespace DramBanks

open Mask

/-! ## Banks of masks -/

theorem parities_eq_iff {ms : List Mask} {a x : Address} :
    parities ms a = parities ms x ↔ Alike ms a x := List.map_inj_left

/-- Masks do not see the bits inside a block below their own bits. -/
theorem Mask.alike_of_div_eq {s n : Nat} {ms : List Mask} (hms : ∀ m ∈ ms, Within s n m)
    {a x : Address} (h : a.toNat / 2 ^ s = x.toNat / 2 ^ s) : Alike ms a x := by
  intro m hm
  have hand : a &&& m = x &&& m := by
    refine Bits.eq_of_testBit fun i => ?_
    rw [UInt64.toNat_and, UInt64.toNat_and, Nat.testBit_and, Nat.testBit_and]
    cases hbit : m.toNat.testBit i with
    | false => rw [Bool.and_false, Bool.and_false]
    | true =>
        obtain ⟨j, rfl⟩ := Nat.exists_eq_add_of_le (hms m hm i hbit).1
        rw [Nat.add_comm s j, ← Nat.testBit_div_two_pow, ← Nat.testBit_div_two_pow, h]
  rw [hand]

/-- Banks of masks above the blocks are constant on them. -/
theorem parities_eq_of_div_eq {k n : Nat} {ms : List Mask} (hms : ∀ m ∈ ms, Within k n m)
    {size : UInt64} (hsize : size.toNat = 2 ^ k) (a x : Address) (heq : a / size = x / size) :
    parities ms a = parities ms x := by
  rw [← UInt64.toNat_inj, UInt64.toNat_div, UInt64.toNat_div, hsize] at heq
  exact parities_eq_iff.mpr (alike_of_div_eq hms heq)

namespace Classifier

variable {σ β : Type} {b : Bench σ} {bank : Address → β} {c : Classifier σ}

/-- Groups that hold addresses by the parities of masks are their classes under the masks. -/
theorem Holds.isClassification {ms : List Mask} {addrs : List Address} {groups : List Group}
    (h : Holds (parities ms) addrs groups) :
    IsClassification ms addrs (groups.map Group.members) := by
  refine ⟨h.perm, ?_, ?_, ?_⟩
  · intro g hg
    obtain ⟨k, hk, rfl⟩ := List.mem_map.mp hg
    exact h.filled k hk
  · intro g hg a ha x hx
    obtain ⟨k, hk, rfl⟩ := List.mem_map.mp hg
    exact parities_eq_iff.mp (h.partition.pure k hk a ha x hx)
  · rw [List.pairwise_map]
    exact h.partition.apart.imp fun hapart a ha x hx halike =>
      hapart a ha x hx (parities_eq_iff.mpr halike)

/-! ## Regions -/

variable {s : Settings} {size step : UInt64} {base : Address}

/-- The classified part of the huge block at `base` begins and ends on block boundaries. -/
structure Aligned (s : Settings) (size : UInt64) (base : Address) : Prop where
  start_lt : base.toNat + s.startPage.toNat * 4096 < 2 ^ 64
  stop_lt : base.toNat + s.endPage.toNat * 4096 < 2 ^ 64
  start : size.toNat ∣ base.toNat + s.startPage.toNat * 4096
  stop : size.toNat ∣ base.toNat + s.endPage.toNat * 4096

/-- The address lies in the classified part of the huge block at `base`. -/
def InRegion (s : Settings) (base a : Address) : Prop :=
  base.toNat + s.startPage.toNat * 4096 ≤ a.toNat ∧ a.toNat < base.toNat + s.endPage.toNat * 4096

instance (s : Settings) (base a : Address) : Decidable (InRegion s base a) :=
  inferInstanceAs (Decidable (_ ∧ _))

/-- How many addresses of a region are visited. -/
def visitCount (s : Settings) (size : UInt64) : Nat :=
  ((s.endPage.toNat - s.startPage.toNat) * 4096 + size.toNat - 1) / size.toNat

/-- The addresses at which a region is classified: from its first address on, `size` apart. -/
def visited (s : Settings) (size : UInt64) (base : Address) : List Address :=
  progression (base + s.startPage * Page.size) size (visitCount s size)

/-- The starts of the blocks in the classified part of the huge block at `base`. -/
def regionBlocks (s : Settings) (size : UInt64) (base : Address) : List Address :=
  progression (base + s.startPage * Page.size) size
    ((s.endPage.toNat - s.startPage.toNat) * 4096 / size.toNat)

theorem pageAddress_eq {page : UInt64} (h : base.toNat + page.toNat * 4096 < 2 ^ 64) :
    pageAddress base page = .ok (base + page * Page.size)
      ∧ (base + page * Page.size).toNat = base.toNat + page.toNat * 4096 := by
  have hbytes : Page.bytes page = .ok (page * Page.size) :=
    Word.mul_of_lt (show page.toNat * 4096 < 2 ^ 64 by omega)
  have hnat : (page * Page.size).toNat = page.toNat * 4096 := Word.toNat_of_mul hbytes
  have hadd : Word.add base (page * Page.size) = .ok (base + page * Page.size) :=
    if_pos (show base.toNat + (page * Page.size).toNat < 2 ^ 64 by rw [hnat]; exact h)
  refine ⟨?_, ?_⟩
  · rw [pageAddress, hbytes]
    exact hadd
  · rw [Word.toNat_of_add hadd, hnat]

/-- A visit follows as long as the region goes on. -/
theorem lt_visitCount_iff (hpos : 0 < size.toNat) {i : Nat} :
    i < visitCount s size ↔ i * size.toNat < (s.endPage.toNat - s.startPage.toNat) * 4096 := by
  rw [visitCount, ← Nat.succ_le_iff, Nat.le_div_iff_mul_le hpos, Nat.succ_mul]
  omega

/-- A region is not visited more often than it has bytes. -/
theorem visitCount_le (hpos : 0 < size.toNat) :
    visitCount s size ≤ (s.endPage.toNat - s.startPage.toNat) * 4096 := by
  refine Nat.le_of_not_lt fun hlt => ?_
  rw [lt_visitCount_iff hpos] at hlt
  exact absurd (Nat.le_mul_of_pos_right _ hpos) (Nat.not_le_of_lt hlt)

/-- In larger blocks a region is visited less often. -/
theorem visitCount_anti (hpos : 0 < step.toNat) (hle : step.toNat ≤ size.toNat) :
    visitCount s size ≤ visitCount s step := by
  refine Nat.le_of_not_lt fun hlt => Nat.lt_irrefl (visitCount s step) ?_
  rw [lt_visitCount_iff (Nat.lt_of_lt_of_le hpos hle)] at hlt
  exact (lt_visitCount_iff hpos).mpr (Nat.lt_of_le_of_lt (Nat.mul_le_mul_left _ hle) hlt)

section Visited

variable (hstart : base.toNat + s.startPage.toNat * 4096 < 2 ^ 64)
  (hstop : base.toNat + s.endPage.toNat * 4096 < 2 ^ 64) (hpos : 0 < size.toNat)

include hstart hstop hpos

/-- The addresses of a region are listed, unless there are too many of them. -/
theorem regionAddresses_eq : regionAddresses s base size
    = if 2 ^ 60 ≤ visitCount s size then .error .capacity else .ok (visited s size base) := by
  obtain ⟨hfirst, hfirstnat⟩ := pageAddress_eq hstart
  obtain ⟨hlast, hlastnat⟩ := pageAddress_eq hstop
  have hcount : blockCount (base + s.startPage * Page.size) (base + s.endPage * Page.size) size
      = visitCount s size := by
    rw [blockCount, hfirstnat, hlastnat, Nat.add_sub_add_left, ← Nat.sub_mul, visitCount]
  rw [regionAddresses, hfirst, hlast]
  show blocksBetween _ _ size = _
  rw [blocksBetween, if_neg (toNat_pos_iff.mp hpos), hcount]
  rfl

/-- The visited addresses are those of the region in steps from where it begins. -/
theorem mem_visited_iff {a : Address} :
    a ∈ visited s size base ↔ InRegion s base a
      ∧ size.toNat ∣ a.toNat - (base.toNat + s.startPage.toNat * 4096) := by
  have hnat : ∀ i, i * size.toNat < (s.endPage.toNat - s.startPage.toNat) * 4096 →
      (base + s.startPage * Page.size + UInt64.ofNat i * size).toNat
        = base.toNat + s.startPage.toNat * 4096 + i * size.toNat := by
    intro i hi
    rw [toNat_add_mul (by rw [(pageAddress_eq hstart).2]; omega), (pageAddress_eq hstart).2]
  rw [visited, progression, List.mem_map, InRegion]
  constructor
  · rintro ⟨i, hi, rfl⟩
    rw [List.mem_range, lt_visitCount_iff hpos] at hi
    rw [hnat i hi, Nat.add_sub_cancel_left]
    exact ⟨⟨by omega, by omega⟩, Nat.dvd_mul_left _ _⟩
  · rintro ⟨⟨hle, hlt⟩, i, hi⟩
    rw [Nat.mul_comm size.toNat i] at hi
    have hlt' : i * size.toNat < (s.endPage.toNat - s.startPage.toNat) * 4096 := by omega
    refine ⟨i, List.mem_range.mpr ((lt_visitCount_iff hpos).mpr hlt'), UInt64.toNat_inj.mp ?_⟩
    rw [hnat i hlt']
    omega

end Visited

namespace Aligned

variable (h : Aligned s size base)
include h

theorem dvd_length : size.toNat ∣ (s.endPage.toNat - s.startPage.toNat) * 4096 := by
  have hdiff := Nat.dvd_sub h.stop h.start
  rwa [Nat.add_sub_add_left, ← Nat.sub_mul] at hdiff

theorem of_dvd (hstep : step.toNat ∣ size.toNat) : Aligned s step base :=
  ⟨h.start_lt, h.stop_lt, Nat.dvd_trans hstep h.start, Nat.dvd_trans hstep h.stop⟩

/-- A region between block boundaries is classified at the starts of its blocks. -/
theorem visited_eq (hpos : 0 < size.toNat) : visited s size base = regionBlocks s size base := by
  obtain ⟨n, hn⟩ := h.dvd_length
  rw [visited, visitCount, regionBlocks, hn, Nat.add_sub_assoc hpos, Nat.mul_add_div hpos,
    Nat.mul_div_cancel_left _ hpos, Nat.div_eq_of_lt (Nat.sub_lt hpos Nat.one_pos), Nat.add_zero]

/-- Smaller blocks of a region are the cut of its blocks. -/
theorem regionBlocks_eq_cut (hpos : 0 < size.toNat) (hstep : step.toNat ∣ size.toNat) :
    regionBlocks s step base = cut size step (regionBlocks s size base) := by
  obtain ⟨n, hn⟩ := h.dvd_length
  obtain ⟨q, hq⟩ := hstep
  have hsteppos : 0 < step.toNat := Nat.pos_of_mul_pos_right (hq ▸ hpos)
  rw [cut, regionBlocks, regionBlocks, flatMap_progression (eq_ofNat_mul ⟨q, hq⟩), hn,
    Nat.mul_div_cancel_left _ hpos, hq, Nat.mul_div_cancel_left _ hsteppos, Nat.mul_assoc,
    Nat.mul_div_cancel_left _ hsteppos, Nat.mul_comm]

/-- The blocks of a region end where it ends. -/
theorem room :
    (base + s.startPage * Page.size).toNat
      + (s.endPage.toNat - s.startPage.toNat) * 4096 / size.toNat * size.toNat ≤ 2 ^ 64 := by
  have hstart := h.start_lt
  have hstop := h.stop_lt
  rw [(pageAddress_eq h.start_lt).2, Nat.div_mul_cancel h.dvd_length, Nat.sub_mul]
  omega

theorem mem_regionBlocks_iff (hpos : 0 < size.toNat) {a : Address} :
    a ∈ regionBlocks s size base ↔ size.toNat ∣ a.toNat ∧ InRegion s base a := by
  have hlen : (s.endPage.toNat - s.startPage.toNat) * 4096 / size.toNat * size.toNat
      = s.endPage.toNat * 4096 - s.startPage.toNat * 4096 := by
    rw [Nat.div_mul_cancel h.dvd_length, Nat.sub_mul]
  rw [regionBlocks, mem_progression_iff (h.room) hpos, (pageAddress_eq h.start_lt).2]
  constructor
  · rintro ⟨i, hi, ha⟩
    have hmul : (i + 1) * size.toNat
        ≤ (s.endPage.toNat - s.startPage.toNat) * 4096 / size.toNat * size.toNat :=
      Nat.mul_le_mul_right _ hi
    rw [hlen, Nat.succ_mul] at hmul
    exact ⟨ha ▸ Nat.dvd_add h.start (Nat.dvd_mul_left _ _), by omega, by omega⟩
  · rintro ⟨hdvd, hle, hlt⟩
    obtain ⟨i, hi⟩ := Nat.dvd_sub hdvd h.start
    refine ⟨i, ?_, by rw [Nat.mul_comm i]; omega⟩
    refine Nat.lt_of_mul_lt_mul_right (a := size.toNat) ?_
    rw [hlen, Nat.mul_comm]
    omega

theorem nodup_regionBlocks (hpos : 0 < size.toNat) : (regionBlocks s size base).Nodup := by
  refine (pairwise_progression (h.room) hpos).imp ?_
  rintro a x hle rfl
  omega

end Aligned

/-! ## Several regions -/

/-- The blocks of regions that have no address in common. -/
theorem isBlocks_regions {bases : List Address} (hpower : ∃ k, size.toNat = 2 ^ k)
    (haligned : ∀ base ∈ bases, Aligned s size base)
    (hapart : bases.Pairwise fun p q => ∀ a, InRegion s p a → ¬ InRegion s q a)
    (hconstant : ∀ a x, a / size = x / size → bank a = bank x) :
    IsBlocks bank size (bases.flatMap (regionBlocks s size)) := by
  have hpos := pos_of_power hpower
  refine ⟨hpower, List.nodup_flatMap.mpr ⟨?_, ?_⟩, ?_, hconstant⟩
  · intro base hbase
    exact (haligned base hbase).nodup_regionBlocks hpos
  · refine hapart.imp_of_mem ?_
    intro p q hp hq hpq a hap haq
    rw [(haligned p hp).mem_regionBlocks_iff hpos] at hap
    rw [(haligned q hq).mem_regionBlocks_iff hpos] at haq
    exact hpq a hap.2 haq.2
  · intro a ha
    obtain ⟨base, hbase, hmem⟩ := List.mem_flatMap.mp ha
    exact (((haligned base hbase).mem_regionBlocks_iff hpos).mp hmem).1

/-- The blocks of regions are their aligned addresses. -/
theorem regionBlocks_perm (hpos : 0 < size.toNat) {bases filled : List Address}
    (haligned : ∀ base ∈ bases, Aligned s size base)
    (hblocks : (bases.flatMap (regionBlocks s size)).Nodup) (hnodup : filled.Nodup)
    (hfilled : ∀ a, a ∈ filled ↔ size.toNat ∣ a.toNat ∧ ∃ base ∈ bases, InRegion s base a) :
    (bases.flatMap (regionBlocks s size)).Perm filled := by
  refine (List.perm_ext_iff_of_nodup hblocks hnodup).mpr ?_
  intro a
  rw [List.mem_flatMap, hfilled]
  constructor
  · rintro ⟨base, hbase, hmem⟩
    obtain ⟨halign, hin⟩ := ((haligned base hbase).mem_regionBlocks_iff hpos).mp hmem
    exact ⟨halign, base, hbase, hin⟩
  · rintro ⟨halign, base, hbase, hin⟩
    exact ⟨base, hbase, ((haligned base hbase).mem_regionBlocks_iff hpos).mpr ⟨halign, hin⟩⟩

/-- A region of too many addresses is not classified. -/
theorem addRegion_eq_capacity (hstart : base.toNat + b.settings.startPage.toNat * 4096 < 2 ^ 64)
    (hstop : base.toNat + b.settings.endPage.toNat * 4096 < 2 ^ 64) (hpos : 0 < c.blockSize.toNat)
    (hcount : 2 ^ 60 ≤ visitCount b.settings c.blockSize) (allowNew : Bool) :
    c.addRegion b allowNew base = .error .capacity := by
  rw [addRegion, regionAddresses_eq hstart hstop hpos, if_pos hcount]
  rfl

/-- A region that is classified in new groups is held with what was held before; every address
    without a group opens one. -/
theorem Holds.addRegion_visited (hb : b.NoiseFree bank)
    (hstart : base.toNat + b.settings.startPage.toNat * 4096 < 2 ^ 64)
    (hstop : base.toNat + b.settings.endPage.toNat * 4096 < 2 ^ 64) (hpos : 0 < c.blockSize.toNat)
    (hcount : visitCount b.settings c.blockSize < 2 ^ 60) {addrs : List Address}
    (hholds : Holds bank addrs c.groups) :
    ∃ n c', c.addRegion b true base = .ok (n, c') ∧ c'.blockSize = c.blockSize
      ∧ n + c.groups.length = c'.groups.length
      ∧ Holds bank (visited b.settings c.blockSize base ++ addrs) c'.groups := by
  have hadd : c.addRegion b true base
      = .ok (Classifier.classifyAll b true (visited b.settings c.blockSize base) 0 c) := by
    rw [Classifier.addRegion, regionAddresses_eq hstart hstop hpos,
      if_neg (Nat.not_le_of_lt hcount)]
    rfl
  have hmisses := misses_classifyAll b (visited b.settings c.blockSize base) 0 c
  rw [Nat.zero_add] at hmisses
  exact ⟨_, _, hadd, blockSize_classifyAll b true _ 0 c, hmisses, hholds.classifyAll hb _ 0⟩

/-- A region between block boundaries is held as the cut of its blocks. -/
theorem Holds.addRegion (hb : b.NoiseFree bank) (h : Aligned b.settings size base)
    (hpos : 0 < size.toNat) (hstep : c.blockSize.toNat ∣ size.toNat)
    (hcount : visitCount b.settings c.blockSize < 2 ^ 60) {addrs : List Address}
    (hholds : Holds bank addrs c.groups) :
    ∃ n c', c.addRegion b true base = .ok (n, c') ∧ c'.blockSize = c.blockSize
      ∧ n + c.groups.length = c'.groups.length
      ∧ Holds bank (cut size c.blockSize (regionBlocks b.settings size base) ++ addrs)
          c'.groups := by
  have hsteppos : 0 < c.blockSize.toNat := Nat.pos_of_dvd_of_pos hstep hpos
  rw [← h.regionBlocks_eq_cut hpos hstep, ← (h.of_dvd hstep).visited_eq hsteppos]
  exact hholds.addRegion_visited hb h.start_lt h.stop_lt hsteppos hcount

/-! ## Complete huge blocks -/

/-- The aligned huge block of `2 ^ n` bytes at `base` is classified from end to end. -/
structure Complete (s : Settings) (n : Nat) (base : Address) : Prop where
  start : s.startPage = 0
  stop : s.endPage.toNat * 4096 = 2 ^ n
  aligned : 2 ^ n ∣ base.toNat
  lt : base.toNat + 2 ^ n < 2 ^ 64

namespace Complete

variable {n k : Nat} (h : Complete s n base) (hk : k ≤ n) (hsize : size.toNat = 2 ^ k)
include h

theorem lt_word : n < 64 := by
  have hlt := h.lt
  exact (Nat.pow_lt_pow_iff_right Nat.one_lt_two).mp (by omega)

include hk hsize

theorem aligned_of_le : Aligned s size base := by
  have hstart : s.startPage.toNat * 4096 = 0 := by rw [h.start]; rfl
  have hdvd : size.toNat ∣ 2 ^ n := hsize ▸ Nat.pow_dvd_pow 2 hk
  have hbase := Nat.dvd_trans hdvd h.aligned
  refine ⟨?_, h.stop ▸ h.lt, ?_, ?_⟩
  · rw [hstart]
    exact UInt64.toNat_lt base
  · rwa [hstart]
  · rw [h.stop]
    exact Nat.dvd_add hbase hdvd

theorem visitCount_eq : visitCount s size = 2 ^ (n - k) := by
  have hpos := pos_of_power ⟨k, hsize⟩
  have hlength : (s.endPage.toNat - s.startPage.toNat) * 4096 = 2 ^ (n - k) * size.toNat := by
    rw [h.start, hsize, ← Nat.pow_add, Nat.sub_add_cancel hk]
    exact h.stop
  refine eq_of_forall_lt_iff fun i => ?_
  rw [lt_visitCount_iff hpos, hlength, Nat.mul_lt_mul_right hpos]

theorem regionBlocks_eq : regionBlocks s size base = progression base size (2 ^ (n - k)) := by
  have hstart : s.startPage * Page.size = 0 := by rw [h.start]; rfl
  have hcount : (s.endPage.toNat - s.startPage.toNat) * 4096 / size.toNat = 2 ^ (n - k) := by
    rw [h.start]
    show s.endPage.toNat * 4096 / size.toNat = _
    rw [h.stop, hsize, Nat.pow_div hk Nat.two_pos]
  rw [regionBlocks, hstart, hcount, UInt64.add_zero]

/-- Masks above the blocks give banks that are constant on them. -/
theorem isBlocks {ms : List Mask} (hms : ∀ m ∈ ms, Within k n m) :
    IsBlocks (parities ms) size (regionBlocks s size base) := by
  have haligned := h.aligned_of_le hk hsize
  have hconstant := parities_eq_of_div_eq hms hsize
  have hblocks := isBlocks_regions ⟨k, hsize⟩ (List.forall_mem_singleton.mpr haligned)
    (List.pairwise_singleton _ _) hconstant
  rwa [List.flatMap_singleton] at hblocks

end Complete

end Classifier

end DramBanks
