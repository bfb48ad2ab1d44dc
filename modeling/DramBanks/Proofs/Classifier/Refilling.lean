import DramBanks.Proofs.Classifier.Region
import DramBanks.Proofs.Mask.Rearrangement
/-!
# Filling in large blocks and in small ones

    A region may be filled in large blocks and the classifier switched to
    smaller ones, or it may be filled in the smaller ones from the
    beginning.  Without noise, and with banks that are constant on the large
    blocks, both runs end if the small blocks can be listed, and what their
    groups hold is known (`exists_refilled`).  Groups that hold the same
    addresses are the same up to order (`Holds.exists_rearranged_iff`), so
    it is enough to compare the two lists of addresses.

    Whether they are the same depends on where the region begins and ends
    (`Refillable.refined_perm_iff`):

    * A region between block boundaries is cut in one step or in two.
    * If it ends inside a large block, this block is refined beyond the end
      of the region.
    * If it begins inside a large block, no visited address lies on a
      boundary, so nothing is refined at all.  This goes unnoticed only if
      the region has no second small block. -/

namespace DramBanks

variable {σ β : Type}

/-- The bench of an analysis that begins at another block size. -/
def Bench.startingAt (b : Bench σ) (size : UInt64) : Bench σ :=
  { b with settings := { b.settings with initialBlockSize := size } }

theorem Bench.NoiseFree.startingAt {b : Bench σ} {bank : Address → β} (hb : b.NoiseFree bank)
    (size : UInt64) : (b.startingAt size).NoiseFree bank :=
  ⟨hb.threshold_pos, hb.sample_pos, hb.measure_iff⟩

namespace Classifier

variable {b : Bench σ} {bank : Address → β} {s : Settings}
  {old size : UInt64} {base : Address}

/-- Up to the order of the members, groups are the image of their banks. -/
theorem map_members_eq [DecidableEq β] {addrs : List Address} {groups : List Group}
    {banks : List β} (h : List.Forall₂
      (fun x g => g.members.Perm (addrs.filter fun a => bank a = x)) banks groups) :
    (groups.map Group.members).map Multiset.ofList
      = banks.map fun x => Multiset.ofList (addrs.filter fun a => bank a = x) := by
  rw [← List.forall₂_eq_eq_eq, List.forall₂_map_left_iff, List.forall₂_map_left_iff,
    List.forall₂_map_right_iff]
  exact (h.imp fun _ _ hperm => Multiset.coe_eq_coe.mpr hperm).flip

/-- Groups that hold addresses by their banks are the same up to order exactly if the addresses
    are. -/
theorem Holds.exists_rearranged_iff {addrs addrs' : List Address} {groups groups' : List Group}
    (h : Holds bank addrs groups) (h' : Holds bank addrs' groups') :
    (∃ order, Rearranged order (groups.map Group.members) (groups'.map Group.members))
      ↔ addrs.Perm addrs' := by
  classical
  constructor
  · rintro ⟨order, hrearranged⟩
    have hflat := hrearranged.flatten_perm
    rw [← List.flatMap_def, ← List.flatMap_def] at hflat
    exact h.perm.symm.trans (hflat.symm.trans h'.perm)
  · intro hperm
    obtain ⟨banks, hnodup, hmem, hgroups⟩ := h.exists_banks
    obtain ⟨banks', hnodup', hmem', hgroups'⟩ := h'.exists_banks
    have hbanks : banks'.Perm banks := by
      refine (List.perm_ext_iff_of_nodup hnodup' hnodup).mpr fun x => ?_
      rw [hmem', hmem]
      simp only [hperm.mem_iff]
    obtain ⟨order, horder, harranged⟩ := exists_arranged_of_perm hnodup hbanks
    have hfilter : ∀ x, Multiset.ofList (addrs.filter fun a => bank a = x)
        = Multiset.ofList (addrs'.filter fun a => bank a = x) :=
      fun x => Multiset.coe_eq_coe.mpr (hperm.filter _)
    refine ⟨order, ?_, ?_⟩
    · rw [List.length_map, ← hgroups.length_eq]
      exact horder
    · -- arranging the banks arranges their image
      rw [forall₂_perm_iff, ← arranged_map, map_members_eq hgroups, arranged_map, harranged,
        map_members_eq hgroups', List.map_congr_left fun x _ => hfilter x]

/-! ## Which addresses are held -/

/-- Nothing is added behind addresses off the boundaries. -/
theorem refined_of_unaligned {new : UInt64} {addrs : List Address}
    (h : ∀ a ∈ addrs, ¬ old.toNat ∣ a.toNat) : refined old new addrs = addrs := by
  have hfilter : (addrs.filter fun a => a % old == 0) = [] :=
    List.filter_eq_nil_iff.mpr fun a ha haligned => h a ha (mod_eq_zero_iff.mp haligned)
  rw [refined, hfilter]
  rfl

/-- A region of one page is visited once at sizes from a page on. -/
theorem visited_of_single_page (hone : s.endPage.toNat = s.startPage.toNat + 1)
    (hle : 4096 ≤ size.toNat) : visited s size base = [base + s.startPage * Page.size] := by
  have hcount : visitCount s size = 1 := by
    rw [visitCount, hone, Nat.add_sub_cancel_left]
    exact Nat.div_eq_of_lt_le (by omega) (by omega)
  rw [visited, hcount]
  show [base + s.startPage * Page.size + 0 * size] = _
  rw [UInt64.zero_mul, UInt64.add_zero]

/-- A region of at least one page in a huge block that begins on a boundary of blocks of `old`
    bytes, and a smaller block size that divides these blocks and the pages. -/
structure Refillable (s : Settings) (old size : UInt64) (base : Address) : Prop where
  power : ∃ k, old.toNat = 2 ^ k
  dvd : size.toNat ∣ old.toNat
  lt : size.toNat < old.toNat
  page : size.toNat ∣ 4096
  aligned : old.toNat ∣ base.toNat
  pages : s.startPage < s.endPage
  stop_lt : base.toNat + s.endPage.toNat * 4096 < 2 ^ 64

namespace Refillable

variable (h : Refillable s old size base)
include h

theorem pos : 0 < size.toNat := Nat.pos_of_dvd_of_pos h.page (by decide)

theorem old_pos : 0 < old.toNat := pos_of_power h.power

theorem start_add_le_stop :
    base.toNat + s.startPage.toNat * 4096 + 4096 ≤ base.toNat + s.endPage.toNat * 4096 := by
  have hpages := UInt64.lt_iff_toNat_lt.mp h.pages
  omega

theorem start_lt : base.toNat + s.startPage.toNat * 4096 < 2 ^ 64 :=
  Nat.lt_of_le_of_lt (Nat.le_of_add_right_le h.start_add_le_stop) h.stop_lt

/-- The addresses visited in large blocks are all on boundaries or all off them. -/
theorem aligned_iff {a : Address} (ha : a ∈ visited s old base) :
    old.toNat ∣ a.toNat ↔ old.toNat ∣ s.startPage.toNat * 4096 := by
  obtain ⟨⟨hle, -⟩, hsteps⟩ := (mem_visited_iff h.start_lt h.stop_lt h.old_pos).mp ha
  rw [← Nat.add_sub_cancel' hle, Nat.dvd_add_left hsteps, Nat.dvd_add_right h.aligned]

/-- Between boundaries, refining the large blocks visits what the small ones do. -/
theorem perm_of_aligned (hstart : old.toNat ∣ s.startPage.toNat * 4096)
    (hstop : old.toNat ∣ s.endPage.toNat * 4096) :
    (refined old size (visited s old base)).Perm (visited s size base) := by
  have haligned : Aligned s old base :=
    ⟨h.start_lt, h.stop_lt, Nat.dvd_add h.aligned hstart, Nat.dvd_add h.aligned hstop⟩
  rw [(haligned.of_dvd h.dvd).visited_eq h.pos, haligned.regionBlocks_eq_cut h.old_pos h.dvd,
    haligned.visited_eq h.old_pos]
  exact refined_perm_cut h.old_pos h.dvd fun a ha =>
    ((haligned.mem_regionBlocks_iff h.old_pos).mp ha).1

/-- The last block is refined beyond a region that ends inside it. -/
theorem stop_mem_refined (hstart : old.toNat ∣ s.startPage.toNat * 4096)
    (hstop : ¬ old.toNat ∣ s.endPage.toNat * 4096) :
    base + s.endPage * Page.size ∈ refined old size (visited s old base) := by
  have hnat := (pageAddress_eq h.stop_lt).2
  have hfirst : old.toNat ∣ base.toNat + s.startPage.toNat * 4096 := Nat.dvd_add h.aligned hstart
  -- the block in which the region ends begins inside the region
  have hblock := toNat_div_mul (base + s.endPage * Page.size) old
  rw [hnat] at hblock
  have hbefore : (base.toNat + s.endPage.toNat * 4096) / old.toNat * old.toNat
      < base.toNat + s.endPage.toNat * 4096 := by
    refine Nat.lt_of_le_of_ne (Nat.div_mul_le_self _ _) ?_
    intro heq
    have hdvd : old.toNat ∣ base.toNat + s.endPage.toNat * 4096 := heq ▸ Nat.dvd_mul_left _ _
    exact hstop ((Nat.dvd_add_right h.aligned).mp hdvd)
  have hbehind : base.toNat + s.startPage.toNat * 4096
      ≤ (base.toNat + s.endPage.toNat * 4096) / old.toNat * old.toNat := by
    have hle := h.start_add_le_stop
    rw [← Nat.div_mul_cancel hfirst]
    exact Nat.mul_le_mul_right _ (Nat.div_le_div_right (by omega))
  refine (mem_refined_iff h.power h.dvd).mpr
    (Or.inr ⟨(base + s.endPage * Page.size) / old * old, ?_, ?_, ?_, ?_⟩)
  · rw [mem_visited_iff h.start_lt h.stop_lt h.old_pos, InRegion, hblock]
    exact ⟨⟨hbehind, hbefore⟩, Nat.dvd_sub (Nat.dvd_mul_left _ _) hfirst⟩
  · rw [hblock]
    exact Nat.dvd_mul_left _ _
  · rw [hnat]
    exact Nat.dvd_add (Nat.dvd_trans h.dvd h.aligned) (Nat.dvd_mul_left_of_dvd h.page _)
  · rw [← UInt64.toNat_inj, UInt64.toNat_div, hblock, UInt64.toNat_div, hnat,
      Nat.mul_div_cancel _ h.old_pos]

/-- A second small block is visited in small blocks only. -/
theorem second_mem_visited (hroom : size.toNat < (s.endPage.toNat - s.startPage.toNat) * 4096) :
    base + s.startPage * Page.size + size ∈ visited s size base
      ∧ base + s.startPage * Page.size + size ∉ visited s old base := by
  have hstart := h.start_lt
  have hstop := h.stop_lt
  have hpos := h.pos
  rw [Nat.sub_mul] at hroom
  have hnat : (base + s.startPage * Page.size + size).toNat
      = base.toNat + s.startPage.toNat * 4096 + size.toNat := by
    rw [UInt64.toNat_add, (pageAddress_eq hstart).2, Nat.mod_eq_of_lt (by omega)]
  rw [mem_visited_iff hstart hstop hpos, mem_visited_iff hstart hstop h.old_pos, InRegion, hnat,
    Nat.add_sub_cancel_left]
  refine ⟨⟨⟨by omega, by omega⟩, Nat.dvd_refl _⟩, ?_⟩
  rintro ⟨-, hdvd⟩
  exact absurd (Nat.le_of_dvd hpos hdvd) (Nat.not_le_of_lt h.lt)

/-- **ENDS**: refining the large blocks visits what the small ones do exactly if the region lies
    between boundaries, or begins off them and has no second small block. -/
theorem refined_perm_iff :
    (refined old size (visited s old base)).Perm (visited s size base) ↔
      (old.toNat ∣ s.startPage.toNat * 4096 ∧ old.toNat ∣ s.endPage.toNat * 4096)
        ∨ (¬ old.toNat ∣ s.startPage.toNat * 4096 ∧ s.endPage.toNat = s.startPage.toNat + 1
          ∧ size = 4096) := by
  have hunaligned : ¬ old.toNat ∣ s.startPage.toNat * 4096 →
      refined old size (visited s old base) = visited s old base :=
    fun hstart => refined_of_unaligned fun a ha haligned => hstart ((h.aligned_iff ha).mp haligned)
  constructor
  · intro hperm
    by_cases hstart : old.toNat ∣ s.startPage.toNat * 4096
    · refine Or.inl ⟨hstart, ?_⟩
      by_contra hstop
      have hmem := hperm.mem_iff.mp (h.stop_mem_refined hstart hstop)
      obtain ⟨-, hlt⟩ := ((mem_visited_iff h.start_lt h.stop_lt h.pos).mp hmem).1
      rw [(pageAddress_eq h.stop_lt).2] at hlt
      exact Nat.lt_irrefl _ hlt
    · rw [hunaligned hstart] at hperm
      have hroom : ¬ size.toNat < (s.endPage.toNat - s.startPage.toNat) * 4096 := by
        intro hroom
        obtain ⟨hsmall, hlarge⟩ := h.second_mem_visited hroom
        exact hlarge (hperm.mem_iff.mpr hsmall)
      have hpages := h.start_add_le_stop
      have hle := Nat.le_of_dvd (by decide) h.page
      have hsize : size.toNat = 4096 := by omega
      exact Or.inr ⟨hstart, by omega, UInt64.toNat_inj.mp hsize⟩
  · rintro (⟨hstart, hstop⟩ | ⟨hstart, hone, rfl⟩)
    · exact h.perm_of_aligned hstart hstop
    · rw [hunaligned hstart, visited_of_single_page hone (Nat.le_of_lt h.lt),
        visited_of_single_page hone (show 4096 ≤ (4096 : UInt64).toNat from Nat.le_refl _)]

end Refillable

/-- Valid settings give regions in aligned huge blocks. -/
theorem refillable_of_valid {n : Nat} (hs : s.Valid) (hlt : size < s.initialBlockSize)
    (hpage : size.toNat ∣ 4096) (hhuge : s.pagesPerHugeBlock.toNat * 4096 ≤ 2 ^ n)
    (hbase : 2 ^ n ∣ base.toNat) (hstop : base.toNat + s.endPage.toNat * 4096 < 2 ^ 64) :
    Refillable s s.initialBlockSize size base := by
  obtain ⟨k, hk⟩ := hs.exists_initialBlockSize
  have hpagepower : ∃ k, (4096 : UInt64).toNat = 2 ^ k := ⟨12, by decide⟩
  obtain ⟨j, hj⟩ := power_of_dvd hpagepower hpage
  have hltnat := UInt64.lt_iff_toNat_lt.mp hlt
  have hjk : j < k := by
    rw [hj, hk] at hltnat
    exact (Nat.pow_lt_pow_iff_right Nat.one_lt_two).mp hltnat
  have hkn : k ≤ n := by
    have hle := Nat.le_trans hs.initial hhuge
    rw [hk] at hle
    exact (Nat.pow_le_pow_iff_right Nat.one_lt_two).mp hle
  have hdvd : size.toNat ∣ s.initialBlockSize.toNat := by
    rw [hj, hk]
    exact Nat.pow_dvd_pow 2 (Nat.le_of_lt hjk)
  have haligned : s.initialBlockSize.toNat ∣ base.toNat := by
    rw [hk]
    exact Nat.dvd_trans (Nat.pow_dvd_pow 2 hkn) hbase
  exact ⟨⟨k, hk⟩, hdvd, hltnat, hpage, haligned, hs.start, hstop⟩

/-! ## The two runs -/

/-- The classifier after one region, filled in groups of its own at the initial block size. -/
def ofRegion (b : Bench σ) (base : Address) (p : σ) : Except Fault (Classifier σ) :=
  ((empty b p).addRegion b true base).map Prod.snd

theorem exists_ofRegion (hb : b.NoiseFree bank) (hpos : 0 < b.settings.initialBlockSize.toNat)
    (hstart : base.toNat + b.settings.startPage.toNat * 4096 < 2 ^ 64)
    (hstop : base.toNat + b.settings.endPage.toNat * 4096 < 2 ^ 64)
    (hcount : visitCount b.settings b.settings.initialBlockSize < 2 ^ 60) (p : σ) :
    ∃ c, ofRegion b base p = .ok c ∧ c.blockSize = b.settings.initialBlockSize
      ∧ Holds bank (visited b.settings b.settings.initialBlockSize base) c.groups := by
  have hempty : Holds bank [] (empty b p).groups := Holds.nil
  obtain ⟨n, c, hadd, hsize, -, hholds⟩ := hempty.addRegion_visited hb hstart hstop hpos hcount
  rw [List.append_nil] at hholds
  exact ⟨c, by rw [ofRegion, hadd]; rfl, hsize, hholds⟩

/-- Blocks that cannot be listed are not classified. -/
theorem ofRegion_eq_capacity (hpos : 0 < b.settings.initialBlockSize.toNat)
    (hstart : base.toNat + b.settings.startPage.toNat * 4096 < 2 ^ 64)
    (hstop : base.toNat + b.settings.endPage.toNat * 4096 < 2 ^ 64)
    (hcount : 2 ^ 60 ≤ visitCount b.settings b.settings.initialBlockSize) (p : σ) :
    ofRegion b base p = .error .capacity := by
  rw [ofRegion, addRegion_eq_capacity (c := empty b p) hstart hstop hpos hcount]
  rfl

/-- **RUNS**: what is held after a region was filled in large blocks and refined, and after it was
    filled in small ones. -/
theorem exists_refilled (hb : b.NoiseFree bank)
    (hconstant : ∀ a x, a / b.settings.initialBlockSize = x / b.settings.initialBlockSize →
      bank a = bank x)
    (h : Refillable b.settings b.settings.initialBlockSize size base)
    (hcount : visitCount b.settings size < 2 ^ 60) (p p' : σ) :
    ∃ c c', (ofRegion b base p).bind (setBlockSize b size) = .ok c
      ∧ ofRegion (b.startingAt size) base p' = .ok c'
      ∧ Holds bank (refined b.settings.initialBlockSize size
          (visited b.settings b.settings.initialBlockSize base)) c.groups
      ∧ Holds bank (visited b.settings size base) c'.groups := by
  have hfewer := visitCount_anti (s := b.settings) h.pos h.lt.le
  obtain ⟨filled, hfilled, hsize, hlarge⟩ := exists_ofRegion hb h.old_pos h.start_lt h.stop_lt
    (Nat.lt_of_le_of_lt hfewer hcount) p
  obtain ⟨c', hsmall, -, hholds'⟩ := exists_ofRegion (b := b.startingAt size) (hb.startingAt size)
    h.pos h.start_lt h.stop_lt hcount p'
  rw [← hsize] at h hconstant hlarge ⊢
  obtain ⟨c, hset, -, hholds⟩ := hlarge.setBlockSize_refined hb h.power h.dvd
    (UInt64.lt_iff_toNat_lt.mpr h.lt) hconstant
  exact ⟨c, c', by rw [hfilled]; exact hset, hsmall, hholds, hholds'⟩

/-- **REFILLING**: filling a region in large blocks and switching to small ones leaves the groups
    that filling it in small blocks does, exactly if the region lies between boundaries of the
    large blocks, or begins off them and is a single page that is not cut.  Small blocks that are
    too many to be listed cannot be filled in at all. -/
theorem ofRegion_setBlockSize_rearranged_iff (hs : b.settings.firstViolation = .ok none)
    (hb : b.NoiseFree bank)
    (hconstant : ∀ a x, a / b.settings.initialBlockSize = x / b.settings.initialBlockSize →
      bank a = bank x)
    (hlt : size < b.settings.initialBlockSize) (hpage : size.toNat ∣ 4096) {n : Nat}
    (hhuge : b.settings.pagesPerHugeBlock.toNat * 4096 ≤ 2 ^ n) (hbase : 2 ^ n ∣ base.toNat)
    (hstop : base.toNat + b.settings.endPage.toNat * 4096 < 2 ^ 64) (p p' : σ) :
    (visitCount b.settings size < 2 ^ 60 →
      ∃ c c', (ofRegion b base p).bind (setBlockSize b size) = .ok c
        ∧ ofRegion (b.startingAt size) base p' = .ok c'
        ∧ PartitionByBank bank c.groups ∧ PartitionByBank bank c'.groups
        ∧ ((∃ order, Rearranged order (c.groups.map Group.members)
              (c'.groups.map Group.members)) ↔
          (b.settings.initialBlockSize.toNat ∣ b.settings.startPage.toNat * 4096
              ∧ b.settings.initialBlockSize.toNat ∣ b.settings.endPage.toNat * 4096)
            ∨ (¬ b.settings.initialBlockSize.toNat ∣ b.settings.startPage.toNat * 4096
              ∧ b.settings.endPage.toNat = b.settings.startPage.toNat + 1 ∧ size = 4096)))
      ∧ (2 ^ 60 ≤ visitCount b.settings size →
          ofRegion (b.startingAt size) base p' = .error .capacity) := by
  have h := refillable_of_valid (Settings.firstViolation_eq_none_iff.mp hs) hlt hpage hhuge hbase
    hstop
  constructor
  · intro hcount
    obtain ⟨c, c', hlarge, hsmall, hholds, hholds'⟩ := exists_refilled hb hconstant h hcount p p'
    refine ⟨c, c', hlarge, hsmall, hholds.partition, hholds'.partition, ?_⟩
    rw [hholds.exists_rearranged_iff hholds', h.refined_perm_iff]
  · intro hcount
    exact ofRegion_eq_capacity (b := b.startingAt size) h.pos h.start_lt h.stop_lt hcount p'

/-- Two blocks of 8 KB, refined to pages. -/
theorem ofRegion_setBlockSize_two_blocks :
    let b := Bench.simulated
      { pagesPerHugeBlock := 4, endPage := 4, initialBlockSize := 8192 } [8192]
    ∃ c c', (ofRegion b 0 0).bind (setBlockSize b 4096) = .ok c
      ∧ ofRegion (b.startingAt 4096) 0 0 = .ok c'
      ∧ ∃ order, Rearranged order (c.groups.map Group.members) (c'.groups.map Group.members) := by
  intro b
  have hs : Settings.firstViolation
      { pagesPerHugeBlock := 4, endPage := 4, initialBlockSize := 8192 } = .ok none := rfl
  have hms : ∀ m ∈ [8192], Mask.Within 13 64 m := List.forall_mem_singleton.mpr (by decide)
  have hlt : (4096 : UInt64) < 8192 := by decide
  have hbase : 2 ^ 14 ∣ (0 : Address).toNat := by decide
  have hrefill := ofRegion_setBlockSize_rearranged_iff (b := b) hs
    (Bench.noiseFree_simulated (by decide) _) (parities_eq_of_div_eq hms (by decide)) hlt
    (by decide) (by decide) hbase (by decide) 0 0
  obtain ⟨c, c', hlarge, hsmall, -, -, hiff⟩ := hrefill.1 (by decide)
  exact ⟨c, c', hlarge, hsmall, hiff.mpr (Or.inl ⟨by decide, by decide⟩)⟩

/-- Three pages that begin in the middle of a block of 8 KB: the second page is never classified
    when the first and the third one are refined. -/
theorem ofRegion_setBlockSize_misses_page :
    let b := Bench.simulated
      { pagesPerHugeBlock := 4, startPage := 1, endPage := 4, initialBlockSize := 8192 } [8192]
    b.settings.firstViolation = .ok none ∧ b.NoiseFree (parities [8192])
      ∧ (∀ a x, a / b.settings.initialBlockSize = x / b.settings.initialBlockSize →
          parities [8192] a = parities [8192] x)
      ∧ ∃ c c', (ofRegion b 0 0).bind (setBlockSize b 4096) = .ok c
        ∧ ofRegion (b.startingAt 4096) 0 0 = .ok c'
        ∧ 8192 ∈ allMembers c'.groups ∧ 8192 ∉ allMembers c.groups := by
  intro b
  have hs : Settings.firstViolation
      { pagesPerHugeBlock := 4, startPage := 1, endPage := 4, initialBlockSize := 8192 } = .ok none :=
    rfl
  have hb : b.NoiseFree (parities [8192]) := Bench.noiseFree_simulated (by decide) _
  have hms : ∀ m ∈ [8192], Mask.Within 13 64 m := List.forall_mem_singleton.mpr (by decide)
  have hsize : (8192 : UInt64).toNat = 2 ^ 13 := by decide
  have hconstant := parities_eq_of_div_eq hms hsize
  have hregion : Refillable b.settings 8192 4096 0 :=
    ⟨⟨13, by decide⟩, by decide, by decide, by decide, by decide, by decide, by decide⟩
  obtain ⟨c, c', hlarge, hsmall, hholds, hholds'⟩ :=
    exists_refilled hb hconstant hregion (by decide) 0 0
  refine ⟨hs, hb, hconstant, c, c', hlarge, hsmall, ?_, ?_⟩
  · rw [hholds'.perm.mem_iff]
    decide
  · rw [hholds.perm.mem_iff]
    decide

end Classifier

end DramBanks
