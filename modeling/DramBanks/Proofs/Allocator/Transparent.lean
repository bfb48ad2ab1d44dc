import DramBanks.Proofs.Allocator.AllOrNone
import DramBanks.Proofs.Safety
import Mathlib.Data.Set.Lattice
import Mathlib.Order.CompletePartialOrder
/-!
# Transparent huge blocks are allocated all or none

    The kernel is seen as the set of mapped bytes, which mapping and
    unmapping change by whole pages and nothing else does
    (`Kernel.MapsPages`); what it answers is left open.  A block is cut
    out of a mapping of twice its size, so of what a call maps exactly the
    block stays behind, or nothing if the kernel refuses
    (`allocate_grants`).  Blocks that come on top of one another are
    disjoint, and giving them back in any order leaves what was mapped
    before them (`Stacked`).  They are the blocks that an analysis is
    safe with (`suited_of_stacked`).

    The only allocation that neither succeeds nor is refused is one whose
    list of blocks is larger than the address space: it ends in a fault
    before the first call.
-/

namespace DramBanks

variable {κ : Type}

/-- What the calls for anonymous memory do to the mapped bytes.  New mappings are fresh ranges of
    whole pages in the lower half of the address space. -/
structure Kernel.MapsPages (k : Kernel κ) (mapped : κ → Set ℕ) : Prop where
  map_ok : ∀ {length s base s'}, 4096 ∣ length.toNat →
    k.map length Kernel.readWrite Kernel.privateAnonymous none s = (.ok base, s') →
      4096 ∣ base.toNat ∧ base.toNat + length.toNat ≤ 2 ^ 63
        ∧ Disjoint (mapped s) (Block.mk base length).bytes
        ∧ mapped s' = mapped s ∪ (Block.mk base length).bytes
  map_error : ∀ {length s e s'},
    k.map length Kernel.readWrite Kernel.privateAnonymous none s = (.error e, s') →
      mapped s' = mapped s
  unmap : ∀ {base length} s, 4096 ∣ base.toNat → 4096 ∣ length.toNat →
    mapped (k.unmap base length s) = mapped s \ (Block.mk base length).bytes
  advise : ∀ base length s,
    mapped (k.advise base length Kernel.hugePageAdvice s).2 = mapped s
  openPageTable : ∀ s, mapped (k.openPageTable s).2 = mapped s

/-! ## A kernel that maps one range behind the other -/

/-- The state of a kernel that maps upwards from some page and refuses advice as it is told. -/
structure Bump where
  /-- The pages in front of the next mapping. -/
  pages : Nat
  mapped : Set ℕ
  mapped_lt : ∀ n ∈ mapped, n < pages * 4096
  /-- Whether the coming pieces of advice are refused. -/
  refusals : List Bool := []

namespace Bump

variable (b : Bump)

theorem toNat_base {length : UInt64} (hroom : b.pages * 4096 + length.toNat ≤ 2 ^ 63) :
    (UInt64.ofNat (b.pages * 4096)).toNat = b.pages * 4096 :=
  UInt64.toNat_ofNat_of_lt' (show _ < 2 ^ 64 by omega)

/-- Maps a range and leaves at most a page behind it. -/
def map (length : UInt64) : Except Errno Address × Bump :=
  if hroom : b.pages * 4096 + length.toNat ≤ 2 ^ 63 then
    let base := UInt64.ofNat (b.pages * 4096)
    (.ok base,
     { b with
       pages := b.pages + length.toNat / 4096 + 1
       mapped := b.mapped ∪ (Block.mk base length).bytes
       mapped_lt := by
         have hnext : b.pages * 4096 + length.toNat
             < (b.pages + length.toNat / 4096 + 1) * 4096 := by omega
         rintro n (hn | hn)
         · exact Nat.lt_trans (Nat.lt_add_right _ (b.mapped_lt n hn)) hnext
         · have hlt : n < base.toNat + length.toNat := hn.2
           rw [b.toNat_base hroom] at hlt
           exact Nat.lt_trans hlt hnext })
  else (.error .noMemory, b)

def kernel : Kernel Bump where
  processId := "1"
  memoryInfo := ""
  map := fun length _ _ _ b => b.map length
  unmap := fun base length b =>
    { b with
      mapped := b.mapped \ (Block.mk base length).bytes
      mapped_lt := fun n hn => b.mapped_lt n hn.1 }
  advise := fun _ _ _ b =>
    (if b.refusals.head? = some true then .error .noMemory else .ok (),
     { b with refusals := b.refusals.tail })
  openFile := fun _ _ _ b => (.error .noAccess, b)
  close := fun _ b => b
  unlink := fun _ b => (.error .noAccess, b)
  openPageTable := fun b => (.error .noAccess, b)
  pageEntry? := fun _ _ => none

theorem mapsPages : kernel.MapsPages mapped where
  map_ok := by
    intro length b base b' _ hanswer
    have hanswer : b.map length = (.ok base, b') := hanswer
    rw [map] at hanswer
    split at hanswer
    · next hroom =>
        cases hanswer
        have hbase := b.toNat_base hroom
        refine ⟨?_, ?_, Set.disjoint_left.mpr fun n hn hnew => ?_, rfl⟩
        · rw [hbase]
          exact Nat.dvd_mul_left ..
        · rwa [hbase]
        · exact absurd (hbase ▸ hnew.1) (Nat.not_le.mpr (b.mapped_lt n hn))
    · cases hanswer
  map_error := by
    intro length b e b' hanswer
    have hanswer : b.map length = (.error e, b') := hanswer
    rw [map] at hanswer
    split at hanswer
    · cases hanswer
    · cases hanswer
      rfl
  unmap _ _ _ := rfl
  advise _ _ _ := rfl
  openPageTable _ := rfl

/-- A mapped page, with a page without memory on either side. -/
def world (refusals : List Bool) : World Bump :=
  ⟨⟨3, Set.Ico 4096 8192, fun _ hn => Nat.lt_trans hn.2 (by decide), refusals⟩, []⟩

end Bump

/-! ## Cutting a block out of a mapping -/

namespace Allocator.Transparent

variable {size : UInt64} {start : Address}

/-- The first multiple from an address on lies within one multiple of it. -/
theorem exists_alignUp {addr align : UInt64} (hpos : 0 < align.toNat)
    (hroom : addr.toNat + align.toNat ≤ 2 ^ 64) :
    ∃ a, alignUp addr align = .ok a ∧ align.toNat ∣ a.toNat ∧ addr.toNat ≤ a.toNat
      ∧ a.toNat < addr.toNat + align.toNat := by
  have hne : align ≠ 0 := by
    rintro rfl
    exact absurd hpos (by decide)
  rw [alignUp, if_neg hne]
  by_cases hmod : addr % align = 0
  · rw [if_pos hmod]
    have hdvd : align.toNat ∣ addr.toNat := by
      rw [← UInt64.toNat_inj, UInt64.toNat_mod] at hmod
      exact Nat.dvd_of_mod_eq_zero hmod
    exact ⟨addr, rfl, hdvd, Nat.le_refl _, by omega⟩
  · rw [if_neg hmod]
    have hrest : 0 < addr.toNat % align.toNat := by
      rw [← UInt64.toNat_inj, UInt64.toNat_mod] at hmod
      exact Nat.pos_of_ne_zero hmod
    have hlt : addr.toNat % align.toNat < align.toNat := Nat.mod_lt _ hpos
    have hgap : (align - addr % align).toNat = align.toNat - addr.toNat % align.toNat := by
      rw [UInt64.toNat_sub_of_le _ _ (UInt64.le_iff_toNat_le.mpr ?_), UInt64.toNat_mod]
      rw [UInt64.toNat_mod]
      exact Nat.le_of_lt hlt
    have hsum : addr.toNat + (align - addr % align).toNat < UInt64.size := by
      show _ < 2 ^ 64
      omega
    have hvalue : (addr + (align - addr % align)).toNat
        = (addr.toNat / align.toNat + 1) * align.toNat := by
      rw [UInt64.toNat_add, hgap, Nat.mod_eq_of_lt (hgap ▸ hsum), Nat.add_mul, Nat.one_mul]
      have := Nat.div_add_mod' addr.toNat align.toNat
      omega
    refine ⟨_, if_pos hsum, ⟨_, by rw [hvalue, Nat.mul_comm]⟩, ?_, ?_⟩
    all_goals
      rw [hvalue, Nat.add_mul, Nat.one_mul]
      have := Nat.div_add_mod' addr.toNat align.toNat
      omega

/-- A mapping of twice the size holds an aligned block. -/
structure Cut.Fits (c : Cut) (size : UInt64) (start : Address) : Prop where
  start_eq : c.start = start
  aligned : size.toNat ∣ c.blockStart.toNat
  start_le : c.start.toNat ≤ c.blockStart.toNat
  blockStop_eq : c.blockStop.toNat = c.blockStart.toNat + size.toNat
  blockStop_le : c.blockStop.toNat ≤ c.stop.toNat
  stop_eq : c.stop.toNat = start.toNat + 2 * size.toNat

theorem Cut.Fits.block_le {c : Cut} (hc : c.Fits size start) :
    c.blockStart.toNat ≤ c.blockStop.toNat := by
  rw [hc.blockStop_eq]
  exact Nat.le_add_right ..

theorem exists_cut (hpos : 0 < size.toNat) (hroom : start.toNat + 2 * size.toNat ≤ 2 ^ 63) :
    ∃ c, cut size start = .ok c ∧ c.Fits size start := by
  obtain ⟨blockStart, halign, hdvd, hle, hlt⟩ :=
    exists_alignUp hpos (show start.toNat + size.toNat ≤ 2 ^ 64 by omega)
  have htwice : (2 * size).toNat = 2 * size.toNat := by
    rw [UInt64.toNat_mul]
    exact Nat.mod_eq_of_lt (show 2 * size.toNat < 2 ^ 64 by omega)
  have hblockStop : Word.add blockStart size = .ok (blockStart + size) :=
    if_pos (show _ < 2 ^ 64 by omega)
  have hstop : Word.add start (2 * size) = .ok (start + 2 * size) :=
    if_pos (show _ < 2 ^ 64 by omega)
  refine ⟨⟨start, blockStart, blockStart + size, start + 2 * size⟩, ?_, rfl, hdvd, hle,
    Word.toNat_of_add hblockStop, ?_, ?_⟩
  · rw [cut, halign]
    simp only
    rw [hblockStop, hstop]
  · show (blockStart + size).toNat ≤ (start + 2 * size).toNat
    rw [Word.toNat_of_add hblockStop, Word.toNat_of_add hstop]
    omega
  · show (start + 2 * size).toNat = _
    rw [Word.toNat_of_add hstop, htwice]

/-! ## What a call leaves mapped -/

/-- An aligned block in the lower half of the address space that holds none of the bytes
    `before`. -/
structure Placed (before : Set ℕ) (size : UInt64) (block : Block) : Prop where
  size_eq : block.size = size
  aligned : size.toNat ∣ block.base.toNat
  below : block.base.toNat + size.toNat ≤ 2 ^ 63
  fresh : Disjoint before block.bytes

/-- A block is handed out and mapped on top of the bytes `before`, or refused with these left. -/
def Grants (mapped : κ → Set ℕ) (before : Set ℕ) (size : UInt64) :
    Except AllocationError Block × World κ → Prop
  | (.ok block, w) => Placed before size block ∧ mapped w.kernel = before ∪ block.bytes
  | (.error e, w) => (∀ f, e ≠ .fault f) ∧ mapped w.kernel = before

/-- A size of whole pages, twice of which fits into the word. -/
structure Sized (size : UInt64) : Prop where
  pos : 0 < size.toNat
  pages : 4096 ∣ size.toNat
  twice : 2 * size.toNat < 2 ^ 64

/-- What is left of a fresh range when its ends are taken away. -/
theorem union_Ico_diff {before : Set ℕ} {a b c d : ℕ} (hfresh : Disjoint before (Set.Ico a d))
    (hab : a ≤ b) (hbc : b ≤ c) (hcd : c ≤ d) :
    ((before ∪ Set.Ico a d) \ Set.Ico a b) \ Set.Ico c d = before ∪ Set.Ico b c := by
  ext n
  have hn : n ∈ before → ¬ (a ≤ n ∧ n < d) := fun hmem hrange =>
    Set.disjoint_left.mp hfresh hmem hrange
  simp only [Set.mem_sdiff, Set.mem_union, Set.mem_Ico]
  by_cases hmem : n ∈ before
  · have := hn hmem
    simp only [hmem, true_or, true_and, iff_true]
    omega
  · simp only [hmem, false_or]
    omega

section Calls

variable {k : Kernel κ} {mapped : κ → Set ℕ} (hk : k.MapsPages mapped)
include hk

/-- One end of a mapping is given back, if it is not empty. -/
theorem mapped_trim {a b : Address} (ha : 4096 ∣ a.toNat) (hb : 4096 ∣ b.toNat)
    (hle : a.toNat ≤ b.toNat) (w : World κ) :
    mapped (if a < b then w.release k a (b - a) else w).kernel
      = mapped w.kernel \ Set.Ico a.toNat b.toNat := by
  have hlength : (b - a).toNat = b.toNat - a.toNat :=
    UInt64.toNat_sub_of_le _ _ (UInt64.le_iff_toNat_le.mpr hle)
  split
  · have hunmap := hk.unmap w.kernel ha (hlength ▸ Nat.dvd_sub hb ha)
    rw [Block.bytes, hlength, Nat.add_sub_of_le hle] at hunmap
    exact hunmap
  · next hlt =>
      rw [UInt64.lt_iff_toNat_lt] at hlt
      rw [Set.Ico_eq_empty hlt, Set.sdiff_empty]

/-- Of a mapping of twice the size the block is left. -/
theorem mapped_trims {c : Cut} (hsize : Sized size) (hstart : 4096 ∣ start.toNat)
    (hc : c.Fits size start) {w : World κ} {before : Set ℕ}
    (hfresh : Disjoint before (Set.Ico start.toNat c.stop.toNat))
    (hmapped : mapped w.kernel = before ∪ Set.Ico start.toNat c.stop.toNat) :
    mapped (trimBack k c (trimFront k c w)).kernel
      = before ∪ (Block.mk c.blockStart size).bytes := by
  have hblockStart : 4096 ∣ c.blockStart.toNat := Nat.dvd_trans hsize.pages hc.aligned
  have hblockStop : 4096 ∣ c.blockStop.toNat := by
    rw [hc.blockStop_eq]
    exact Nat.dvd_add hblockStart hsize.pages
  have hstop : 4096 ∣ c.stop.toNat := by
    rw [hc.stop_eq]
    exact Nat.dvd_add hstart (Nat.dvd_mul_left_of_dvd hsize.pages 2)
  rw [trimBack, mapped_trim hk hblockStop hstop hc.blockStop_le, trimFront,
    mapped_trim hk (hc.start_eq ▸ hstart) hblockStart hc.start_le, hmapped, hc.start_eq,
    union_Ico_diff hfresh (hc.start_eq ▸ hc.start_le) hc.block_le hc.blockStop_le, Block.bytes,
    hc.blockStop_eq]

theorem mapAligned_grants (hsize : Sized size) (w : World κ) :
    Grants mapped (mapped w.kernel) size (mapAligned k size w) := by
  have hmul : Word.mul 2 size = .ok (2 * size) := Word.mul_of_lt hsize.twice
  have htwice : (2 * size).toNat = 2 * size.toNat := Word.toNat_of_mul hmul
  rw [mapAligned, hmul]
  simp only
  rcases hanswer : k.map (2 * size) Kernel.readWrite Kernel.privateAnonymous none w.kernel with
    ⟨e | start, s⟩
  · rw [World.call_eq hanswer]
    exact ⟨fun f => nofun, hk.map_error hanswer⟩
  · obtain ⟨hstart, hroom, hfresh, hmapped⟩ :=
      hk.map_ok (htwice ▸ Nat.dvd_mul_left_of_dvd hsize.pages 2) hanswer
    rw [htwice] at hroom
    obtain ⟨c, hcut, hc⟩ := exists_cut hsize.pos hroom
    have hbytes : (Block.mk start (2 * size)).bytes = Set.Ico start.toNat c.stop.toNat := by
      rw [Block.bytes, htwice, hc.stop_eq]
    rw [hbytes] at hfresh hmapped
    rw [World.call_eq hanswer]
    simp only [hcut]
    refine ⟨⟨rfl, hc.aligned, ?_, ?_⟩, mapped_trims hk hsize hstart hc hfresh hmapped⟩
    · have := hc.blockStop_eq
      have := hc.blockStop_le
      have := hc.stop_eq
      show c.blockStart.toNat + size.toNat ≤ 2 ^ 63
      omega
    · refine hfresh.mono_right ?_
      rw [Block.bytes]
      have := hc.blockStop_le
      rw [hc.blockStop_eq] at this
      exact Set.Ico_subset_Ico (hc.start_eq ▸ hc.start_le) this

omit hk in
/-- Looking up a frame opens the page table and calls nothing else. -/
theorem kernel_inspect (block : Block) (w : World κ) :
    (inspect k block w).kernel = (k.openPageTable w.kernel).2 := by
  rw [← PageTable.kernel_open?, inspect]
  generalize PageTable.open? k w = opened
  obtain ⟨e | ⟨⟩, w'⟩ := opened
  · rfl
  · simp only
    rw [← PageTable.kernel_translate (k := k) block.base w']
    generalize PageTable.translate k block.base w' = translated
    obtain ⟨e | phys, w''⟩ := translated
    · rfl
    · simp only
      split <;> rfl

/-- A block that is refused the advice is given back. -/
theorem allocate_grants (verbose : Bool) (hsize : Sized size) (w : World κ) :
    Grants mapped (mapped w.kernel) size (allocate k verbose size w) := by
  have hgrants := mapAligned_grants hk hsize w
  rw [allocate]
  rcases hblock : mapAligned k size w with ⟨e | block, w'⟩
  · rwa [hblock] at hgrants
  · rw [hblock] at hgrants
    obtain ⟨hplaced, hmapped⟩ := hgrants
    have hadvice := hk.advise block.base size w'.kernel
    simp only
    rcases hanswer : k.advise block.base size Kernel.hugePageAdvice w'.kernel with ⟨e | ⟨⟩, s⟩
    all_goals
      rw [hanswer] at hadvice
      rw [World.call_eq hanswer]
    · have hunmap := hk.unmap s (Nat.dvd_trans hsize.pages hplaced.aligned) hsize.pages
      rw [hadvice, hmapped, ← hplaced.size_eq] at hunmap
      refine ⟨fun f => nofun, ?_⟩
      rw [← hplaced.size_eq]
      exact hunmap.trans (Set.union_sdiff_cancel_right hplaced.fresh.le_bot)
    · refine ⟨hplaced, ?_⟩
      split
      · rw [kernel_inspect, hk.openPageTable, hadvice, hmapped]
      · rw [hadvice, hmapped]

end Calls

/-! ## Blocks on top of one another -/

/-- Disjoint blocks of a size were mapped on top of the bytes `before`, and nothing else was. -/
structure Stacked (before : Set ℕ) (size : UInt64) (blocks : List Block) (now : Set ℕ) : Prop where
  placed : ∀ b ∈ blocks, Placed before size b
  apart : blocks.Pairwise fun x y => Disjoint x.bytes y.bytes
  mapped : now = before ∪ ⋃ b ∈ blocks, b.bytes

namespace Stacked

variable {before now : Set ℕ} {block : Block} {blocks : List Block}

theorem nil (before : Set ℕ) (size : UInt64) : Stacked before size [] before where
  placed := nofun
  apart := .nil
  mapped := by simp

theorem bytes_subset (h : Stacked before size blocks now) {b : Block} (hb : b ∈ blocks) :
    b.bytes ⊆ now := by
  rw [h.mapped]
  exact fun n hn => .inr (Set.mem_iUnion₂.mpr ⟨b, hb, hn⟩)

theorem push (h : Stacked before size blocks now) (hblock : Placed now size block) :
    Stacked before size (blocks ++ [block]) (now ∪ block.bytes) where
  placed := by
    intro b hb
    rcases List.mem_append.mp hb with hb | hb
    · exact h.placed b hb
    · rw [List.mem_singleton.mp hb]
      refine { hblock with fresh := hblock.fresh.mono_left ?_ }
      rw [h.mapped]
      exact Set.subset_union_left
  apart := by
    refine List.pairwise_append.mpr ⟨h.apart, List.pairwise_singleton .., fun b hb c hc => ?_⟩
    rw [List.mem_singleton.mp hc]
    exact hblock.fresh.mono_left (h.bytes_subset hb)
  mapped := by
    rw [h.mapped, Set.union_assoc]
    congr 1
    ext n
    simp [or_and_right, exists_or]

theorem pop (h : Stacked before size (block :: blocks) now) :
    Stacked before size blocks (now \ block.bytes) where
  placed b hb := h.placed b (List.mem_cons_of_mem _ hb)
  apart := (List.pairwise_cons.mp h.apart).2
  mapped := by
    have hrest : Disjoint block.bytes (before ∪ ⋃ b ∈ blocks, b.bytes) := by
      refine Set.disjoint_union_right.mpr ⟨(h.placed block (List.mem_cons_self ..)).fresh.symm, ?_⟩
      exact Set.disjoint_iUnion₂_right.mpr (List.pairwise_cons.mp h.apart).1
    have hnow : now = block.bytes ∪ (before ∪ ⋃ b ∈ blocks, b.bytes) := by
      rw [h.mapped, Set.union_left_comm]
      congr 1
      ext n
      simp
    rw [hnow]
    exact Set.union_sdiff_cancel_left hrest.le_bot

theorem perm {other : List Block} (h : Stacked before size blocks now)
    (hperm : other.Perm blocks) : Stacked before size other now where
  placed b hb := h.placed b (hperm.mem_iff.mp hb)
  apart := (hperm.pairwise_iff fun hdisjoint => hdisjoint.symm).mpr h.apart
  mapped := by
    simp only [h.mapped, hperm.mem_iff]

/-- Nothing is left of blocks that are given back. -/
theorem eq_of_nil (h : Stacked before size [] now) : now = before := by
  rw [h.mapped]
  simp

end Stacked

/-! ## Several blocks -/

section Runs

variable {k : Kernel κ} {mapped : κ → Set ℕ} (hk : k.MapsPages mapped) (verbose : Bool)
  (hsize : Sized size)
include hk hsize

theorem keeps_stacked (before : Set ℕ) :
    (allocator k verbose size).Keeps
      fun blocks w => Stacked before size blocks (mapped w.kernel) where
  handOut := by
    intro blocks block w w' h hanswer
    have hgrants := allocate_grants hk verbose hsize w
    rw [show allocate k verbose size w = _ from hanswer] at hgrants
    rw [hgrants.2]
    exact h.push hgrants.1
  refuse := by
    intro blocks e w w' h hanswer
    have hgrants := allocate_grants hk verbose hsize w
    rw [show allocate k verbose size w = _ from hanswer] at hgrants
    refine ⟨hgrants.1, ?_⟩
    rw [hgrants.2]
    exact h
  takeBack := by
    intro block blocks w h
    have hplaced := h.placed block (List.mem_cons_self ..)
    have hunmap := hk.unmap w.kernel (Nat.dvd_trans hsize.pages hplaced.aligned)
      (hplaced.size_eq ▸ hsize.pages)
    have hpop := h.pop
    rw [← hunmap] at hpop
    exact hpop
  warn := fun _ h => h

end Runs

end Allocator.Transparent

namespace Analysis

open Allocator (maxBlocks)
open Allocator.Transparent

variable {k : Kernel κ} {mapped : κ → Set ℕ} {s : Settings} {size : UInt64} {count : Nat}
  {w : World κ}

/-- An allocation ends with `count` blocks on top of what was mapped, which can be given back in
    any order, or with a failure and what was mapped. -/
def AllOrNone (k : Kernel κ) (mapped : κ → Set ℕ) (size : UInt64) (count : Nat) (before : World κ) :
    Except Failure (List Block) × World κ → Prop
  | (.ok blocks, w) =>
      blocks.length = count ∧ Stacked (mapped before.kernel) size blocks (mapped w.kernel)
        ∧ ∀ order, order.Perm blocks →
            mapped (releaseBlocks k order w).kernel = mapped before.kernel
  | (.error e, w) => (∀ f, e ≠ .fault f) ∧ mapped w.kernel = mapped before.kernel

/-- Blocks of a power of two number of pages are large enough for the settings. -/
theorem allocateTransparent_eq (hpower : ∃ n, s.pagesPerHugeBlock.toNat = 2 ^ n)
    (hbytes : Page.bytes s.pagesPerHugeBlock = .ok size) (verbose : Bool) (w : World κ) :
    allocateTransparent k verbose s count w
      = allocateBlocks (allocator k verbose size) count w := by
  obtain ⟨n, hn⟩ := hpower
  have hpages : s.pagesPerHugeBlock ≠ 0 := by
    intro hzero
    rw [hzero] at hn
    exact absurd hn.symm (Nat.two_pow_pos n).ne'
  have hsize : Word.isPowerOfTwo size = true := by
    refine Word.isPowerOfTwo_iff.mpr ⟨n + 12, ?_⟩
    rw [Word.toNat_of_mul hbytes, hn, Nat.pow_add]
    rfl
  have hsizeOf : sizeOfPages s.pagesPerHugeBlock = .ok size := by
    rw [sizeOfPages, hbytes]
    exact if_pos ⟨hpages, hsize⟩
  have hcheck : checkSize s size = .ok () := by
    rw [checkSize, Settings.hugeBlockBytes, hbytes]
    exact if_neg (Nat.lt_irrefl _)
  rw [allocateTransparent, hsizeOf]
  simp only [hcheck]

/-- Blocks that are stacked can be given back in any order. -/
theorem releaseBlocks_stacked (hk : k.MapsPages mapped) (hsize : Sized size) {before : Set ℕ}
    {blocks order : List Block} (h : Stacked before size blocks (mapped w.kernel))
    (horder : order.Perm blocks) : mapped (releaseBlocks k order w).kernel = before :=
  ((keeps_stacked hk false hsize before).releaseAll (h.perm horder)).eq_of_nil

/-- What the loop over the blocks keeps settles the allocation. -/
theorem allOrNone_of_stacked (hk : k.MapsPages mapped) (hsize : Sized size)
    (hcount : count < maxBlocks) {result : Except AllocationError (List Block) × World κ}
    (h : Allocator.AllOrNone
      (fun blocks after => Stacked (mapped w.kernel) size blocks (mapped after.kernel))
      count result) :
    AllOrNone k mapped size count w (result.1.mapError .ofAllocation, result.2) := by
  obtain ⟨e | blocks, after⟩ := result
  · obtain ⟨hfault, hnone⟩ := h
    refine ⟨fun f hf => ?_, hnone.eq_of_nil⟩
    exact absurd (hfault f (Failure.ofAllocation_eq_fault hf)) (Nat.not_le.mpr hcount)
  · obtain ⟨hlength, hall⟩ := h
    exact ⟨hlength, hall, fun order horder => releaseBlocks_stacked hk hsize hall horder⟩

/-- Blocks that are stacked, as many as the settings ask for, suit the settings. -/
theorem suited_of_stacked {before now : Set ℕ} {blocks : List Block}
    (hpower : ∃ n, s.pagesPerHugeBlock.toNat = 2 ^ n)
    (hsize : size.toNat = s.pagesPerHugeBlock.toNat * 4096)
    (h : Stacked before size blocks now)
    (hcount : blocks.length = s.initialHugeBlocks.toNat + s.additionalHugeBlocks.toNat) :
    Suited s size blocks where
  power := by
    obtain ⟨n, hn⟩ := hpower
    refine ⟨n + 12, ?_⟩
    rw [hsize, hn, Nat.pow_add]
  sizes block hblock := (h.placed block hblock).size_eq
  aligned block hblock := (h.placed block hblock).aligned
  room block hblock := by
    have := (h.placed block hblock).below
    omega
  disjoint := by
    refine h.apart.imp fun hdisjoint a hx hy => ?_
    exact Set.disjoint_left.mp hdisjoint (Block.contains_iff.mp hx) (Block.contains_iff.mp hy)
  count := hcount
  pages := hsize.ge

/-- Allocating transparent huge blocks is all or none, whatever the kernel answers, unless the
    list of blocks is larger than the address space. -/
theorem transparent_all_or_none (hk : k.MapsPages mapped) (verbose : Bool)
    (hpower : ∃ n, s.pagesPerHugeBlock.toNat = 2 ^ n)
    (hroom : 2 * (s.pagesPerHugeBlock.toNat * 4096) < 2 ^ 64) (count : Nat) (w : World κ) :
    ∃ size : UInt64, size.toNat = s.pagesPerHugeBlock.toNat * 4096
      ∧ (count < maxBlocks →
          AllOrNone k mapped size count w (allocate k verbose .transparent s count w))
      ∧ (maxBlocks ≤ count →
          allocate k verbose .transparent s count w = (.error (.fault .capacity), w)) := by
  obtain ⟨size, hbytes, hvalue⟩ :=
    Page.exists_bytes (show s.pagesPerHugeBlock.toNat * 4096 < 2 ^ 64 by omega)
  have hsize : Sized size := by
    obtain ⟨n, hn⟩ := hpower
    have := Nat.two_pow_pos n
    exact ⟨by omega, hvalue ▸ Nat.dvd_mul_left .., by omega⟩
  have hallocate : allocate k verbose .transparent s count w
      = allocateBlocks (allocator k verbose size) count w :=
    allocateTransparent_eq hpower hbytes verbose w
  rw [hallocate, allocateBlocks]
  refine ⟨size, hvalue, fun hcount => allOrNone_of_stacked hk hsize hcount ?_, fun hcount => ?_⟩
  · exact (keeps_stacked hk verbose hsize _).allocateBlocks (Stacked.nil _ _) count
  · rw [Allocator.allocateBlocks_of_le hcount]
    rfl

/-- Three blocks on top of a mapped page lie behind one another, and when the kernel refuses the
    advice for the third, all of them are given back. -/
theorem transparent_all_or_none_bump :
    Bump.kernel.MapsPages Bump.mapped
      ∧ (∃ n, ({} : Settings).pagesPerHugeBlock.toNat = 2 ^ n)
      ∧ 2 * (({} : Settings).pagesPerHugeBlock.toNat * 4096) < 2 ^ 64
      ∧ (∃ size : UInt64, size.toNat = ({} : Settings).pagesPerHugeBlock.toNat * 4096
        ∧ AllOrNone Bump.kernel Bump.mapped size 3 (Bump.world [false, false, true])
            (allocate Bump.kernel false .transparent {} 3 (Bump.world [false, false, true])))
      ∧ (allocate Bump.kernel false .transparent {} 3 (Bump.world [false, false, true])).1
          = .error (.allocation (.system .noMemory))
      ∧ (allocate Bump.kernel false .transparent {} 3 (Bump.world [])).1
          = .ok [⟨0x200000, 0x200000⟩, ⟨0x600000, 0x200000⟩, ⟨0xa00000, 0x200000⟩] := by
  obtain ⟨size, hsize, hall, -⟩ :=
    transparent_all_or_none (s := {}) Bump.mapsPages false ⟨9, rfl⟩ (by decide) 3
      (Bump.world [false, false, true])
  exact ⟨Bump.mapsPages, ⟨9, rfl⟩, by decide, ⟨size, hsize, hall (by decide)⟩,
    by decide +kernel, by decide +kernel⟩

/-- With 2^59 blocks an allocation is neither carried out nor refused, although the kernel has
    nothing mapped and refuses everything. -/
theorem allocation_of_too_many_faults :
    Kernel.unavailable.MapsPages (fun _ => ∅)
      ∧ (∃ n, ({} : Settings).pagesPerHugeBlock.toNat = 2 ^ n)
      ∧ 2 * (({} : Settings).pagesPerHugeBlock.toNat * 4096) < 2 ^ 64
      ∧ ∀ size, ¬ AllOrNone Kernel.unavailable (fun _ => ∅) size (2 ^ 59) ⟨(), []⟩
          (allocate Kernel.unavailable false .transparent {} (2 ^ 59) ⟨(), []⟩) := by
  have hfault : allocate Kernel.unavailable false .transparent {} (2 ^ 59) ⟨(), []⟩
      = (.error (.fault .capacity), ⟨(), []⟩) := by rfl
  refine ⟨⟨nofun, fun _ => rfl, fun _ _ _ => ?_, fun _ _ _ => rfl, fun _ => rfl⟩, ⟨9, rfl⟩,
    by decide, fun size h => ?_⟩
  · exact (Set.empty_sdiff _).symm
  · rw [hfault] at h
    exact h.1 .capacity rfl

end Analysis

end DramBanks
