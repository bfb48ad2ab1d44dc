import Mathlib
import DramBanks.Allocator.HugeFile
import DramBanks.Proofs.Allocator.AllOrNone
/-!
# Huge pages from files leave nothing behind

    The kernel is seen as the open descriptors, the files and the mapped
    ranges of a process (`Holdings`); opening and mapping may fail as they
    like, closing, removing and unmapping what is there succeed
    (`Kernel.MapsFiles`).  A block is mapped between the opening and the
    removal of its file, on both ways out, so that an allocation changes
    the mapped ranges only (`Held`), and these by all of its blocks or by
    none.

    The counter in the name of a file goes up with every block that is
    handed out, and only then (`Counted`), whatever the kernel does.  The
    names of these blocks are therefore different.
-/

namespace DramBanks

variable {κ : Type}

/-- What a process holds of the system. -/
structure Holdings where
  descriptors : Set Descriptor
  files : Set String
  ranges : Multiset Block

/-- What the calls for huge pages from files do to the holdings.  A new descriptor is not open yet,
    and a new range is disjoint from those that are mapped. -/
structure Kernel.MapsFiles (k : Kernel κ) (view : κ → Holdings) : Prop where
  openFile_ok : ∀ {path s file s'},
    k.openFile path Kernel.readWriteCreate Kernel.ownerReadWrite s = (.ok file, s') →
      file ∉ (view s).descriptors
        ∧ view s' = { view s with
            descriptors := insert file (view s).descriptors
            files := insert path (view s).files }
  openFile_error : ∀ {path s e s'},
    k.openFile path Kernel.readWriteCreate Kernel.ownerReadWrite s = (.error e, s') →
      view s' = view s
  map_ok : ∀ {length file s base s'}, file ∈ (view s).descriptors →
    k.map length Kernel.readWrite Kernel.sharedPopulated (some file) s = (.ok base, s') →
      (∀ range ∈ (view s).ranges, Disjoint range.bytes (Block.mk base length).bytes)
        ∧ view s' = { view s with ranges := ⟨base, length⟩ ::ₘ (view s).ranges }
  map_error : ∀ {length file s e s'}, file ∈ (view s).descriptors →
    k.map length Kernel.readWrite Kernel.sharedPopulated (some file) s = (.error e, s') →
      view s' = view s
  close : ∀ {file s}, file ∈ (view s).descriptors →
    view (k.close file s) = { view s with descriptors := (view s).descriptors \ {file} }
  unlink : ∀ {path s}, path ∈ (view s).files →
    ∃ s', k.unlink path s = (.ok (), s')
      ∧ view s' = { view s with files := (view s).files \ {path} }
  unmap : ∀ {range s}, range ∈ (view s).ranges →
    view (k.unmap range.base range.size s)
      = { view s with ranges := (view s).ranges.erase range }

/-! ## A kernel with a table of what is held -/

/-- The state of a kernel that opens and maps upwards and refuses as it is told. -/
structure HoldingTable where
  holdings : Holdings := ⟨∅, ∅, 0⟩
  /-- The descriptor to come, and the end of what is mapped. -/
  next : Nat := 3
  top : Nat := 0
  open_lt : ∀ file ∈ holdings.descriptors, file < next := by exact nofun
  stop_le : ∀ range ∈ holdings.ranges, range.base.toNat + range.size.toNat ≤ top := by exact nofun
  /-- Whether the coming calls that open and map are refused. -/
  refusals : List Bool := []

namespace HoldingTable

variable (t : HoldingTable)

def openFile (path : String) : Except Errno Descriptor × HoldingTable :=
  if t.refusals.head? = some true then
    (.error .noAccess, { t with refusals := t.refusals.tail })
  else
    (.ok t.next,
     { t with
       holdings := { t.holdings with
         descriptors := insert t.next t.holdings.descriptors
         files := insert path t.holdings.files }
       next := t.next + 1
       open_lt := by
         rintro file (rfl | hfile)
         · exact Nat.lt_succ_self _
         · exact Nat.lt_succ_of_lt (t.open_lt file hfile)
       refusals := t.refusals.tail })

theorem toNat_base (h : ¬ 2 ^ 64 ≤ t.top) : (UInt64.ofNat t.top).toNat = t.top :=
  UInt64.toNat_ofNat_of_lt' (Nat.not_le.mp h)

def map (length : UInt64) : Except Errno Address × HoldingTable :=
  if h : t.refusals.head? = some true ∨ 2 ^ 64 ≤ t.top then
    (.error .noMemory, { t with refusals := t.refusals.tail })
  else
    (.ok (UInt64.ofNat t.top),
     { t with
       holdings := { t.holdings with
         ranges := ⟨UInt64.ofNat t.top, length⟩ ::ₘ t.holdings.ranges }
       top := t.top + length.toNat
       stop_le := by
         intro range hrange
         rcases Multiset.mem_cons.mp hrange with rfl | hrange
         · rw [t.toNat_base fun hle => h (.inr hle)]
         · exact Nat.le_add_right_of_le (t.stop_le range hrange)
       refusals := t.refusals.tail })

def kernel : Kernel HoldingTable where
  processId := "1"
  memoryInfo := ""
  map := fun length _ _ _ t => t.map length
  unmap := fun base length t =>
    { t with
      holdings := { t.holdings with ranges := t.holdings.ranges.erase ⟨base, length⟩ }
      stop_le := fun range hrange => t.stop_le range (Multiset.mem_of_mem_erase hrange) }
  advise := fun _ _ _ t => (.error .noMemory, t)
  openFile := fun path _ _ t => t.openFile path
  close := fun file t =>
    { t with
      holdings := { t.holdings with descriptors := t.holdings.descriptors \ {file} }
      open_lt := fun other hother => t.open_lt other hother.1 }
  unlink := fun path t =>
    (.ok (), { t with holdings := { t.holdings with files := t.holdings.files \ {path} } })
  openPageTable := fun t => (.error .noAccess, t)
  pageEntry? := fun _ _ => none

theorem mapsFiles : kernel.MapsFiles holdings where
  openFile_ok := by
    intro path t file t' hanswer
    have hanswer : t.openFile path = (.ok file, t') := hanswer
    rw [openFile] at hanswer
    split at hanswer
    · cases hanswer
    · cases hanswer
      exact ⟨fun hopen => Nat.lt_irrefl _ (t.open_lt _ hopen), rfl⟩
  openFile_error := by
    intro path t e t' hanswer
    have hanswer : t.openFile path = (.error e, t') := hanswer
    rw [openFile] at hanswer
    split at hanswer
    · cases hanswer
      rfl
    · cases hanswer
  map_ok := by
    intro length file t base t' _ hanswer
    have hanswer : t.map length = (.ok base, t') := hanswer
    rw [map] at hanswer
    split at hanswer
    · cases hanswer
    · next h =>
        cases hanswer
        refine ⟨fun range hrange => Set.disjoint_left.mpr fun n hn hnew => ?_, rfl⟩
        have hstop := Nat.lt_of_lt_of_le hn.2 (t.stop_le range hrange)
        have hstart : t.top ≤ n := t.toNat_base (fun hle => h (.inr hle)) ▸ hnew.1
        omega
  map_error := by
    intro length file t e t' _ hanswer
    have hanswer : t.map length = (.error e, t') := hanswer
    rw [map] at hanswer
    split at hanswer
    · cases hanswer
      rfl
    · cases hanswer
  close _ := rfl
  unlink _ := ⟨_, rfl, rfl⟩
  unmap _ := rfl

/-- Nothing is held, and the second mapping will be refused. -/
def refusing : World HoldingTable := ⟨{ refusals := [false, false, false, true] }, []⟩

end HoldingTable

namespace Allocator.HugeFile

/-! ## The names of files -/

/-- A name tells how many blocks came before. -/
theorem path_injective (k : Kernel κ) : Function.Injective (path k) := by
  intro m n h
  rw [path, path] at h
  exact Nat.repr_inj.mp ((String.append_right_inj _).mp h)

/-! ## One block -/

section Cases

variable {k : Kernel κ} {size : Option UInt64} {s s' : State κ} {w w' : World κ}
  {answer : Except AllocationError Block}

/-- A file is not opened, or opened, mapped or not, and closed and removed. -/
theorem mapFile_cases {name : String} {size : UInt64} (h : mapFile k name size w = (answer, w')) :
    (∃ e s, k.openFile name Kernel.readWriteCreate Kernel.ownerReadWrite w.kernel = (.error e, s)
      ∧ answer = .error (.system e) ∧ w' = { w with kernel := s })
      ∨ ∃ file s result s',
        k.openFile name Kernel.readWriteCreate Kernel.ownerReadWrite w.kernel = (.ok file, s)
        ∧ k.map size Kernel.readWrite Kernel.sharedPopulated (some file) s = (result, s')
        ∧ answer = (result.map fun base => ⟨base, size⟩).mapError .system
        ∧ w' = remove k name (World.run (k.close file) { w with kernel := s' }) := by
  rw [mapFile] at h
  rcases hopen : k.openFile name Kernel.readWriteCreate Kernel.ownerReadWrite w.kernel with
    ⟨e | file, s⟩
  all_goals
    rw [World.call_eq hopen] at h
  · cases h
    exact .inl ⟨e, s, rfl, rfl, rfl⟩
  · simp only at h
    rcases hmap : k.map size Kernel.readWrite Kernel.sharedPopulated (some file) s with
      ⟨result, s'⟩
    rw [World.call_eq hmap] at h
    refine .inr ⟨file, s, result, s', rfl, hmap, ?_⟩
    cases result <;> cases h <;> exact ⟨rfl, rfl⟩

/-- An allocation fails without a size or with its file, and counts only if it succeeds. -/
theorem allocate_cases (h : allocate k size s = (answer, s')) :
    (size = none ∧ answer = .error .noHugePageSize ∧ s' = s)
      ∨ (∃ n w e, size = some n ∧ mapFile k (path k s.allocated) n s.world = (.error e, w)
        ∧ answer = .error e ∧ s' = { s with world := w })
      ∨ ∃ n w block, size = some n ∧ mapFile k (path k s.allocated) n s.world = (.ok block, w)
        ∧ answer = .ok block ∧ s' = ⟨s.allocated + 1, w⟩ := by
  cases size with
  | none =>
      cases h
      exact .inl ⟨rfl, rfl, rfl⟩
  | some n =>
      rw [allocate] at h
      rcases hfile : mapFile k (path k s.allocated) n s.world with ⟨e | block, w⟩
      all_goals
        rw [hfile] at h
        cases h
      · exact .inr (.inl ⟨n, w, e, rfl, hfile, rfl, rfl⟩)
      · exact .inr (.inr ⟨n, w, block, rfl, hfile, rfl, rfl⟩)

/-- An allocation is never a fault. -/
theorem ne_fault_of_allocate {e : AllocationError} (h : allocate k size s = (.error e, s'))
    (f : Fault) : e ≠ .fault f := by
  rintro rfl
  rcases allocate_cases h with ⟨-, hfail, -⟩ | ⟨n, w, e, -, hfile, hfail, -⟩
    | ⟨_, _, _, -, -, hok, -⟩
  · cases hfail
  · cases hfail
    rcases mapFile_cases hfile with ⟨_, _, -, hsystem, -⟩ | ⟨_, _, result, _, -, -, hsystem, -⟩
    · cases hsystem
    · cases result <;> cases hsystem
  · cases hok

end Cases

/-- A block is mapped on top of the holdings `before`, or it is not; a file of the given name is
    gone. -/
def Grants (view : κ → Holdings) (before : Holdings) (name : String) (size : UInt64) :
    Except AllocationError Block × World κ → Prop
  | (.ok block, w) =>
      block.size = size ∧ (∀ range ∈ before.ranges, Disjoint range.bytes block.bytes)
        ∧ view w.kernel = { before with
            files := before.files \ {name}
            ranges := block ::ₘ before.ranges }
  | (.error _, w) =>
      view w.kernel = before ∨ view w.kernel = { before with files := before.files \ {name} }

section Calls

variable {k : Kernel κ} {view : κ → Holdings} (hk : k.MapsFiles view)
include hk

/-- An opened file is closed and removed again. -/
theorem view_remove {name : String} {file : Descriptor} {w : World κ}
    {descriptors : Set Descriptor} {files : Set String} {ranges : Multiset Block}
    (hfresh : file ∉ descriptors)
    (hview : view w.kernel = ⟨insert file descriptors, insert name files, ranges⟩) :
    view (remove k name (w.run (k.close file))).kernel
      = ⟨descriptors, files \ {name}, ranges⟩ := by
  have hopen : file ∈ (view w.kernel).descriptors := by
    rw [hview]
    exact Set.mem_insert ..
  have hclose := hk.close hopen
  have hfile : name ∈ (view (k.close file w.kernel)).files := by
    rw [hclose, hview]
    exact Set.mem_insert ..
  obtain ⟨s, hanswer, hunlink⟩ := hk.unlink hfile
  have hcall : (w.run (k.close file)).call (k.unlink name) = (.ok (), ⟨s, w.warnings⟩) :=
    World.call_eq hanswer
  rw [remove, hcall]
  simp only
  rw [hunlink, hclose, hview]
  simp only
  rw [Set.insert_sdiff_self_of_notMem hfresh,
    Set.insert_sdiff_of_mem _ (Set.mem_singleton name)]

theorem mapFile_grants (name : String) (size : UInt64) (w : World κ) :
    Grants view (view w.kernel) name size (mapFile k name size w) := by
  rcases hanswer : mapFile k name size w with ⟨answer, w'⟩
  rcases mapFile_cases hanswer with ⟨e, s, hopen, rfl, rfl⟩
    | ⟨file, s, result, s', hopen, hmap, rfl, rfl⟩
  · exact .inl (hk.openFile_error hopen)
  · obtain ⟨hfresh, hopened⟩ := hk.openFile_ok hopen
    have hfile : file ∈ (view s).descriptors := by
      rw [hopened]
      exact Set.mem_insert ..
    cases result with
    | error e => exact .inr (view_remove hk hfresh ((hk.map_error hfile hmap).trans hopened))
    | ok base =>
        obtain ⟨hdisjoint, hmapped⟩ := hk.map_ok hfile hmap
        rw [hopened] at hdisjoint hmapped
        exact ⟨rfl, hdisjoint, view_remove hk hfresh hmapped⟩

end Calls

/-! ## Several blocks -/

/-- Disjoint blocks of the size of a huge page were mapped on top of the holdings `before`.  Nothing
    else is left of their allocation, save that files of the allocator's names are gone. -/
structure Held (k : Kernel κ) (size : Option UInt64) (before : Holdings) (blocks : List Block)
    (now : Holdings) : Prop where
  descriptors : now.descriptors = before.descriptors
  files : ∃ names ⊆ Set.range (path k), now.files = before.files \ names
  ranges : now.ranges = ↑blocks + before.ranges
  sizes : ∀ b ∈ blocks, size = some b.size
  apart : blocks.Pairwise fun x y => Disjoint x.bytes y.bytes
  fresh : ∀ b ∈ blocks, ∀ range ∈ before.ranges, Disjoint range.bytes b.bytes

namespace Held

variable {k : Kernel κ} {size : Option UInt64} {before now : Holdings} {blocks : List Block}

theorem nil (k : Kernel κ) (size : Option UInt64) (before : Holdings) :
    Held k size before [] before where
  descriptors := rfl
  files := ⟨∅, Set.empty_subset _, Set.sdiff_empty.symm⟩
  ranges := (Multiset.zero_add _).symm
  sizes := nofun
  apart := .nil
  fresh := nofun

theorem withoutFile (h : Held k size before blocks now) (number : Nat) :
    Held k size before blocks { now with files := now.files \ {path k number} } := by
  obtain ⟨names, hnames, hfiles⟩ := h.files
  refine { h with files := ⟨names ∪ {path k number}, ?_, ?_⟩ }
  · exact Set.union_subset hnames (Set.singleton_subset_iff.mpr ⟨number, rfl⟩)
  · rw [hfiles, Set.sdiff_sdiff]

theorem push (h : Held k size before blocks now) {block : Block} (hsize : size = some block.size)
    (hfresh : ∀ range ∈ now.ranges, Disjoint range.bytes block.bytes) :
    Held k size before (blocks ++ [block]) { now with ranges := block ::ₘ now.ranges } where
  descriptors := h.descriptors
  files := h.files
  ranges := by
    have hblocks : (↑(blocks ++ [block]) : Multiset Block) = block ::ₘ ↑blocks :=
      Multiset.coe_eq_coe.mpr (List.perm_append_singleton ..)
    rw [hblocks, Multiset.cons_add, ← h.ranges]
  sizes := by
    intro b hb
    rcases List.mem_append.mp hb with hb | hb
    · exact h.sizes b hb
    · rw [List.mem_singleton.mp hb, hsize]
  apart := by
    refine List.pairwise_append.mpr ⟨h.apart, List.pairwise_singleton .., fun b hb c hc => ?_⟩
    rw [List.mem_singleton.mp hc]
    refine hfresh b ?_
    rw [h.ranges]
    exact Multiset.mem_add.mpr (.inl hb)
  fresh := by
    intro b hb range hrange
    rcases List.mem_append.mp hb with hb | hb
    · exact h.fresh b hb range hrange
    · rw [List.mem_singleton.mp hb]
      refine hfresh range ?_
      rw [h.ranges]
      exact Multiset.mem_add.mpr (.inr hrange)

theorem pop {block : Block} (h : Held k size before (block :: blocks) now) :
    Held k size before blocks { now with ranges := now.ranges.erase block } where
  descriptors := h.descriptors
  files := h.files
  ranges := by
    rw [h.ranges, ← Multiset.cons_coe, Multiset.cons_add, Multiset.erase_cons_head]
  sizes b hb := h.sizes b (List.mem_cons_of_mem _ hb)
  apart := (List.pairwise_cons.mp h.apart).2
  fresh b hb := h.fresh b (List.mem_cons_of_mem _ hb)

end Held

theorem keeps_held {k : Kernel κ} {view : κ → Holdings} (hk : k.MapsFiles view)
    (size : Option UInt64) (before : Holdings) :
    (allocator k size).Keeps fun blocks s => Held k size before blocks (view s.world.kernel) where
  handOut := by
    intro blocks block s s' h hanswer
    rcases allocate_cases hanswer with ⟨-, hfail, -⟩ | ⟨_, _, _, -, -, hfail, -⟩
      | ⟨n, w, b, rfl, hfile, hok, rfl⟩
    · cases hfail
    · cases hfail
    · cases hok
      have hgrants := mapFile_grants hk (path k s.allocated) n s.world
      rw [hfile] at hgrants
      obtain ⟨hsize, hfresh, hview⟩ := hgrants
      rw [hview]
      exact (h.push (congrArg some hsize.symm) hfresh).withoutFile s.allocated
  refuse := by
    intro blocks e s s' h hanswer
    refine ⟨ne_fault_of_allocate hanswer, ?_⟩
    rcases allocate_cases hanswer with ⟨-, -, rfl⟩ | ⟨n, w, e', -, hfile, -, rfl⟩
      | ⟨_, _, _, -, -, hok, -⟩
    · exact h
    · have hgrants := mapFile_grants hk (path k s.allocated) n s.world
      rw [hfile] at hgrants
      obtain hview | hview := hgrants
      all_goals rw [hview]
      · exact h
      · exact h.withoutFile s.allocated
    · cases hok
  takeBack := by
    intro block blocks s h
    have hmem : block ∈ (view s.world.kernel).ranges := by
      rw [h.ranges]
      exact Multiset.mem_add.mpr (.inl (List.mem_cons_self ..))
    have hpop := h.pop
    rw [← hk.unmap hmem] at hpop
    exact hpop
  warn := fun _ h => h

/-! ## The counter -/

/-- The blocks that were handed out are numbered in turn. -/
def Counted (p : State κ × List (State κ)) : Prop :=
  p.2.map State.allocated = List.range p.1.allocated

/-- The counter counts, whatever the kernel does. -/
theorem keeps_counted (k : Kernel κ) (size : Option UInt64) :
    (allocator k size).recorded.Keeps fun _ => Counted where
  handOut := by
    rintro - block ⟨s, log⟩ p' h hanswer
    obtain ⟨s', hplain, rfl⟩ := recorded_ok _ hanswer
    rcases allocate_cases hplain with ⟨-, hfail, -⟩ | ⟨_, _, _, -, -, hfail, -⟩
      | ⟨n, w, b, -, -, -, rfl⟩
    · cases hfail
    · cases hfail
    · rw [Counted, List.map_append, show log.map _ = _ from h, List.map_singleton,
        List.range_succ]
  refuse := by
    rintro - e ⟨s, log⟩ p' h hanswer
    obtain ⟨s', hplain, rfl⟩ := recorded_error _ hanswer
    refine ⟨ne_fault_of_allocate hplain, ?_⟩
    rcases allocate_cases hplain with ⟨-, -, rfl⟩ | ⟨n, w, e', -, -, -, rfl⟩
      | ⟨_, _, _, -, -, hok, -⟩
    · exact h
    · exact h
    · cases hok
  takeBack := fun h => h
  warn := fun _ h => h

namespace Counted

variable {s : State κ} {log : List (State κ)}

theorem length_eq (h : Counted (s, log)) : s.allocated = log.length := by
  rw [← List.length_map (f := State.allocated), show log.map _ = _ from h, List.length_range]

theorem nodup_paths (k : Kernel κ) (h : Counted (s, log)) :
    (log.map fun s => path k s.allocated).Nodup := by
  have hpaths : (log.map fun s => path k s.allocated) = (List.range s.allocated).map (path k) := by
    rw [← show log.map _ = _ from h, List.map_map]
    rfl
  rw [hpaths]
  exact List.nodup_range.map (path_injective k)

end Counted

/-! ## Calls on one allocator -/

/-- Whatever is asked of an allocator and whatever the kernel answers, an allocation leaves no
    descriptor open and no file behind, and maps all of its blocks or none.  The allocator counts
    the blocks that it hands out, and the files behind them have different names. -/
theorem huge_files_leave_nothing_behind {k : Kernel κ} {view : κ → Holdings}
    (hk : k.MapsFiles view) (size : Option UInt64) (w : World κ) (requests : List Request)
    (count : Nat) :
    let a := allocator k size
    let s := a.serveAll requests ⟨0, w⟩
    let r := a.allocateBlocks count s
    let recorded := a.recorded.serveAll (requests ++ [.blocks count]) (⟨0, w⟩, [])
    AllOrNone (fun blocks now => Held k size (view s.world.kernel) blocks (view now.world.kernel))
        count r
      ∧ recorded.1 = r.2 ∧ r.2.allocated = recorded.2.length
      ∧ (recorded.2.map fun s => path k s.allocated).Nodup := by
  intro a s r recorded
  have hstate : recorded.1 = r.2 := by
    show (a.recorded.serveAll _ _).1 = _
    rw [recorded_serveAll, serveAll_append]
    rfl
  have hcounted : Counted (r.2, recorded.2) := by
    rw [← hstate]
    exact (keeps_counted k size).serveAll (show Counted (⟨0, w⟩, []) from rfl) _
  exact ⟨(keeps_held hk size _).allocateBlocks (Held.nil k size _) count, hstate,
    hcounted.length_eq, hcounted.nodup_paths k⟩

/-- The first allocation is refused its second mapping and gives its block back; the files of the
    next one go on with the number of the file that could not be mapped. -/
theorem huge_files_leave_nothing_behind_refused :
    HoldingTable.kernel.MapsFiles HoldingTable.holdings
      ∧ (let a := allocator HoldingTable.kernel (some 0x200000)
        let s := a.serveAll [.blocks 2] ⟨0, HoldingTable.refusing⟩
        let r := a.allocateBlocks 2 s
        let recorded :=
          a.recorded.serveAll ([.blocks 2] ++ [.blocks 2]) (⟨0, HoldingTable.refusing⟩, [])
        AllOrNone
            (fun blocks now => Held HoldingTable.kernel (some 0x200000) s.world.kernel.holdings
              blocks now.world.kernel.holdings) 2 r
          ∧ recorded.1 = r.2 ∧ r.2.allocated = recorded.2.length
          ∧ (recorded.2.map fun s => path HoldingTable.kernel s.allocated).Nodup)
      ∧ ((allocator HoldingTable.kernel (some 0x200000)).allocateBlocks 2
          ⟨0, HoldingTable.refusing⟩).1 = .error (.system .noMemory)
      ∧ ((allocator HoldingTable.kernel (some 0x200000)).serveAll [.blocks 2, .blocks 2]
          ⟨0, HoldingTable.refusing⟩).allocated = 3 :=
  ⟨HoldingTable.mapsFiles,
    huge_files_leave_nothing_behind HoldingTable.mapsFiles (some 0x200000) HoldingTable.refusing
      [.blocks 2] 2,
    by decide +kernel, by decide +kernel⟩

end Allocator.HugeFile

end DramBanks
