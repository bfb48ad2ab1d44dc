import DramBanks.Allocator
import DramBanks.Allocator.HugePageSize
import DramBanks.Kernel
/-!
# Huge pages from files

    A file below the mount point of huge pages is backed by huge pages of
    the default size.  Every block is a mapping of a file of its own,
    which is closed and removed as soon as it is mapped: the mapping keeps
    its pages.  The name of a file counts the blocks that were allocated
    so far.
-/

namespace DramBanks.Allocator.HugeFile

variable {κ : Type}

/-- The world, and the number of blocks allocated so far. -/
structure State (κ : Type) where
  allocated : Nat
  world : World κ

/-- The mount point of huge pages. -/
def directory : String := "/dev/hugepages"

def path (k : Kernel κ) (number : Nat) : String :=
  s!"{directory}/bankfn_{k.processId}_{number}"

/-- Removes a file, with a warning if that fails. -/
def remove (k : Kernel κ) (path : String) (w : World κ) : World κ :=
  match w.call (k.unlink path) with
  | (.ok (), w) => w
  | (.error e, w) => w.warn (.unlinkFailed path e.message)

/-- Maps a file that is opened for this and closed and removed again. -/
def mapFile (k : Kernel κ) (path : String) (size : UInt64) (w : World κ) :
    Except AllocationError Block × World κ :=
  match w.call (k.openFile path Kernel.readWriteCreate Kernel.ownerReadWrite) with
  | (.error e, w) => (.error (.system e), w)
  | (.ok file, w) =>
      match w.call (k.map size Kernel.readWrite Kernel.sharedPopulated (some file)) with
      | (.error e, w) => (.error (.system e), remove k path (w.run (k.close file)))
      | (.ok base, w) => (.ok ⟨base, size⟩, remove k path (w.run (k.close file)))

/-- Allocates one huge page, if its size is known. -/
def allocate (k : Kernel κ) (size : Option UInt64) (s : State κ) :
    Except AllocationError Block × State κ :=
  match size with
  | none => (.error .noHugePageSize, s)
  | some size =>
      match mapFile k (path k s.allocated) size s.world with
      | (.error e, w) => (.error e, { s with world := w })
      | (.ok block, w) => (.ok block, ⟨s.allocated + 1, w⟩)

def allocator (k : Kernel κ) (size : Option UInt64) : Allocator (State κ) where
  allocate := allocate k size
  release := fun block s => { s with world := s.world.release k block.base block.size }
  warn := fun warning s => { s with world := s.world.warn warning }

end DramBanks.Allocator.HugeFile
