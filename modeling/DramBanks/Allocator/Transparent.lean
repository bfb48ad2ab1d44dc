import DramBanks.Allocator
import DramBanks.Failure
/-!
# Transparent huge pages

    A block that the kernel can back with one huge page starts at a
    multiple of its size.  Such a block is cut out of a mapping of twice
    the size: what lies in front of the first boundary and what lies
    behind the block is given back.  Then the kernel is advised to use a
    huge page, and if it refuses, the block is given back too.
-/

namespace DramBanks.Allocator.Transparent

variable {κ : Type}

/-- The bytes of a block of `pages` pages, which have to be a power of two. -/
def sizeOfPages (pages : UInt64) : Except Failure UInt64 :=
  match Page.bytes pages with
  | .error f => .error (.fault f)
  | .ok bytes =>
      if pages ≠ 0 ∧ Word.isPowerOfTwo bytes then .ok bytes else .error (.blockSize bytes)

/-- The bytes of a block, unless they are configured. -/
def defaultSize : UInt64 := Page.perHugeBlock * Page.size

/-- The first multiple of `align` from `addr` on. -/
def alignUp (addr : Address) (align : UInt64) : Except Fault Address :=
  if align = 0 then .error .divisionByZero
  else if addr % align = 0 then .ok addr
  else Word.add addr (align - addr % align)

/-- How a mapping is cut: the block, its end, and the end of the mapping. -/
structure Cut where
  start : Address
  blockStart : Address
  blockStop : Address
  stop : Address
deriving DecidableEq, Repr

/-- The cut of a mapping of twice the size at `start`. -/
def cut (size : UInt64) (start : Address) : Except Fault Cut :=
  match alignUp start size with
  | .error f => .error f
  | .ok blockStart =>
      match Word.add blockStart size, Word.add start (2 * size) with
      | .ok blockStop, .ok stop => .ok ⟨start, blockStart, blockStop, stop⟩
      | .error f, _ => .error f
      | _, .error f => .error f

def trimFront (k : Kernel κ) (c : Cut) (w : World κ) : World κ :=
  if c.start < c.blockStart then w.release k c.start (c.blockStart - c.start) else w

def trimBack (k : Kernel κ) (c : Cut) (w : World κ) : World κ :=
  if c.blockStop < c.stop then w.release k c.blockStop (c.stop - c.blockStop) else w

/-- Maps a block that starts at a multiple of its size. -/
def mapAligned (k : Kernel κ) (size : UInt64) (w : World κ) :
    Except AllocationError Block × World κ :=
  match Word.mul 2 size with
  | .error f => (.error (.fault f), w)
  | .ok twice =>
      match w.call (k.map twice Kernel.readWrite Kernel.privateAnonymous none) with
      | (.error e, w) => (.error (.system e), w)
      | (.ok start, w) =>
          match cut size start with
          | .error f => (.error (.fault f), w)
          | .ok c => (.ok ⟨c.blockStart, size⟩, trimBack k c (trimFront k c w))

/-- Looks up the frame of a block, and warns if it is not aligned to the block's size. -/
def inspect (k : Kernel κ) (block : Block) (w : World κ) : World κ :=
  match PageTable.open? k w with
  | (.error _, w) => w
  | (.ok (), w) =>
      match PageTable.translate k block.base w with
      | (.error _, w) => w
      | (.ok phys, w) =>
          if phys &&& (block.size - 1) = 0 then w else w.warn (.misaligned block.base phys)

def allocate (k : Kernel κ) (verbose : Bool) (size : UInt64) (w : World κ) :
    Except AllocationError Block × World κ :=
  match mapAligned k size w with
  | (.error e, w) => (.error e, w)
  | (.ok block, w) =>
      match w.call (k.advise block.base size Kernel.hugePageAdvice) with
      | (.error e, w) => (.error (.system e), w.release k block.base size)
      | (.ok (), w) => (.ok block, if verbose then inspect k block w else w)

def allocator (k : Kernel κ) (verbose : Bool) (size : UInt64) : Allocator (World κ) where
  allocate := allocate k verbose size
  release := fun block w => w.release k block.base block.size
  warn := fun warning w => w.warn warning

end DramBanks.Allocator.Transparent
