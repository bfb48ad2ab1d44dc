import DramBanks.Kernel.Errno
import DramBanks.Page
/-!
# Blocks of memory

    A block is a mapped range of addresses.  Memory is zero until it is
    written, and touching a block writes one byte at the start of each of
    its pages, so the content of a touched block is known.
-/

namespace DramBanks

/-- A mapped range of addresses. -/
structure Block where
  base : Address
  size : UInt64
deriving DecidableEq, Repr

namespace Block

/-- The first address behind the block. -/
def stop (b : Block) : Except Fault Address := Word.add b.base b.size

/-- Whether an address lies in the block. -/
def contains (b : Block) (addr : Address) : Bool :=
  decide (b.base ≤ addr) && decide (addr.toNat < b.base.toNat + b.size.toNat)

theorem contains_iff {b : Block} {addr : Address} :
    b.contains addr = true ↔
      b.base.toNat ≤ addr.toNat ∧ addr.toNat < b.base.toNat + b.size.toNat := by
  simp only [contains, Bool.and_eq_true, decide_eq_true_eq, UInt64.le_iff_toNat_le]

def pages (b : Block) : UInt64 := b.size / Page.size

/-- The byte that is written to every page of a touched block. -/
def mark : UInt8 := 42

/-- The byte at an offset of a touched block, if the offset lies in it. -/
def touchedByte? (b : Block) (offset : UInt64) : Option UInt8 :=
  if b.size ≤ offset then none
  else some (if offset % Page.size = 0 then mark else 0)

/-- The memory of a machine, which a mapping whose pages are all there at once has to fit
    into: 31 GiB. -/
def machineMemory : UInt64 := 0x7c0000000

/-- A mapping at a free address whose pages are all there at once: it may be neither empty nor
    larger than the memory. -/
def mapPopulated (free : Address) (size : UInt64) : Except Errno Block :=
  if size = 0 then .error .invalidArgument
  else if machineMemory ≤ size then .error .noMemory
  else .ok ⟨free, size⟩

/-- Looks for an address in the blocks in their order.  A block is only looked at if none in
    front of it holds the address, and its end has to be an address then. -/
def checkMember : List Block → (addr : Address) → Except Fault Unit
  | [], addr => .error (.outsideBlocks addr)
  | b :: rest, addr =>
      match b.stop with
      | .error f => .error f
      | .ok _ => if b.contains addr then .ok () else checkMember rest addr

/-- A timing may only touch addresses of the blocks; the first address is checked first. -/
def checkMapped (blocks : List Block) (a b : Address) : Except Fault Unit :=
  match checkMember blocks a with
  | .error f => .error f
  | .ok () => checkMember blocks b

end Block

end DramBanks
