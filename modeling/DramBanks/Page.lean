import DramBanks.Word
/-!
# Pages

    Memory is mapped in pages of 4 KB.  A huge block is a run of pages
    backed by one contiguous piece of physical memory, 512 pages by
    default.
-/

namespace DramBanks.Page

/-- The number of address bits inside a page. -/
def shift : UInt64 := 12

def size : UInt64 := 4096

/-- The address bits inside a page. -/
def offsetMask : UInt64 := 4095

/-- The pages of a huge block, unless configured otherwise. -/
def perHugeBlock : UInt64 := 512

/-- The first address of the page that holds `addr`. -/
def base (addr : Address) : Address := addr &&& ~~~offsetMask

/-- The position of `addr` inside its page. -/
def offset (addr : Address) : UInt64 := addr &&& offsetMask

def bytes (count : UInt64) : Except Fault UInt64 := Word.mul count size

theorem exists_bytes {count : UInt64} (hfits : count.toNat * 4096 < UInt64.size) :
    ∃ size, bytes count = .ok size ∧ size.toNat = count.toNat * 4096 := by
  have hmul : bytes count = .ok (count * size) := Word.mul_of_lt hfits
  exact ⟨_, hmul, Word.toNat_of_mul hmul⟩

end DramBanks.Page
