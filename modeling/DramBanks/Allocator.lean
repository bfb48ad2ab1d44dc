import DramBanks.Block
import DramBanks.Warning
/-!
# Allocating blocks

    An allocator hands out one block at a time and can take it back.
    Several blocks are allocated all or none: when one is refused, the
    blocks that came before it are released again.  A fault is no refusal:
    it ends the allocation where it stands.
-/

namespace DramBanks

/-- Why a block is not handed out. -/
inductive AllocationError where
  | system (e : Errno)
  | noHugePageSize
  | exhausted
  | fault (f : Fault)
deriving DecidableEq, Repr

namespace AllocationError

def message : AllocationError → String
  | system e => e.message
  | noHugePageSize => "no huge page size in /proc/meminfo"
  | exhausted => "exhausted"
  | fault f => f.message

end AllocationError

/-- What hands out blocks on a state. -/
structure Allocator (ω : Type) where
  allocate : ω → Except AllocationError Block × ω
  release : Block → ω → ω
  warn : Warning → ω → ω

namespace Allocator

variable {ω : Type}

def releaseAll (a : Allocator ω) (blocks : List Block) (w : ω) : ω :=
  blocks.foldl (fun w block => a.release block w) w

/-- Allocates `left` blocks behind the `held` ones, the latest of which comes first.  All are
    released on a refusal. -/
def allocateFrom (a : Allocator ω) : (left : Nat) → (held : List Block) → ω →
    Except AllocationError (List Block) × ω
  | 0, held, w => (.ok held.reverse, w)
  | left + 1, held, w =>
      match a.allocate w with
      | (.ok block, w) => allocateFrom a left (block :: held) w
      | (.error (.fault f), w) => (.error (.fault f), w)
      | (.error e, w) =>
          (.error e,
           a.releaseAll held.reverse
             (a.warn (.allocationFailed (held.length + 1) held.length) w))

/-- The number of blocks from which on their list is larger than the address space. -/
def maxBlocks : Nat := 1 <<< 59

/-- Allocates a number of blocks, unless their list is larger than the address space. -/
def allocateBlocks (a : Allocator ω) (count : Nat) (w : ω) :
    Except AllocationError (List Block) × ω :=
  if maxBlocks ≤ count then (.error (.fault .capacity), w) else a.allocateFrom count [] w

/-! ## A limited supply -/

/-- How much an allocator that runs dry has left. -/
structure Supply where
  remaining : Nat
  /-- How often a block was asked for. -/
  asked : Nat := 0
deriving DecidableEq, Repr

def mapPages (pages : UInt64) : Except AllocationError Block :=
  match Page.bytes pages with
  | .error f => .error (.fault f)
  | .ok size => (Block.mapPopulated 0 size).mapError .system

/-- Maps blocks of a number of pages while there are some left.  A block that was asked for is
    gone, whether the mapping failed or the block was released. -/
def limited (pages : UInt64) : Allocator Supply where
  allocate := fun s =>
    match s.remaining with
    | 0 => (.error .exhausted, { s with asked := s.asked + 1 })
    | n + 1 => (mapPages pages, ⟨n, s.asked + 1⟩)
  release := fun _ s => s
  warn := fun _ s => s

end Allocator

end DramBanks
