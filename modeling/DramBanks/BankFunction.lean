import DramBanks.Mask.Basis
import DramBanks.Mask.Search
/-!
# The bank function of a grouping

    A bank function is a list of masks; the bank of an address is the
    number whose bits are the parities of the address under the masks.
    `BankFunction.derive` searches the masks of a grouping and reduces
    them to a basis.  The function is complete when the masks tell apart
    exactly as many banks as there are groups.
-/

namespace DramBanks

/-- A bank function and what it says on the grouping that it was derived from. -/
structure BankFunction where
  /-- The basis in ascending order. -/
  masks : List Mask
  /-- The dominant parity of every group, one row per mask. -/
  parities : List (List UInt64)
  bankCount : Nat
  /-- Whether every two rows of parities agree in half of the groups. -/
  orthogonal : Bool
  /-- The bits whose flip leads the lowest address out of its group. -/
  relevantBits : UInt64
deriving DecidableEq, Repr

namespace BankFunction

/-- Whether the masks explain exactly the number of banks. -/
def isComplete (f : BankFunction) : Bool :=
  decide (f.masks.length < 64) && 1 <<< f.masks.length == f.bankCount

/-- The bits of the bank of `addr` from bit `i` on, one per mask. -/
def bankBits (addr : Address) : List Mask → (i : Nat) → UInt64
  | [], _ => 0
  | m :: rest, i => (Bits.parity (addr &&& m) <<< UInt64.ofNat i) ||| bankBits addr rest (i + 1)

def bankOf (f : BankFunction) (addr : Address) : UInt64 := bankBits addr f.masks 0

def mismatchMessage (f : BankFunction) : String :=
  s!"{f.masks.length} address functions do not match {f.bankCount} banks"

/-! ## Parities -/

/-- The majority parity of a group under a mask; a tie counts as 0. -/
def dominantParity (mask : Mask) (group : List Address) : UInt64 :=
  let ones := group.countP fun a => Bits.parity (a &&& mask) == 1
  if group.length - ones < ones then 1 else 0

def dominantParities (groups : List (List Address)) (mask : Mask) : List UInt64 :=
  groups.map (dominantParity mask)

/-- Whether two rows agree in exactly half of their columns. -/
def agreeInHalf (a b : List UInt64) : Bool :=
  ((a.zip b).countP fun p => p.1 == p.2) * 2 == a.length

/-- Whether every two rows at different positions agree in half of their columns. -/
def pairwiseHalf : List (List UInt64) → Bool
  | [] => true
  | row :: rows => rows.all (agreeInHalf row) && pairwiseHalf rows

/-! ## Relevant bits -/

/-- The lowest address together with the position of its group, among those met so far and
    the members of one more group. -/
def lowestOf (index : Nat) (best : Option (Address × Nat)) (group : List Address) :
    Option (Address × Nat) :=
  group.foldl
    (fun best a =>
      match best with
      | none => some (a, index)
      | some (b, _) => if a < b then some (a, index) else best)
    best

/-- The lowest address of the groups and the position of the first group that holds it. -/
def lowest? (groups : List (List Address)) : Option (Address × Nat) :=
  groups.zipIdx.foldl (fun best g => lowestOf g.2 best g.1) none

/-- Whether the address is in no group, or in a group other than the one at `home`. -/
def leaves (groups : List (List Address)) (home : Nat) (addr : Address) : Bool :=
  let holders := (groups.zipIdx.filter fun g => g.1.contains addr).map Prod.snd
  holders.isEmpty || holders.any (· != home)

/-- The bits from `skip` on whose flip leads the lowest address into another group, or out of
    the observed addresses. -/
def relevantBitsFrom (skip : Nat) (groups : List (List Address)) : UInt64 :=
  match lowest? groups with
  | none => 0
  | some (low, home) =>
      (List.range' skip (64 - skip)).foldl
        (fun relevant i =>
          if leaves groups home (low ^^^ Bits.bit i) then relevant ||| Bits.bit i else relevant)
        0

/-! ## The derivation -/

/-- The number of low bits that lie inside one block. -/
def skippedBits (blockSize : UInt64) : Nat := (Bits.log2Floor blockSize).toNat

/-- The function that a set of masks is on a grouping. -/
def ofMasks (groups : List (List Address)) (blockSize : UInt64) (masks : List Mask) :
    BankFunction where
  masks := masks
  parities := masks.map (dominantParities groups)
  bankCount := groups.length
  orthogonal := pairwiseHalf (masks.map (dominantParities groups))
  relevantBits := relevantBitsFrom (skippedBits blockSize) groups

/-- The function of a grouping that was classified at a block size: the masks found by
    `threads` workers, reduced to a basis. -/
def derive (groups : List (List Address)) (blockSize : UInt64) (errorPercentage : UInt64)
    (maxMaskBits threads : Nat) : Except Fault BankFunction :=
  (Mask.search ⟨groups, errorPercentage⟩ ⟨skippedBits blockSize, maxMaskBits⟩ threads).map
    fun found => ofMasks groups blockSize (Mask.basis found)

end BankFunction

end DramBanks
