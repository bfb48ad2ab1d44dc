import DramBanks.Bits
/-!
# Valid masks

    A mask is a bank function of a grouping when every group has one
    dominant parity under it, the dominant parities split the groups
    evenly, and no proper part of the mask does the same job.

    A group tolerates a share of members that disagree with its dominant
    parity.  The parity of the first member is dominant unless more than
    that share disagrees with it, in which case its inverse is.  Members
    are counted from the front, and the mask is given up as soon as
    neither parity can be dominant any more.

    A part `d` of the mask is redundant when all observed addresses have
    the same parity under `d`: the mask without `d` then behaves like the
    mask.  Masks without a single bit are tried first, then all parts in
    descending order.  The walk goes down by subtracting one and dropping
    what the mask lacks; a part becomes smaller that way, so it ends.
-/

namespace DramBanks.Mask

/-- The grouping that masks are checked against, and the share of every group in percent
    that may disagree. -/
structure Validator where
  groups : List (List Address)
  errorPercentage : UInt64

namespace Validator

/-! ## Dominant parities -/

/-- The number of members that may disagree in a group of `size` members. -/
def tolerance (v : Validator) (size : Nat) : Except Fault Nat :=
  (Word.mul (UInt64.ofNat size) v.errorPercentage).map fun n => n.toNat / 100

/-- Counts on from `errors` the members whose parity is not `parity`.  There is no count when
    neither `parity` nor its inverse can be dominant in a group of `size` members. -/
def countErrors? (mask : Mask) (parity : UInt64) (size tolerance : Nat) :
    List Address → (errors : Nat) → (left : Nat) → Option Nat
  | [], errors, _ => some errors
  | a :: rest, errors, left =>
      let errors := if Bits.parity (a &&& mask) = parity then errors else errors + 1
      if tolerance < errors ∧ errors + (left - 1) < size - tolerance then none
      else countErrors? mask parity size tolerance rest errors (left - 1)

/-- Whether the dominant parity of the group with members `first :: rest` is one, if the
    group has a dominant parity. -/
def dominant? (v : Validator) (mask : Mask) (first : Address) (rest : List Address) :
    Except Fault (Option Bool) :=
  let size := rest.length + 1
  (v.tolerance size).map fun tolerance =>
    let parity := Bits.parity (first &&& mask)
    (countErrors? mask parity size tolerance rest 0 rest.length).map fun errors =>
      (parity == 1) == decide (errors ≤ tolerance)

/-- Adds to `ones` and `zeroes` the nonempty groups of either dominant parity, if every group
    has one. -/
def balance? (v : Validator) (mask : Mask) :
    List (List Address) → (ones zeroes : Nat) → Except Fault (Option (Nat × Nat))
  | [], ones, zeroes => .ok (some (ones, zeroes))
  | [] :: groups, ones, zeroes => balance? v mask groups ones zeroes
  | (first :: rest) :: groups, ones, zeroes =>
      match v.dominant? mask first rest with
      | .error f => .error f
      | .ok none => .ok none
      | .ok (some true) => balance? v mask groups (ones + 1) zeroes
      | .ok (some false) => balance? v mask groups ones (zeroes + 1)

/-! ## Redundant parts -/

/-- Whether all addresses have the same parity under `part`. -/
def isConstant (observed : List Address) (part : Mask) : Bool :=
  match observed with
  | [] => true
  | a :: rest => rest.all fun b => Bits.parity (b &&& part) == Bits.parity (a &&& part)

/-- Whether a mask and a part of it agree on all addresses, or disagree on all of them. -/
def isEquivalent (observed : List Address) (mask part : Mask) : Bool :=
  isConstant observed (mask ^^^ part)

/-- The single bits of a mask, the lowest first. -/
def bits (mask : Mask) : List Mask :=
  (List.range 64).filterMap fun i =>
    if mask &&& Bits.bit i == 0 then none else some (Bits.bit i)

/-- The part of the mask that is met below `part`: a word that is less by one, without the bits
    that the mask lacks. -/
def lowerPart (mask part : Mask) : Mask := (part - 1) &&& mask

theorem lowerPart_lt {mask part : Mask} (h : part ≠ 0) :
    (lowerPart mask part).toNat < part.toNat := by
  have hone : 1 ≤ part.toNat := by
    rw [Nat.one_le_iff_ne_zero]
    exact fun hzero => h (UInt64.toNat_inj.mp hzero)
  have hpred : (part - 1).toNat = part.toNat - 1 := UInt64.toNat_sub_of_le _ _ hone
  rw [lowerPart, UInt64.toNat_and, hpred]
  exact Nat.lt_of_le_of_lt Nat.and_le_left (Nat.sub_lt hone Nat.one_pos)

/-- Whether the mask behaves like one of its parts from `part` on downward.  The walk ends at the
    empty part. -/
def anyEquivalentFrom (observed : List Address) (mask part : Mask) : Bool :=
  if _hpart : part = 0 then false
  else isEquivalent observed mask part
    || anyEquivalentFrom observed mask (lowerPart mask part)
termination_by part.toNat
decreasing_by exact lowerPart_lt _hpart

/-- Whether the mask behaves like a part of it, neither empty nor all of it. -/
def hasRedundantPart (observed : List Address) (mask : Mask) : Bool :=
  ((bits mask).map fun b => mask ^^^ b).any
      (fun part => part != 0 && isEquivalent observed mask part)
    || anyEquivalentFrom observed mask (lowerPart mask mask)

/-- Whether no proper part of the mask behaves like the mask on the grouping. -/
def isIrreducible (v : Validator) (mask : Mask) : Bool :=
  !hasRedundantPart v.groups.flatten mask

/-! ## The check -/

/-- Whether the mask is a valid and irreducible bank function of the grouping. -/
def check (v : Validator) (mask : Mask) : Except Fault Bool :=
  match v.balance? mask v.groups 0 0 with
  | .error f => .error f
  | .ok none => .ok false
  | .ok (some (ones, zeroes)) =>
      .ok (decide (0 < ones) && ones == zeroes && v.isIrreducible mask)

end Validator

end DramBanks.Mask
