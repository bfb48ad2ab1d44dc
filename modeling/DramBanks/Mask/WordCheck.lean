import DramBanks.Mask.Validity
/-!
# The check in machine words

    The check of a mask counts members and groups, and compares sums and
    differences of its counts.  Here the counts are words, and every sum,
    difference and product of theirs is tested to stay inside the word.

    The difference between the size of a group and its tolerance, and the
    sum of the errors and of the members that are left, are computed only
    once the errors exceed the tolerance. -/

namespace DramBanks.Mask.Validator

/-- The errors when one more member was looked at. -/
def tallyInWords (mask : Mask) (parity : UInt64) (a : Address) (errors : UInt64) :
    Except Fault UInt64 :=
  if Bits.parity (a &&& mask) = parity then .ok errors else Word.add errors 1

/-- The number of members behind position `i` of `others`. -/
def leftInWords (others i : UInt64) : Except Fault UInt64 := do
  let rest ← Word.sub others i
  Word.sub rest 1

/-- Whether the errors exceed the tolerance, and stay too few for the inverse parity even if all
    members that are left disagree as well. -/
def isLostInWords (size tolerance errors left : UInt64) : Except Fault Bool :=
  if tolerance < errors then do
    let most ← Word.add errors left
    let least ← Word.sub size tolerance
    return decide (most < least)
  else .ok false

/-- Counts on from `errors` the members whose parity is not `parity`, from position `i` of `others`
    members on, unless the group is lost. -/
def countInWords? (mask : Mask) (parity size tolerance others : UInt64) :
    List Address → (i errors : UInt64) → Except Fault (Option UInt64)
  | [], _, errors => .ok (some errors)
  | a :: rest, i, errors => do
      let errors ← tallyInWords mask parity a errors
      let left ← leftInWords others i
      let next ← Word.add i 1
      if ← isLostInWords size tolerance errors left then return none
      else countInWords? mask parity size tolerance others rest next errors

/-- Whether the dominant parity of the group is one, if the group has a dominant parity. -/
def dominantInWords? (v : Validator) (mask : Mask) (first : Address) (rest : List Address) :
    Except Fault (Option Bool) := do
  let size := UInt64.ofNat (rest.length + 1)
  let product ← Word.mul size v.errorPercentage
  let tolerance := product / 100
  let parity := Bits.parity (first &&& mask)
  let count? ← countInWords? mask parity size tolerance (UInt64.ofNat rest.length) rest 0 0
  return count?.map fun errors =>
    (parity == 1 && decide (errors ≤ tolerance)) || (parity == 0 && decide (tolerance < errors))

/-- Adds to `ones` and `zeroes` the nonempty groups of either dominant parity, if every group
    has one. -/
def balanceInWords? (v : Validator) (mask : Mask) :
    List (List Address) → (ones zeroes : UInt64) → Except Fault (Option (UInt64 × UInt64))
  | [], ones, zeroes => .ok (some (ones, zeroes))
  | [] :: groups, ones, zeroes => balanceInWords? v mask groups ones zeroes
  | (first :: rest) :: groups, ones, zeroes => do
      match ← v.dominantInWords? mask first rest with
      | none => return none
      | some true => balanceInWords? v mask groups (← Word.add ones 1) zeroes
      | some false => balanceInWords? v mask groups ones (← Word.add zeroes 1)

/-- The check with all counts in words. -/
def checkInWords (v : Validator) (mask : Mask) : Except Fault Bool := do
  match ← v.balanceInWords? mask v.groups 0 0 with
  | none => return false
  | some (ones, zeroes) =>
      return decide (0 < ones) && ones == zeroes && v.isIrreducible mask

end DramBanks.Mask.Validator
