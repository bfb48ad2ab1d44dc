import DramBanks.Word
/-!
# Bits of a word

    The parity of a word, the floor of its binary logarithm, and the next
    larger word of equal weight (number of set bits).  The successor adds
    the lowest set bit, which turns the lowest block of ones into one
    higher bit, and puts the ones that the carry swallowed back at the
    bottom; `lt_of_nextSameWeight` says that it moves upward.
-/

namespace DramBanks.Bits

/-- The sum of the bits of `x` modulo two: the halves are folded onto each other until
    one bit is left. -/
def parity (x : UInt64) : UInt64 :=
  let x := x ^^^ (x >>> 32)
  let x := x ^^^ (x >>> 16)
  let x := x ^^^ (x >>> 8)
  let x := x ^^^ (x >>> 4)
  let x := x ^^^ (x >>> 2)
  let x := x ^^^ (x >>> 1)
  x &&& 1

/-- The largest `k` with `2 ^ k ≤ n`, and 0 for 0. -/
def log2Floor (n : UInt64) : UInt64 :=
  if n < 2 then 0 else n.log2

/-- The word with only bit `i` set, for a bit of the word. -/
def bit (i : Nat) : UInt64 := 1 <<< UInt64.ofNat i

/-- The word whose `n` lowest bits are set. -/
def lowOnes (n : Nat) : UInt64 :=
  if n < 64 then bit n - 1 else 0xffffffffffffffff

/-- The smallest larger word with as many set bits, if there is one. -/
def nextSameWeight (x : UInt64) : Option UInt64 :=
  let lowest := x &&& (0 - x)
  let ripple := x + lowest
  if x < ripple then some (ripple ||| (((x ^^^ ripple) >>> 2) / lowest)) else none

theorem le_or (a b : UInt64) : a ≤ a ||| b := by
  rw [UInt64.le_iff_toNat_le, UInt64.toNat_or]
  exact Nat.left_le_or

theorem lt_of_nextSameWeight {x y : UInt64} (h : nextSameWeight x = some y) : x < y := by
  unfold nextSameWeight at h
  simp only at h
  split at h
  · next hlt =>
      cases h
      exact UInt64.lt_of_lt_of_le hlt (le_or _ _)
  · cases h

end DramBanks.Bits
