import DramBanks.Hex
/-!
# Machine words

    Addresses, masks and latencies are 64-bit words.  Address arithmetic
    has to stay inside the word: `Word.add` and `Word.mul` refuse a result
    that needs another bit, and `Word.sub` one that is negative.  So a
    computation either agrees with the natural numbers (`toNat_of_add`,
    `toNat_of_mul`) or ends in a `Fault`.
-/

namespace DramBanks

/-- A virtual or physical address. -/
abbrev Address := UInt64

/-- A set of address bits; a mask sends an address to the parity of the bits they share. -/
abbrev Mask := UInt64

/-- A latency in cycles. -/
abbrev Latency := UInt64

/-- Why a computation cannot go on. -/
inductive Fault where
  | sumOverflow
  | negativeDifference
  | productOverflow
  | divisionByZero
  | zeroStep
  /-- A measured address that lies in none of the mapped blocks. -/
  | outsideBlocks (addr : Address)
  /-- Halvings or doublings that do not reach their end. -/
  | endless
  /-- A collection larger than the address space. -/
  | capacity
  /-- A position behind the end of a list. -/
  | outOfRange
deriving DecidableEq, Repr

namespace Fault

def message : Fault → String
  | sumOverflow => "attempt to add with overflow"
  | negativeDifference => "attempt to subtract with overflow"
  | productOverflow => "attempt to multiply with overflow"
  | divisionByZero => "division by zero"
  | zeroStep => "step of zero"
  | outsideBlocks addr => s!"address {Hex.word addr} is outside of the measured blocks"
  | endless => "detection never ends"
  | capacity => "capacity overflow"
  | outOfRange => "index out of range"

end Fault

namespace Word

/-- The sum of two words, unless it leaves the word. -/
def add (a b : UInt64) : Except Fault UInt64 :=
  if a.toNat + b.toNat < UInt64.size then .ok (a + b) else .error .sumOverflow

/-- The difference of two words, unless it is negative. -/
def sub (a b : UInt64) : Except Fault UInt64 :=
  if b.toNat ≤ a.toNat then .ok (a - b) else .error .negativeDifference

/-- The product of two words, unless it leaves the word. -/
def mul (a b : UInt64) : Except Fault UInt64 :=
  if a.toNat * b.toNat < UInt64.size then .ok (a * b) else .error .productOverflow

/-- Whether `a` is a power of two. -/
def isPowerOfTwo (a : UInt64) : Bool :=
  a != 0 && a &&& (a - 1) == 0

theorem add_of_lt {a b : UInt64} (h : a.toNat + b.toNat < UInt64.size) :
    add a b = .ok (a + b) := if_pos h

theorem sub_of_le {a b : UInt64} (h : b.toNat ≤ a.toNat) : sub a b = .ok (a - b) := if_pos h

theorem mul_of_lt {a b : UInt64} (h : a.toNat * b.toNat < UInt64.size) :
    mul a b = .ok (a * b) := if_pos h

theorem toNat_of_add {a b c : UInt64} (h : add a b = .ok c) :
    c.toNat = a.toNat + b.toNat := by
  unfold add at h
  split at h
  · next hlt =>
      cases h
      rw [UInt64.toNat_add]
      exact Nat.mod_eq_of_lt hlt
  · cases h

theorem toNat_of_mul {a b c : UInt64} (h : mul a b = .ok c) :
    c.toNat = a.toNat * b.toNat := by
  unfold mul at h
  split at h
  · next hlt =>
      cases h
      rw [UInt64.toNat_mul]
      exact Nat.mod_eq_of_lt hlt
  · cases h

/-- Counting on by one, where there is a next word. -/
theorem add_one_of_lt {a : UInt64} (h : a.toNat + 1 < UInt64.size) :
    add a 1 = .ok (a + 1) ∧ (a + 1).toNat = a.toNat + 1 := by
  have hadd : add a 1 = .ok (a + 1) := add_of_lt h
  exact ⟨hadd, toNat_of_add hadd⟩

/-- A sum is refused exactly when it needs a bit beyond the word. -/
theorem add_eq_error_iff {a b : UInt64} {f : Fault} :
    add a b = .error f ↔ f = .sumOverflow ∧ UInt64.size ≤ a.toNat + b.toNat := by
  unfold add
  split
  · next hlt =>
      constructor
      · intro h
        cases h
      · intro h
        omega
  · next hge =>
      constructor
      · intro h
        cases h
        exact ⟨rfl, by omega⟩
      · rintro ⟨rfl, -⟩
        rfl

end Word

end DramBanks
