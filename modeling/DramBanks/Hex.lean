/-!
# Hexadecimal text

    Words in lowercase hexadecimal digits without leading zeros, and
    single digits back to their values.
-/

namespace DramBanks.Hex

/-- The lowercase digits of a number, most significant first. -/
def digits (n : Nat) : List Char := Nat.toDigits 16 n

/-- The value of one hexadecimal digit of either case. -/
def value? (c : Char) : Option Nat :=
  if '0' ≤ c ∧ c ≤ '9' then some (c.toNat - 48)
  else if 'a' ≤ c ∧ c ≤ 'f' then some (c.toNat - 87)
  else if 'A' ≤ c ∧ c ≤ 'F' then some (c.toNat - 55)
  else none

/-- The digits of a word behind the mark of hexadecimal numbers. -/
def word (x : UInt64) : String := String.ofList ('0' :: 'x' :: digits x.toNat)

/-- At least two digits behind the mark. -/
def paddedWord (x : UInt64) : String :=
  if x < 16 then String.ofList ('0' :: 'x' :: '0' :: digits x.toNat) else word x

end DramBanks.Hex
