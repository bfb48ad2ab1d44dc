/-!
# Decimal numbers

    Numbers as they are typed: decimal digits, and in front of them a sign
    where one is allowed.
-/

namespace DramBanks.Decimal

def isDigit (c : Char) : Bool := decide ('0' ≤ c ∧ c ≤ '9')

/-- The number that digits spell. -/
def value (digits : List Char) : Nat :=
  digits.foldl (fun n c => n * 10 + (c.toNat - 48)) 0

/-- The number that at least one digit spells. -/
def ofDigits? (cs : List Char) : Option Nat :=
  if cs.isEmpty || !cs.all isDigit then none else some (value cs)

/-- A number with an optional plus sign. -/
def ofUnsigned? : List Char → Option Nat
  | '+' :: rest => ofDigits? rest
  | cs => ofDigits? cs

def ofSigned? : List Char → Option Int
  | '-' :: rest => (ofDigits? rest).map fun n => -Int.ofNat n
  | cs => (ofUnsigned? cs).map Int.ofNat

/-- A number below a bound, with an optional plus sign. -/
def below? (bound : Nat) (cs : List Char) : Option Nat :=
  (ofUnsigned? cs).filter fun n => decide (n < bound)

/-- A word with an optional plus sign. -/
def word? (cs : List Char) : Option UInt64 := (below? UInt64.size cs).map UInt64.ofNat

end DramBanks.Decimal
