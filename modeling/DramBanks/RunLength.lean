/-!
# Run lengths

    A sorted list of numbers as the numbers in it and how often each
    occurs.
-/

namespace DramBanks.RunLength

/-- One more number in front of counted numbers. -/
def push (n : Nat) : List (Nat × Nat) → List (Nat × Nat)
  | [] => [(n, 1)]
  | (m, count) :: rest => if m = n then (m, count + 1) :: rest else (n, 1) :: (m, count) :: rest

/-- The numbers of a list with the lengths of their runs. -/
def encode (ns : List Nat) : List (Nat × Nat) := ns.foldr push []

end DramBanks.RunLength
