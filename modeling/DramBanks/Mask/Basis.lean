import DramBanks.Word
/-!
# A basis of masks

    Masks are vectors of bits, and XOR adds them.  The basis is greedy:
    masks are visited upward, and a mask joins unless it is a sum of masks
    that joined before.  The sums are kept as a list, the empty sum among
    them, which doubles with every mask that joins.
-/

namespace DramBanks.Mask

def ascending (masks : List Mask) : List Mask :=
  masks.mergeSort fun a b => decide (a ≤ b)

/-- The masks that join a basis whose sums are `span`, in their order. -/
def extend (span : List Mask) : List Mask → List Mask
  | [] => []
  | mask :: rest =>
      if span.contains mask then extend span rest
      else mask :: extend (span ++ span.map (· ^^^ mask)) rest

/-- The greedy basis of the masks, in ascending order.  The list of the sums is idealised: memory
    is taken to hold it, which no machine does for the sums of 60 masks or more. -/
def basis (masks : List Mask) : List Mask := extend [0] (ascending masks)

end DramBanks.Mask
