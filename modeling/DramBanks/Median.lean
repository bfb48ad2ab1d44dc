import DramBanks.Word
/-!
# The median of latencies

    The middle element of the values in descending order; of an even
    number of values it is the lower of the two middle ones.
-/

namespace DramBanks

def descending (values : List Latency) : List Latency :=
  values.mergeSort fun a b => decide (b ≤ a)

/-- The element at half the length of the descending order, if there are values. -/
def median (values : List Latency) : Option Latency :=
  (descending values)[values.length / 2]?

@[simp] theorem length_descending (values : List Latency) :
    (descending values).length = values.length := by
  simp [descending]

@[simp] theorem median_nil : median [] = none := by
  simp [median, descending]

end DramBanks
