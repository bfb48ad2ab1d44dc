import DramBanks.BankFunction
import DramBanks.Json
/-!
# The report of an analysis

    What is written about a bank function and the classification that it
    came from: masks and relevant bits in hexadecimal, the parities as
    they are, and whatever data the caller adds.
-/

namespace DramBanks

/-- The outcome of one analysis. -/
structure Report where
  /-- Whether the masks explain the number of banks. -/
  success : Bool
  banks : Nat
  blockSize : UInt64
  threshold : Latency
  seed : UInt64
  /-- Addresses of the additional blocks that matched no bank. -/
  classificationErrors : Nat
  masks : List String
  /-- The dominant parity of every bank, one row per mask. -/
  parities : List (List UInt64)
  orthogonal : Bool
  relevantBits : String
  /-- Data of the caller. -/
  data : Option Json := none

namespace Report

/-- The report on a function and the classification that it came from. -/
def ofFunction (f : BankFunction) (blockSize threshold seed : UInt64)
    (classificationErrors : Nat) : Report where
  success := f.isComplete
  banks := f.bankCount
  blockSize := blockSize
  threshold := threshold
  seed := seed
  classificationErrors := classificationErrors
  masks := f.masks.map Hex.word
  parities := f.parities
  orthogonal := f.orthogonal
  relevantBits := Hex.word f.relevantBits

def withData (r : Report) (data : Json) : Report := { r with data := some data.sortKeys }

/-- The members of a report behind its date. -/
def members (r : Report) : List (String × Json) :=
  [("success", .bool r.success),
   ("banks", .ofNat r.banks),
   ("block_size", .ofWord r.blockSize),
   ("threshold", .ofWord r.threshold),
   ("seed", .ofWord r.seed),
   ("classification_errors", .ofNat r.classificationErrors),
   ("masks", .array (r.masks.map .string)),
   ("parities", .array (r.parities.map fun row => .array (row.map .ofWord))),
   ("orthogonal", .bool r.orthogonal),
   ("relevant_bits", .string r.relevantBits)]
  ++ (r.data.toList.map fun data => ("data", data))

def toJson (r : Report) : Json := .object r.members

/-- The text of the report as it is saved. -/
def toText (r : Report) (date : String) : String :=
  (Json.object (("date", .string date) :: r.members)).toText

end Report

end DramBanks
