import DramBanks.Json.Token
import DramBanks.Kernel.Errno
import DramBanks.Settings.Overrides
/-!
# Reading a configuration

    A configuration is a JSON object whose keys name settings, or a JSON
    array that gives the settings in their order and may end early.  The
    reader is strict: a number is written without sign, fraction and
    exponent and fits its field, only the fields that may be absent accept
    `null`, no setting is given twice, and nothing follows the value.
    Keys that name no setting are skipped with whatever value they have.

    Every step of the reader takes tokens from the front and returns the
    rest; the loop over the members counts down the tokens that are left.
-/

namespace DramBanks.Settings

open Json (Token)

/-- The value of a literal that consists of digits only and is below the bound. -/
def literalBelow? (bound : Nat) (literal : List Char) : Option Nat :=
  (Decimal.ofDigits? literal).filter fun n => decide (n < bound)

/-! ## Values -/

/-- A number that fits a word. -/
def word? : List Token → Option (UInt64 × List Token)
  | .number literal :: rest =>
      (literalBelow? UInt64.size literal).map fun n => (UInt64.ofNat n, rest)
  | _ => none

def halfWord? : List Token → Option (UInt32 × List Token)
  | .number literal :: rest =>
      (literalBelow? UInt32.size literal).map fun n => (UInt32.ofNat n, rest)
  | _ => none

/-- A word that may be absent. -/
def optionalWord? : List Token → Option (Option UInt64 × List Token)
  | .null :: rest => some (none, rest)
  | tokens => (word? tokens).map fun (n, rest) => (some n, rest)

def bool? : List Token → Option (Bool × List Token)
  | .bool b :: rest => some (b, rest)
  | _ => none

/-- A generation by its exact name. -/
def memoryTypeOfBody? (body : List Char) : Option MemoryType :=
  match Token.unescape? body with
  | some ['d', 'd', 'r', '3'] => some .ddr3
  | some ['d', 'd', 'r', '4'] => some .ddr4
  | _ => none

/-- A generation, as a string or as an object from its name to `null`. -/
def memoryType? : List Token → Option (MemoryType × List Token)
  | .string body :: rest => (memoryTypeOfBody? body).map (·, rest)
  | .beginObject :: .string body :: .colon :: .null :: .endObject :: rest =>
      (memoryTypeOfBody? body).map (·, rest)
  | _ => none

/-- Reads the value of a setting that has none so far. -/
def assign? {α : Type} (current : Option α) (read : List Token → Option (α × List Token))
    (put : α → Overrides) (tokens : List Token) : Option (Overrides × List Token) :=
  match current with
  | some _ => none
  | none => (read tokens).map fun (v, rest) => (put v, rest)

/-- Reads the value of one setting into a layer. -/
def readField? (field : Field) (o : Overrides) : List Token → Option (Overrides × List Token) :=
  match field with
  | .initialHugeBlocks =>
      assign? o.initialHugeBlocks word? fun v => { o with initialHugeBlocks := some v }
  | .additionalHugeBlocks =>
      assign? o.additionalHugeBlocks word? fun v => { o with additionalHugeBlocks := some v }
  | .pagesPerHugeBlock =>
      assign? o.pagesPerHugeBlock word? fun v => { o with pagesPerHugeBlock := some v }
  | .startPage => assign? o.startPage word? fun v => { o with startPage := some v }
  | .endPage => assign? o.endPage word? fun v => { o with endPage := some v }
  | .initialBlockSize =>
      assign? o.initialBlockSize word? fun v => { o with initialBlockSize := some v }
  | .blockSize => assign? o.blockSize optionalWord? fun v => { o with blockSize := some v }
  | .minimumBlockSize =>
      assign? o.minimumBlockSize word? fun v => { o with minimumBlockSize := some v }
  | .conflictThreshold =>
      assign? o.conflictThreshold optionalWord? fun v => { o with conflictThreshold := some v }
  | .calibrationRuns =>
      assign? o.calibrationRuns word? fun v => { o with calibrationRuns := some v }
  | .sampleSize => assign? o.sampleSize word? fun v => { o with sampleSize := some v }
  | .rounds => assign? o.rounds word? fun v => { o with rounds := some v }
  | .fenced => assign? o.fenced bool? fun v => { o with fenced := some v }
  | .retries => assign? o.retries word? fun v => { o with retries := some v }
  | .errorPercentage =>
      assign? o.errorPercentage word? fun v => { o with errorPercentage := some v }
  | .threads => assign? o.threads word? fun v => { o with threads := some v }
  | .maxMaskBits => assign? o.maxMaskBits halfWord? fun v => { o with maxMaskBits := some v }
  | .maxRegroupRounds =>
      assign? o.maxRegroupRounds word? fun v => { o with maxRegroupRounds := some v }
  | .memoryType => assign? o.memoryType memoryType? fun v => { o with memoryType := some v }
  | .seed => assign? o.seed optionalWord? fun v => { o with seed := some v }

/-! ## Objects and arrays -/

/-- Reads one member of the object: a setting, or a key that is skipped with its value. -/
def readMember? (o : Overrides) : List Token → Option (Overrides × List Token)
  | .string body :: .colon :: rest =>
      match Token.unescape? body with
      | none => none
      | some key =>
          match Field.ofKey? (String.ofList key) with
          | some field => readField? field o rest
          | none => (Token.skipValue? rest).map (o, ·)
  | _ => none

/-- Reads members up to the end of the object, at most `fuel` of them. -/
def readMembers? : (fuel : Nat) → Overrides → List Token → Option Overrides
  | 0, _, _ => none
  | fuel + 1, o, tokens =>
      match readMember? o tokens with
      | some (o, [.endObject]) => some o
      | some (o, .comma :: rest) => readMembers? fuel o rest
      | _ => none

/-- Reads the elements of an array into the given settings, up to its end. -/
def readElements? : List Field → Overrides → List Token → Option Overrides
  | [], _, _ => none
  | field :: fields, o, tokens =>
      match readField? field o tokens with
      | some (o, [.endArray]) => some o
      | some (o, .comma :: rest) => readElements? fields o rest
      | _ => none

/-- The layer that the tokens of a configuration describe. -/
def overridesOfTokens? : List Token → Option Overrides
  | [.beginObject, .endObject] | [.beginArray, .endArray] => some {}
  | .beginObject :: rest => readMembers? rest.length {} rest
  | .beginArray :: rest => readElements? Field.all {} rest
  | _ => none

/-- The layer that a configuration text describes. -/
def overridesOfText? (text : String) : Option Overrides :=
  (Token.ofText? text.toList).bind overridesOfTokens?

/-- Why a configuration file cannot be read. -/
inductive LoadError where
  | unreadable (e : Errno)
  /-- The content is not UTF-8. -/
  | notText
  /-- The text is not a configuration. -/
  | malformed
deriving DecidableEq, Repr

/-- The layer that a configuration file describes, given what reading the file led to. -/
def load : Except Errno ByteArray → Except LoadError Overrides
  | .error e => .error (.unreadable e)
  | .ok bytes =>
      match String.fromUTF8? bytes with
      | none => .error .notText
      | some text =>
          match overridesOfText? text with
          | none => .error .malformed
          | some o => .ok o

end DramBanks.Settings
