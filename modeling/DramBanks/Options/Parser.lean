import DramBanks.Decimal
import DramBanks.Options
/-!
# Reading the command line

    Options have long names, most have a letter too, and all but a few
    flags take a value: in the same argument, behind an equals sign, or as
    the next argument.  Letters can be written together, up to the first
    that takes a value, which is the rest of the argument.

    A value in an argument of its own is not looked at when it is met: the
    option stays *pending* until the next option is complete or the
    arguments end.  So a later argument that names no option wins over an
    earlier value that is no number, and a later value in the same
    argument does not.
-/

namespace DramBanks

/-- An option of the command line. -/
inductive CommandOption where
  | config | allocator | initialHugeBlocks | additionalHugeBlocks | pagesPerHugeBlock
  | startPage | endPage | initialBlockSize | blockSize | minimumBlockSize | conflictThreshold
  | calibrationRuns | sampleSize | rounds | retries | errorPercentage | threads | maxMaskBits
  | maxRegroupRounds | memoryType | seed | noFences | debug | output | help
deriving DecidableEq, Repr

/-- Why the arguments are not a command line. -/
inductive UsageError where
  | displayHelp
  /-- An argument names no option and is no value. -/
  | unknownArgument
  /-- A value is missing, empty where it may not be, or not one of the possible ones. -/
  | invalidValue
  /-- A value does not have the form of its option. -/
  | valueValidation
  /-- An option was given twice. -/
  | argumentConflict
  /-- A flag was given a value. -/
  | tooManyValues
deriving DecidableEq, Repr

namespace UsageError

def message : UsageError → String
  | displayHelp => "help was asked for"
  | unknownArgument => "unexpected argument found"
  | invalidValue => "a value is required, or not one of the possible ones"
  | valueValidation => "invalid value for an option"
  | argumentConflict => "an option cannot be used multiple times"
  | tooManyValues => "unexpected value for a flag"

end UsageError

namespace CommandOption

def all : List CommandOption :=
  [config, allocator, initialHugeBlocks, additionalHugeBlocks, pagesPerHugeBlock, startPage,
   endPage, initialBlockSize, blockSize, minimumBlockSize, conflictThreshold, calibrationRuns,
   sampleSize, rounds, retries, errorPercentage, threads, maxMaskBits, maxRegroupRounds,
   memoryType, seed, noFences, debug, output, help]

def long : CommandOption → String
  | config => "config"
  | allocator => "allocator"
  | initialHugeBlocks => "initial-thps"
  | additionalHugeBlocks => "additional-thps"
  | pagesPerHugeBlock => "pages-per-thp"
  | startPage => "start-offset"
  | endPage => "end-offset"
  | initialBlockSize => "initial-block-size"
  | blockSize => "block-size"
  | minimumBlockSize => "minimum-block-size"
  | conflictThreshold => "row-conflict-threshold"
  | calibrationRuns => "measurements-for-threshold"
  | sampleSize => "address-group-comparisons"
  | rounds => "address-group-measurements"
  | retries => "retries-for-grouping"
  | errorPercentage => "mask-error-percentage"
  | threads => "threads"
  | maxMaskBits => "max-mask-bits"
  | maxRegroupRounds => "max-regroup-rounds"
  | memoryType => "memory-type"
  | seed => "seed"
  | noFences => "no-fences"
  | debug => "debug"
  | output => "output"
  | help => "help"

/-- The letter of an option, if it has one. -/
def short? : CommandOption → Option Char
  | initialHugeBlocks => some 'i'
  | additionalHugeBlocks => some 'a'
  | pagesPerHugeBlock => some 'P'
  | startPage => some 'S'
  | endPage => some 'E'
  | initialBlockSize => some 'b'
  | blockSize => some 'B'
  | minimumBlockSize => some 's'
  | conflictThreshold => some 'T'
  | calibrationRuns => some 't'
  | sampleSize => some 'c'
  | rounds => some 'm'
  | retries => some 'r'
  | errorPercentage => some 'p'
  | threads => some 'n'
  | maxMaskBits => some 'x'
  | memoryType => some 'g'
  | noFences => some 'f'
  | debug => some 'd'
  | help => some 'h'
  | config | allocator | maxRegroupRounds | seed | output => none

def takesValue : CommandOption → Bool
  | noFences | debug | help => false
  | _ => true

def ofLong? (name : List Char) : Option CommandOption :=
  all.find? fun o => o.long.toList == name

def ofShort? (c : Char) : Option CommandOption := all.find? fun o => o.short? == some c

/-! ## Values -/

def wordValue (put : UInt64 → Overrides) (o : Options) (value : List Char) :
    Except UsageError Options :=
  match Decimal.word? value with
  | some n => .ok { o with values := put n }
  | none => .error .valueValidation

/-- A half word as a value, which may be written as a zero with a minus sign. -/
def halfWordValue (put : UInt32 → Overrides) (o : Options) (value : List Char) :
    Except UsageError Options :=
  match Decimal.ofSigned? value with
  | some n =>
      if 0 ≤ n ∧ n.toNat < UInt32.size then .ok { o with values := put (UInt32.ofNat n.toNat) }
      else .error .valueValidation
  | none => .error .valueValidation

/-- The options with the value of one of them. -/
def assign (option : CommandOption) (o : Options) (value : List Char) :
    Except UsageError Options :=
  let v := o.values
  match option with
  | config =>
      if value.isEmpty then .error .invalidValue
      else .ok { o with config := some (String.ofList value) }
  | allocator =>
      match AllocatorKind.ofName? (String.ofList value) with
      | some kind => .ok { o with allocator := kind }
      | none => .error .invalidValue
  | initialHugeBlocks => wordValue (fun n => { v with initialHugeBlocks := some n }) o value
  | additionalHugeBlocks => wordValue (fun n => { v with additionalHugeBlocks := some n }) o value
  | pagesPerHugeBlock => wordValue (fun n => { v with pagesPerHugeBlock := some n }) o value
  | startPage => wordValue (fun n => { v with startPage := some n }) o value
  | endPage => wordValue (fun n => { v with endPage := some n }) o value
  | initialBlockSize => wordValue (fun n => { v with initialBlockSize := some n }) o value
  | blockSize => wordValue (fun n => { v with blockSize := some (some n) }) o value
  | minimumBlockSize => wordValue (fun n => { v with minimumBlockSize := some n }) o value
  | conflictThreshold =>
      wordValue (fun n => { v with conflictThreshold := some (some n) }) o value
  | calibrationRuns => wordValue (fun n => { v with calibrationRuns := some n }) o value
  | sampleSize => wordValue (fun n => { v with sampleSize := some n }) o value
  | rounds => wordValue (fun n => { v with rounds := some n }) o value
  | retries => wordValue (fun n => { v with retries := some n }) o value
  | errorPercentage => wordValue (fun n => { v with errorPercentage := some n }) o value
  | threads => wordValue (fun n => { v with threads := some n }) o value
  | maxMaskBits => halfWordValue (fun n => { v with maxMaskBits := some n }) o value
  | maxRegroupRounds => wordValue (fun n => { v with maxRegroupRounds := some n }) o value
  | memoryType =>
      match MemoryType.ofText? (String.ofList value) with
      | some m => .ok { o with values := { v with memoryType := some m } }
      | none => .error .valueValidation
  | seed => wordValue (fun n => { v with seed := some (some n) }) o value
  | output => .ok { o with output := some (String.ofList value) }
  | noFences => .ok { o with noFences := true }
  | debug => .ok { o with debug := true }
  | help => .error .displayHelp

end CommandOption

namespace Options

/-- An option whose value is in an argument of its own, which may not have come yet. -/
structure Pending where
  option : CommandOption
  value : Option (List Char)
deriving DecidableEq, Repr

/-- The state between two arguments. -/
structure Reading where
  options : Options := {}
  seen : List CommandOption := []
  pending : Option Pending := none
  /-- Whether two dashes alone were met, behind which there are no options. -/
  trailing : Bool := false
deriving DecidableEq, Repr

/-- Completes an option with its value, if it has not been given before. -/
def complete (r : Reading) (option : CommandOption) (value : List Char) :
    Except UsageError Reading :=
  if option = .help then .error .displayHelp
  else if option ∈ r.seen then .error .argumentConflict
  else
    (option.assign r.options value).map fun options =>
      { r with options := options, seen := option :: r.seen }

/-- Completes the pending option, whose value has to have come. -/
def resolve (r : Reading) : Except UsageError Reading :=
  match r.pending with
  | none => .ok r
  | some ⟨_, none⟩ => .error .invalidValue
  | some ⟨option, some value⟩ => complete { r with pending := none } option value

/-- Completes the pending option and then one that came with its value. -/
def react (r : Reading) (option : CommandOption) (value : List Char) :
    Except UsageError Reading :=
  (resolve r).bind fun r => complete r option value

/-- Completes the pending option, and waits for the value of the next one. -/
def await (r : Reading) (option : CommandOption) : Except UsageError Reading :=
  (resolve r).map fun r => { r with pending := some ⟨option, none⟩ }

/-- An option by its long name, with a value behind an equals sign or without one. -/
def readLong (r : Reading) (name : List Char) (value : Option (List Char)) :
    Except UsageError Reading :=
  match CommandOption.ofLong? name with
  | none => .error .unknownArgument
  | some option =>
      match option.takesValue, value with
      | true, some value => react r option value
      | true, none => await r option
      | false, some _ => .error .tooManyValues
      | false, none => react r option []

/-- Options by their letters. -/
def readShort (r : Reading) : List Char → Except UsageError Reading
  | [] => .ok r
  | c :: rest =>
      match CommandOption.ofShort? c with
      | none => .error .unknownArgument
      | some option =>
          if option.takesValue then
            match rest with
            | [] => await r option
            | '=' :: value => react r option value
            | value => react r option value
          else
            match react r option [] with
            | .error e => .error e
            | .ok r => readShort r rest

/-- The value of the pending option, if it waits for one. -/
def readValue (r : Reading) (value : List Char) : Except UsageError Reading :=
  match r.pending with
  | some ⟨option, none⟩ => .ok { r with pending := some ⟨option, some value⟩ }
  | _ => .error .unknownArgument

/-- One more argument. -/
def readArgument (r : Reading) (argument : List Char) : Except UsageError Reading :=
  if r.trailing then .error .unknownArgument
  else
    match argument with
    | ['-', '-'] => .ok { r with trailing := true }
    | '-' :: '-' :: long =>
        let name := long.takeWhile (· != '=')
        match long.dropWhile (· != '=') with
        | [] => readLong r name none
        | _ :: value => readLong r name (some value)
    | '-' :: c :: rest => readShort r (c :: rest)
    | value => readValue r value

def readArguments (r : Reading) : List String → Except UsageError Reading
  | [] => resolve r
  | argument :: rest =>
      match readArgument r argument.toList with
      | .error e => .error e
      | .ok r => readArguments r rest

/-- The options that the arguments spell. -/
def parse (arguments : List String) : Except UsageError Options :=
  (readArguments {} arguments).map Reading.options

end Options

end DramBanks
