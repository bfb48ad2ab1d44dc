import DramBanks.Settings.Reader
import Mathlib.Logic.Function.Basic
/-!
# The fields of settings and of layers

    A setting has a type of values (`Field.Value`), settings have a value
    for every field (`Settings.value`), and a layer has one for some of them
    (`Overrides.value?`).  Said this way a layer is a function on fields:
    `Overrides.ofValues` makes a layer from any such function, and giving a
    value to one field (`Overrides.put`) is an update of it.  What laying a
    layer over settings does is then one law for all fields
    (`Settings.value_override`).

    The number of threads of settings without one is the number of
    processors, which is a parameter of `Settings.value`. -/

namespace DramBanks

/-- What a setting holds. -/
def Field.Value : Field → Type
  | .blockSize | .conflictThreshold | .seed => Option UInt64
  | .fenced => Bool
  | .maxMaskBits => UInt32
  | .memoryType => MemoryType
  | _ => UInt64

/-- The value of a setting on a machine with so many processors. -/
def Settings.value (processors : UInt64) (s : Settings) : (f : Field) → f.Value
  | .initialHugeBlocks => s.initialHugeBlocks
  | .additionalHugeBlocks => s.additionalHugeBlocks
  | .pagesPerHugeBlock => s.pagesPerHugeBlock
  | .startPage => s.startPage
  | .endPage => s.endPage
  | .initialBlockSize => s.initialBlockSize
  | .blockSize => s.blockSize
  | .minimumBlockSize => s.minimumBlockSize
  | .conflictThreshold => s.conflictThreshold
  | .calibrationRuns => s.calibrationRuns
  | .sampleSize => s.sampleSize
  | .rounds => s.rounds
  | .fenced => s.fenced
  | .retries => s.retries
  | .errorPercentage => s.errorPercentage
  | .threads => s.threads.getD processors
  | .maxMaskBits => s.maxMaskBits
  | .maxRegroupRounds => s.maxRegroupRounds
  | .memoryType => s.memoryType
  | .seed => s.seed

/-- Two machines tell apart a number of threads from none. -/
theorem eq_of_getD {x y : Option UInt64} (hone : x.getD 1 = y.getD 1)
    (htwo : x.getD 2 = y.getD 2) : x = y := by
  have hne : (1 : UInt64) ≠ 2 := by decide
  cases x with
  | none =>
      cases y with
      | none => rfl
      | some n => exact absurd (hone.trans htwo.symm) hne
  | some m =>
      cases y with
      | none => exact absurd (hone.symm.trans htwo) hne
      | some n => exact congrArg some hone

/-- Settings with the same values on every machine are the same. -/
theorem Settings.eq_of_value {s t : Settings}
    (h : ∀ processors f, s.value processors f = t.value processors f) : s = t := by
  have hthreads : s.threads = t.threads := eq_of_getD (h 1 .threads) (h 2 .threads)
  have hvalue := h 1
  cases s
  cases t
  rw [Settings.mk.injEq]
  exact ⟨hvalue .initialHugeBlocks, hvalue .additionalHugeBlocks, hvalue .pagesPerHugeBlock,
    hvalue .startPage, hvalue .endPage, hvalue .initialBlockSize, hvalue .blockSize,
    hvalue .minimumBlockSize, hvalue .conflictThreshold, hvalue .calibrationRuns,
    hvalue .sampleSize, hvalue .rounds, hvalue .fenced, hvalue .retries, hvalue .errorPercentage,
    hthreads, hvalue .maxMaskBits, hvalue .maxRegroupRounds, hvalue .memoryType, hvalue .seed⟩

namespace Overrides

variable {o : Overrides} {f g : Field}

/-- The value that a layer gives to a setting. -/
def value? (o : Overrides) : (f : Field) → Option f.Value
  | .initialHugeBlocks => o.initialHugeBlocks
  | .additionalHugeBlocks => o.additionalHugeBlocks
  | .pagesPerHugeBlock => o.pagesPerHugeBlock
  | .startPage => o.startPage
  | .endPage => o.endPage
  | .initialBlockSize => o.initialBlockSize
  | .blockSize => o.blockSize
  | .minimumBlockSize => o.minimumBlockSize
  | .conflictThreshold => o.conflictThreshold
  | .calibrationRuns => o.calibrationRuns
  | .sampleSize => o.sampleSize
  | .rounds => o.rounds
  | .fenced => o.fenced
  | .retries => o.retries
  | .errorPercentage => o.errorPercentage
  | .threads => o.threads
  | .maxMaskBits => o.maxMaskBits
  | .maxRegroupRounds => o.maxRegroupRounds
  | .memoryType => o.memoryType
  | .seed => o.seed

/-- The layer that gives these values. -/
def ofValues (values : (f : Field) → Option f.Value) : Overrides where
  initialHugeBlocks := values .initialHugeBlocks
  additionalHugeBlocks := values .additionalHugeBlocks
  pagesPerHugeBlock := values .pagesPerHugeBlock
  startPage := values .startPage
  endPage := values .endPage
  initialBlockSize := values .initialBlockSize
  blockSize := values .blockSize
  minimumBlockSize := values .minimumBlockSize
  conflictThreshold := values .conflictThreshold
  calibrationRuns := values .calibrationRuns
  sampleSize := values .sampleSize
  rounds := values .rounds
  fenced := values .fenced
  retries := values .retries
  errorPercentage := values .errorPercentage
  threads := values .threads
  maxMaskBits := values .maxMaskBits
  maxRegroupRounds := values .maxRegroupRounds
  memoryType := values .memoryType
  seed := values .seed

@[simp] theorem value?_ofValues (values : (f : Field) → Option f.Value) (f : Field) :
    (ofValues values).value? f = values f := by
  cases f <;> rfl

@[simp] theorem ofValues_value? (o : Overrides) : ofValues o.value? = o := rfl

@[simp] theorem value?_empty (f : Field) : ({} : Overrides).value? f = none := by
  cases f <;> rfl

/-- Layers that give the same values are the same. -/
theorem eq_of_value? {o o' : Overrides} (h : ∀ f, o.value? f = o'.value? f) : o = o' := by
  rw [← ofValues_value? o, ← ofValues_value? o', funext h]

/-- The layer with one more value. -/
def put (o : Overrides) (f : Field) (v : f.Value) : Overrides :=
  ofValues (Function.update o.value? f (some v))

@[simp] theorem value?_put (o : Overrides) (f : Field) (v : f.Value) :
    (o.put f v).value? = Function.update o.value? f (some v) :=
  funext fun g => value?_ofValues _ g

theorem value?_put_self (o : Overrides) (f : Field) (v : f.Value) :
    (o.put f v).value? f = some v := by
  rw [value?_put, Function.update_self]

theorem value?_put_of_ne (o : Overrides) (v : f.Value) (h : g ≠ f) :
    (o.put f v).value? g = o.value? g := by
  rw [value?_put, Function.update_of_ne h]

end Overrides

/-- **LAYER**: every setting has the value of the layer if that gives one, and else the value it
    had before. -/
theorem Settings.value_override (processors : UInt64) (s : Settings) (o : Overrides) (f : Field) :
    (s.override o).value processors f = (o.value? f).getD (s.value processors f) := by
  cases f with
  | threads =>
      show (o.threads <|> s.threads).getD processors
        = o.threads.getD (s.threads.getD processors)
      cases o.threads <;> rfl
  | _ => rfl

namespace Field

variable {f : Field} {name : String}

/-! ## Keys -/

/-- Two settings have different keys. -/
theorem key_injective : Function.Injective key := by
  have hkeys : ∀ f ∈ all, ∀ g ∈ all, f.key = g.key → f = g := by decide
  exact fun f g h => hkeys f (mem_all f) g (mem_all g) h

theorem eq_key_of_ofKey? (h : ofKey? name = some f) : name = f.key := by
  have hsame := List.find?_some h
  exact (eq_of_beq hsame).symm

theorem ofKey?_eq_some_iff : ofKey? name = some f ↔ name = f.key := by
  refine ⟨eq_key_of_ofKey?, ?_⟩
  rintro rfl
  cases hfind : ofKey? f.key with
  | none =>
      have hnot := List.find?_eq_none.mp hfind f (mem_all f)
      exact absurd (beq_self_eq_true f.key) hnot
  | some g => rw [key_injective (eq_key_of_ofKey? hfind)]

theorem ofKey?_eq_none_iff : ofKey? name = none ↔ ∀ f : Field, name ≠ f.key := by
  rw [Option.eq_none_iff_forall_ne_some]
  exact forall_congr' fun f => not_congr ofKey?_eq_some_iff

/-! ## Values in a configuration -/

open Json (Token)

/-- The value of a setting at the front of the tokens, and what stands behind it. -/
def read? : (f : Field) → List Token → Option (f.Value × List Token)
  | .initialHugeBlocks | .additionalHugeBlocks | .pagesPerHugeBlock | .startPage | .endPage
  | .initialBlockSize | .minimumBlockSize | .calibrationRuns | .sampleSize | .rounds | .retries
  | .errorPercentage | .threads | .maxRegroupRounds => Settings.word?
  | .blockSize | .conflictThreshold | .seed => Settings.optionalWord?
  | .fenced => Settings.bool?
  | .maxMaskBits => Settings.halfWord?
  | .memoryType => Settings.memoryType?

end Field

open Json (Token)

/-- **READ**: the value of a setting is put into the layer, unless the layer has one. -/
theorem Settings.readField?_eq (f : Field) (o : Overrides) (tokens : List Token) :
    readField? f o tokens = assign? (o.value? f) f.read? (o.put f) tokens := by
  cases f <;> rfl

end DramBanks
