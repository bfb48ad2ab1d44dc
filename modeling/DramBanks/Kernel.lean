import DramBanks.Kernel.Errno
import DramBanks.Warning
/-!
# The kernel

    The system calls that mapping memory needs, on an explicit state.  A
    kernel may answer as it likes; what a caller can rely on is stated of
    the kernel where it is needed.  The world of an analysis is the state
    of its kernel together with the warnings given so far.
-/

namespace DramBanks

/-- A handle of an open file. -/
abbrev Descriptor := Nat

/-- The system calls on a state. -/
structure Kernel (κ : Type) where
  processId : String
  memoryInfo : String
  /-- Maps memory of a length, with protection and flags, from a file or none. -/
  map : (length : UInt64) → (protection flags : Nat) → (file : Option Descriptor) → κ →
    Except Errno Address × κ
  unmap : (base : Address) → (length : UInt64) → κ → κ
  advise : (base : Address) → (length : UInt64) → (advice : Nat) → κ → Except Errno Unit × κ
  openFile : (path : String) → (flags mode : Nat) → κ → Except Errno Descriptor × κ
  close : Descriptor → κ → κ
  unlink : (path : String) → κ → Except Errno Unit × κ
  openPageTable : κ → Except Errno Unit × κ
  /-- The entry of a page, if the table reaches so far. -/
  pageEntry? : (page : UInt64) → κ → Option UInt64

namespace Kernel

def readWrite : Nat := 3

/-- A private mapping without a file. -/
def privateAnonymous : Nat := 34

/-- A shared mapping whose pages are there at once. -/
def sharedPopulated : Nat := 32769

/-- Opening for reading and writing, with the file created if need be. -/
def readWriteCreate : Nat := 66

def ownerReadWrite : Nat := 384

/-- Advice to back a range with huge pages. -/
def hugePageAdvice : Nat := 14

/-- A kernel without system calls. -/
def unavailable : Kernel Unit where
  processId := "self"
  memoryInfo := ""
  map := fun _ _ _ _ s => (.error .noSystemCall, s)
  unmap := fun _ _ s => s
  advise := fun _ _ _ s => (.error .noSystemCall, s)
  openFile := fun _ _ _ s => (.error .noSystemCall, s)
  close := fun _ s => s
  unlink := fun _ s => (.error .noSystemCall, s)
  openPageTable := fun s => (.error .noSystemCall, s)
  pageEntry? := fun _ _ => none

end Kernel

/-- The state of a kernel and the warnings so far. -/
structure World (κ : Type) where
  kernel : κ
  warnings : List Warning := []

namespace World

variable {κ : Type}

def warn (w : World κ) (warning : Warning) : World κ :=
  { w with warnings := w.warnings ++ [warning] }

/-- A system call that answers. -/
def call {α : Type} (f : κ → α × κ) (w : World κ) : α × World κ :=
  let (a, kernel) := f w.kernel
  (a, { w with kernel := kernel })

theorem call_eq {α : Type} {f : κ → α × κ} {w : World κ} {a : α} {s : κ}
    (h : f w.kernel = (a, s)) : w.call f = (a, { w with kernel := s }) := by
  rw [call, h]

def run (f : κ → κ) (w : World κ) : World κ := { w with kernel := f w.kernel }

def release (k : Kernel κ) (base : Address) (length : UInt64) (w : World κ) : World κ :=
  w.run (k.unmap base length)

end World

end DramBanks
