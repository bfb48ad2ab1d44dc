import DramBanks.Kernel
/-!
# A scripted kernel

    A kernel that answers from lists and writes down every call.  The
    lists are used up from the front; when one is empty, mapping fails for
    lack of memory and the other calls succeed.
-/

namespace DramBanks

/-- A system call as it is written down. -/
inductive SystemCall where
  | map (length : UInt64) (protection flags : Nat)
  | unmap (base : Address) (length : UInt64)
  | advise (base : Address) (length : UInt64) (advice : Nat)
  | openFile (path : String) (flags mode : Nat)
  | openPageTable
  | unlink (path : String)
deriving DecidableEq, Repr

/-- A run of pages whose entries count up from the given one. -/
structure PageRun where
  first : UInt64
  count : UInt64
  entry : UInt64
deriving DecidableEq, Repr

/-- The state of a scripted kernel. -/
structure Script where
  /-- The addresses of the mappings to come. -/
  mappings : List (Option Address) := []
  /-- The error numbers of advice, opening and removal to come, 0 for success. -/
  advices : List Nat := []
  opens : List Nat := []
  unlinks : List Nat := []
  /-- The page table, if it can be opened. -/
  pages : Option (List PageRun) := none
  /-- The calls so far, the latest first. -/
  calls : List SystemCall := []
deriving DecidableEq, Repr

namespace Script

def record (s : Script) (c : SystemCall) : Script := { s with calls := c :: s.calls }

def trace (s : Script) : List SystemCall := s.calls.reverse

/-- The answer that an error number stands for. -/
def answer {α : Type} (value : α) : Option Nat → Except Errno α
  | none | some 0 => .ok value
  | some code => .error ⟨code⟩

def runEnd (r : PageRun) : Nat := r.first.toNat + r.count.toNat

/-- The entry of a page in a table that ends behind its last page; pages between the runs
    have the entry 0. -/
def entryOf? (runs : List PageRun) (page : UInt64) : Option UInt64 :=
  if page.toNat < (runs.map runEnd).foldl max 0 then
    match runs.find? fun r => decide (r.first ≤ page) && decide (page.toNat < runEnd r) with
    | some r => some (r.entry + (page - r.first))
    | none => some 0
  else none

def map (length : UInt64) (protection flags : Nat) (s : Script) : Except Errno Address × Script :=
  let s' := { s with mappings := s.mappings.drop 1 }.record (.map length protection flags)
  match s.mappings.head? with
  | some (some base) => (.ok base, s')
  | _ => (.error .noMemory, s')

/-- The kernel that follows a script. -/
def kernel (processId memoryInfo : String) : Kernel Script where
  processId := processId
  memoryInfo := memoryInfo
  map := fun length protection flags _ s => map length protection flags s
  unmap := fun base length s => s.record (.unmap base length)
  advise := fun base length advice s =>
    (answer () s.advices.head?,
     { s with advices := s.advices.drop 1 }.record (.advise base length advice))
  openFile := fun path flags mode s =>
    (answer 3 s.opens.head?, { s with opens := s.opens.drop 1 }.record (.openFile path flags mode))
  close := fun _ s => s
  unlink := fun path s =>
    (answer () s.unlinks.head?, { s with unlinks := s.unlinks.drop 1 }.record (.unlink path))
  openPageTable := fun s =>
    (if s.pages.isSome then .ok () else .error .noAccess, s.record .openPageTable)
  pageEntry? := fun page s => entryOf? (s.pages.getD []) page

end Script

end DramBanks
