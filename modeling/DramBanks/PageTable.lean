import DramBanks.Kernel
import DramBanks.Page
/-!
# Physical addresses

    The page table of a process has an entry for every page of its
    address space: the highest bit says whether the page is present, and
    the 55 lowest bits are the number of its frame.  The physical address
    is the frame's, with the offset inside the page kept.  A process
    without the permission sees the frame number 0 everywhere.
-/

namespace DramBanks

/-- Why an address cannot be translated. -/
inductive PageTableError where
  | cannotOpen (processId : String) (e : Errno)
  /-- The table ends before the page. -/
  | cannotRead (processId : String)
  | notPresent
deriving DecidableEq, Repr

namespace PageTableError

def message : PageTableError → String
  | cannotOpen processId e => s!"could not open '/proc/{processId}/pagemap': {e.message}"
  | cannotRead processId =>
      s!"could not read '/proc/{processId}/pagemap': failed to fill whole buffer"
  | notPresent => "page is not present"

end PageTableError

namespace PageTable

variable {κ : Type}

/-- Whether an entry says that its page is present. -/
def isPresent (entry : UInt64) : Bool := entry >>> 63 == 1

/-- The number of the frame in an entry. -/
def frame (entry : UInt64) : UInt64 := entry &&& 0x7fffffffffffff

/-- The address in a frame with the offset of a virtual address. -/
def physical (frame : UInt64) (virt : Address) : Address :=
  (frame <<< Page.shift) ||| Page.offset virt

def open? (k : Kernel κ) (w : World κ) : Except PageTableError Unit × World κ :=
  match w.call k.openPageTable with
  | (.ok (), w) => (.ok (), w)
  | (.error e, w) => (.error (.cannotOpen k.processId e), w)

def translate (k : Kernel κ) (virt : Address) (w : World κ) :
    Except PageTableError Address × World κ :=
  match k.pageEntry? (virt >>> Page.shift) w.kernel with
  | none => (.error (.cannotRead k.processId), w)
  | some entry =>
      if !isPresent entry then (.error .notPresent, w)
      else if frame entry = 0 then
        (.ok (physical (frame entry) virt), w.warn (.hiddenFrame virt))
      else (.ok (physical (frame entry) virt), w)

theorem kernel_open? {k : Kernel κ} (w : World κ) :
    (open? k w).2.kernel = (k.openPageTable w.kernel).2 := by
  rw [open?]
  rcases hanswer : k.openPageTable w.kernel with ⟨e | ⟨⟩, s⟩
  all_goals rw [World.call_eq hanswer]

/-- Reading an entry of the page table is no call. -/
theorem kernel_translate {k : Kernel κ} (virt : Address) (w : World κ) :
    (translate k virt w).2.kernel = w.kernel := by
  rw [translate]
  split
  · rfl
  · split
    · rfl
    · split <;> rfl

end PageTable

end DramBanks
