import DramBanks.Allocator
import Mathlib.Data.Set.Lattice
import Mathlib.Order.CompletePartialOrder
/-!
# Blocks are allocated all or none

    Several blocks come from an allocator one by one, and a refusal gives
    back those that came before.  So what an allocator keeps between the
    held blocks and its state when it hands out a block or takes one back
    (`Allocator.Keeps`), it keeps through an allocation of several: at the
    end as many blocks are held as were asked for, or none
    (`Keeps.allocateBlocks`).  The only fault is a list of blocks larger
    than the address space, and it comes before the first block
    (`allocateBlocks_of_le`).

    What is kept whatever blocks are held is kept by everything that is
    asked of an allocator (`Keeps.serveAll`).  An allocator that writes
    down the states in which it hands out a block answers as before
    (`recorded_serveAll`).
-/

namespace DramBanks

/-- The bytes of a block. -/
def Block.bytes (b : Block) : Set ℕ := Set.Ico b.base.toNat (b.base.toNat + b.size.toNat)

namespace Allocator

variable {ω : Type} {a : Allocator ω} {Held : List Block → ω → Prop} {w : ω} {count : Nat}
  {blocks : List Block}

/-- What one answer and one release of an allocator keep between the held blocks, the earliest
    first, and the state. -/
structure Keeps (a : Allocator ω) (Held : List Block → ω → Prop) : Prop where
  handOut : ∀ {blocks block w w'}, Held blocks w → a.allocate w = (.ok block, w') →
    Held (blocks ++ [block]) w'
  refuse : ∀ {blocks e w w'}, Held blocks w → a.allocate w = (.error e, w') →
    (∀ f, e ≠ .fault f) ∧ Held blocks w'
  takeBack : ∀ {block blocks w}, Held (block :: blocks) w → Held blocks (a.release block w)
  warn : ∀ {blocks w} warning, Held blocks w → Held blocks (a.warn warning w)

/-- An allocation of `count` blocks ends with all of them held, or with an error and none.  It is
    a fault only if the list of the blocks is larger than the address space. -/
def AllOrNone (Held : List Block → ω → Prop) (count : Nat) :
    Except AllocationError (List Block) × ω → Prop
  | (.ok blocks, w) => blocks.length = count ∧ Held blocks w
  | (.error e, w) => (∀ f, e = .fault f → maxBlocks ≤ count) ∧ Held [] w

namespace Keeps

variable (h : a.Keeps Held)
include h

/-- Blocks are released in the order in which they came. -/
theorem releaseAll (hw : Held blocks w) : Held [] (a.releaseAll blocks w) := by
  induction blocks generalizing w with
  | nil => exact hw
  | cons block blocks ih => exact ih (h.takeBack hw)

/-- The induction is on the blocks still to come; those that are there are held. -/
theorem allocateFrom (left : Nat) (held : List Block) (hw : Held held.reverse w) :
    AllOrNone Held (held.length + left) (a.allocateFrom left held w) := by
  induction left generalizing held w with
  | zero => exact ⟨List.length_reverse, hw⟩
  | succ left ih =>
      rw [Allocator.allocateFrom]
      rcases hanswer : a.allocate w with ⟨e | block, w'⟩
      · obtain ⟨hfault, hheld⟩ := h.refuse hw hanswer
        cases e with
        | fault f => exact absurd rfl (hfault f)
        | system e => exact ⟨nofun, h.releaseAll (h.warn _ hheld)⟩
        | noHugePageSize => exact ⟨nofun, h.releaseAll (h.warn _ hheld)⟩
        | exhausted => exact ⟨nofun, h.releaseAll (h.warn _ hheld)⟩
      · have hheld : Held (block :: held).reverse w' := by
          rw [List.reverse_cons]
          exact h.handOut hw hanswer
        have hcount : held.length + (left + 1) = (block :: held).length + left := by
          rw [List.length_cons]
          omega
        rw [hcount]
        exact ih (block :: held) hheld

theorem allocateBlocks (hw : Held [] w) (count : Nat) :
    AllOrNone Held count (a.allocateBlocks count w) := by
  rw [Allocator.allocateBlocks]
  split
  · next hcount => exact ⟨fun _ _ => hcount, hw⟩
  · have hall := h.allocateFrom count [] hw
    rwa [List.length_nil, Nat.zero_add] at hall

end Keeps

theorem allocateBlocks_of_le (hcount : maxBlocks ≤ count) :
    a.allocateBlocks count w = (.error (.fault .capacity), w) := if_pos hcount

/-! ## Calls on one allocator -/

/-- What is asked of an allocator. -/
inductive Request where
  | blocks (count : Nat)
  | release (block : Block)

def serve (a : Allocator ω) : Request → ω → ω
  | .blocks count, w => (a.allocateBlocks count w).2
  | .release block, w => a.release block w

def serveAll (a : Allocator ω) (requests : List Request) (w : ω) : ω :=
  requests.foldl (fun w request => a.serve request w) w

theorem serveAll_append (requests more : List Request) (w : ω) :
    a.serveAll (requests ++ more) w = a.serveAll more (a.serveAll requests w) :=
  List.foldl_append

/-- What does not depend on the blocks is kept by everything that is asked. -/
theorem Keeps.serve {P : ω → Prop} (h : a.Keeps fun _ => P) (hw : P w) (request : Request) :
    P (a.serve request w) := by
  cases request with
  | blocks count =>
      have hall := h.allocateBlocks hw count
      rw [Allocator.serve]
      revert hall
      rcases a.allocateBlocks count w with ⟨e | blocks, w'⟩
      all_goals exact fun hall => hall.2
  | release block => exact @Keeps.takeBack _ _ _ h block [] w hw

theorem Keeps.serveAll {P : ω → Prop} (h : a.Keeps fun _ => P) (hw : P w)
    (requests : List Request) : P (a.serveAll requests w) := by
  induction requests generalizing w with
  | nil => exact hw
  | cons request requests ih => exact ih (h.serve hw request)

/-- An allocator that writes down the states in which it hands out a block. -/
def recorded (a : Allocator ω) : Allocator (ω × List ω) where
  allocate := fun (w, log) =>
    match a.allocate w with
    | (.ok block, w') => (.ok block, w', log ++ [w])
    | (.error e, w') => (.error e, w', log)
  release := fun block (w, log) => (a.release block w, log)
  warn := fun warning (w, log) => (a.warn warning w, log)

section Recorded

variable (p : ω × List ω)

theorem recorded_ok {block : Block} {p' : ω × List ω}
    (h : a.recorded.allocate p = (.ok block, p')) :
    ∃ w, a.allocate p.1 = (.ok block, w) ∧ p' = (w, p.2 ++ [p.1]) := by
  simp only [recorded] at h
  rcases hanswer : a.allocate p.1 with ⟨e | b, w⟩
  all_goals
    rw [hanswer] at h
    cases h
  exact ⟨w, rfl, rfl⟩

theorem recorded_error {e : AllocationError} {p' : ω × List ω}
    (h : a.recorded.allocate p = (.error e, p')) :
    ∃ w, a.allocate p.1 = (.error e, w) ∧ p' = (w, p.2) := by
  simp only [recorded] at h
  rcases hanswer : a.allocate p.1 with ⟨e' | b, w⟩
  all_goals
    rw [hanswer] at h
    cases h
  exact ⟨w, rfl, rfl⟩

theorem recorded_releaseAll (blocks : List Block) :
    (a.recorded.releaseAll blocks p).1 = a.releaseAll blocks p.1 := by
  induction blocks generalizing p with
  | nil => rfl
  | cons block blocks ih => exact ih _

/-- Writing down changes nothing of an allocation. -/
theorem recorded_allocateFrom (left : Nat) (held : List Block) :
    Prod.map id Prod.fst (a.recorded.allocateFrom left held p) = a.allocateFrom left held p.1 := by
  induction left generalizing held p with
  | zero => rfl
  | succ left ih =>
      rw [allocateFrom, allocateFrom]
      simp only [recorded]
      rcases a.allocate p.1 with ⟨e | block, w'⟩
      · cases e with
        | fault f => rfl
        | system e => exact congrArg _ (recorded_releaseAll _ _)
        | noHugePageSize => exact congrArg _ (recorded_releaseAll _ _)
        | exhausted => exact congrArg _ (recorded_releaseAll _ _)
      · exact ih _ _

theorem recorded_serve (request : Request) :
    (a.recorded.serve request p).1 = a.serve request p.1 := by
  cases request with
  | blocks count =>
      rw [serve, serve, allocateBlocks, allocateBlocks]
      split
      · rfl
      · exact congrArg Prod.snd (recorded_allocateFrom p count [])
  | release block => rfl

theorem recorded_serveAll (requests : List Request) :
    (a.recorded.serveAll requests p).1 = a.serveAll requests p.1 := by
  induction requests generalizing p with
  | nil => rfl
  | cons request requests ih =>
      have hrest := ih (a.recorded.serve request p)
      rw [recorded_serve] at hrest
      exact hrest

end Recorded

end Allocator

end DramBanks
