import DramBanks.Group
import DramBanks.Warning
/-!
# The classifier

    The classifier keeps the groups found so far; the position of a group
    is the number of its bank.  A new address is scored by every group and
    joins the group with the highest score that reaches the threshold, the
    first of several.  If there is none, the search is repeated a few
    times before the address opens a group of its own or is left out.
-/

namespace DramBanks

/-- The state of a classification. -/
structure Classifier (σ : Type) where
  groups : List Group
  blockSize : UInt64
  probe : σ
  warnings : List (Notice σ) := []

namespace Classifier

variable {σ : Type}

/-- A classifier without groups at the configured initial block size. -/
def empty (b : Bench σ) (s : σ) : Classifier σ where
  groups := []
  blockSize := b.settings.initialBlockSize
  probe := s

def bankCount (c : Classifier σ) : Nat := c.groups.length

/-- Whether a number of banks is a power of two. -/
def isPlausible (banks : Nat) : Bool := banks != 0 && 1 <<< banks.log2 == banks

def warn (c : Classifier σ) (w : Warning) : Classifier σ :=
  { c with warnings := c.warnings ++ [⟨w, c.probe⟩] }

/-! ## Finding a group -/

/-- The better of the best group so far and the one at `index`: a score has to reach the
    threshold and to exceed the best one. -/
def better (threshold : Latency) (index : Nat) (score : Latency) :
    Option (Nat × Latency) → Option (Nat × Latency)
  | none => if threshold ≤ score then some (index, score) else none
  | some (i, best) =>
      if threshold ≤ score ∧ best < score then some (index, score) else some (i, best)

/-- The best group for `addr` among `best` and the groups from position `index` on. -/
def bestGroup (b : Bench σ) (addr : Address) :
    List Group → (index : Nat) → (best : Option (Nat × Latency)) → σ →
      Option (Nat × Latency) × σ
  | [], _, best, s => (best, s)
  | g :: rest, index, best, s =>
      let (score, s) := g.score b addr s
      bestGroup b addr rest (index + 1) (better b.threshold index score best) s

/-- The position of the group that `addr` conflicts with, searched for at most `attempts`
    times. -/
def search (b : Bench σ) (addr : Address) (groups : List Group) :
    (attempts : Nat) → σ → Option Nat × σ
  | 0, s => (none, s)
  | attempts + 1, s =>
      match bestGroup b addr groups 0 none s with
      | (some (index, _), s) => (some index, s)
      | (none, s) => search b addr groups attempts s

def attempts (b : Bench σ) : Nat := b.settings.retries.toNat + 1

/-- The bank of `addr`, if it conflicts with a group. -/
def bankIndexFor (b : Bench σ) (c : Classifier σ) (addr : Address) :
    Option Nat × Classifier σ :=
  let (index, s) := search b addr c.groups (attempts b) c.probe
  (index, { c with probe := s })

/-! ## Adding addresses -/

/-- Adds `addr` to the group it conflicts with, or to a new group where this is allowed.
    The answer is whether a group was there. -/
def classify (b : Bench σ) (allowNew : Bool) (c : Classifier σ) (addr : Address) :
    Bool × Classifier σ :=
  match c.bankIndexFor b addr with
  | (some index, c) => (true, { c with groups := c.groups.modify index (·.push addr) })
  | (none, c) =>
      (false, if allowNew then { c with groups := c.groups ++ [.ofMembers [addr] c.blockSize] } else c)

/-- Adds addresses in turn; to `misses` are added those for which no group was there. -/
def classifyAll (b : Bench σ) (allowNew : Bool) :
    List Address → (misses : Nat) → Classifier σ → Nat × Classifier σ
  | [], misses, c => (misses, c)
  | addr :: rest, misses, c =>
      let (found, c) := c.classify b allowNew addr
      classifyAll b allowNew rest (if found then misses else misses + 1) c

/-! ## What adding leaves alone -/

@[simp] theorem blockSize_bankIndexFor (b : Bench σ) (c : Classifier σ) (addr : Address) :
    (c.bankIndexFor b addr).2.blockSize = c.blockSize := rfl

@[simp] theorem blockSize_classify (b : Bench σ) (allowNew : Bool) (c : Classifier σ)
    (addr : Address) : (c.classify b allowNew addr).2.blockSize = c.blockSize := by
  unfold classify
  split
  · next heq =>
      have h := blockSize_bankIndexFor b c addr
      rw [heq] at h
      exact h
  · next heq =>
      have h := blockSize_bankIndexFor b c addr
      rw [heq] at h
      cases allowNew with
      | true => exact h
      | false => exact h

@[simp] theorem blockSize_classifyAll (b : Bench σ) (allowNew : Bool) (addrs : List Address)
    (misses : Nat) (c : Classifier σ) :
    (classifyAll b allowNew addrs misses c).2.blockSize = c.blockSize := by
  induction addrs generalizing misses c with
  | nil => rfl
  | cons addr rest ih =>
      simp only [classifyAll, ih, blockSize_classify]

/-! ## Adding a huge block -/

/-- `count` addresses from `start` on, `step` apart. -/
def progression (start step : UInt64) (count : Nat) : List Address :=
  (List.range count).map fun i => start + UInt64.ofNat i * step

/-- How many blocks lie between two addresses, the last of which may be cut short. -/
def blockCount (start stop step : UInt64) : Nat :=
  (stop.toNat - start.toNat + step.toNat - 1) / step.toNat

/-- The blocks between two addresses.  Their list has to fit into the address space. -/
def blocksBetween (start stop step : UInt64) : Except Fault (List Address) :=
  if step = 0 then .error .zeroStep
  else if 1 <<< 60 ≤ blockCount start stop step then .error .capacity
  else .ok (progression start step (blockCount start stop step))

/-- The address of a page of a huge block. -/
def pageAddress (base : Address) (page : UInt64) : Except Fault Address :=
  (Page.bytes page).bind (Word.add base)

/-- The addresses of the huge block at `base` that are classified at a block size. -/
def regionAddresses (s : Settings) (base : Address) (blockSize : UInt64) :
    Except Fault (List Address) :=
  match pageAddress base s.startPage, pageAddress base s.endPage with
  | .ok start, .ok stop => blocksBetween start stop blockSize
  | .error f, _ => .error f
  | _, .error f => .error f

/-- Classifies the huge block at `base` and counts the addresses without a group. -/
def addRegion (b : Bench σ) (allowNew : Bool) (c : Classifier σ) (base : Address) :
    Except Fault (Nat × Classifier σ) :=
  (regionAddresses b.settings base c.blockSize).map fun addrs =>
    classifyAll b allowNew addrs 0 c

end Classifier

end DramBanks
