import Std.Data.HashSet
import DramBanks.Classifier
import DramBanks.RunLength
/-!
# The block size

    A bank is made of blocks: aligned pieces of memory whose addresses all
    lie in it.  Switching the classifier to smaller blocks classifies the
    addresses between the old ones; switching to larger blocks keeps the
    aligned addresses whose whole block is in the group.

    The block size is guessed from runs, addresses of a group that are one
    block apart: the most frequent run length is the number of blocks that
    belong together.  While the guess is the current block size, blocks
    may still be too large, so the size is halved and guessed again; the
    first different guess is taken.
-/

namespace DramBanks.Classifier

variable {σ : Type}

/-! ## Smaller blocks -/

/-- How many addresses lie inside a block, `step` apart, without its start. -/
def insideCount (old step : UInt64) : Nat := (old.toNat - 1) / step.toNat

/-- The addresses inside the block at `start`, `step` apart, without the start. -/
def insideBlock (old step : UInt64) (start : Address) : List Address :=
  (List.range (insideCount old step)).map fun i => start + UInt64.ofNat (i + 1) * step

/-- The addresses inside the blocks at `starts`, as long as they are addresses. -/
def insideBlocks (old step : UInt64) (starts : List Address) : Except Fault (List Address) :=
  if starts.all fun start => decide (start.toNat + insideCount old step * step.toNat < UInt64.size) then
    .ok (starts.flatMap (insideBlock old step))
  else .error .sumOverflow

/-- The members of all groups that lie on a boundary of the given size. -/
def alignedMembers (groups : List Group) (size : UInt64) : List Address :=
  groups.flatMap fun g => g.members.filter fun a => a % size == 0

/-- Classifies the addresses between the old block boundaries into the groups. -/
def expand (b : Bench σ) (old new : UInt64) (c : Classifier σ) :
    Except Fault (Classifier σ) :=
  (insideBlocks old new (alignedMembers c.groups old)).map fun addrs =>
    (classifyAll b false addrs 0 c).2

/-! ## Larger blocks -/

/-- Whether the `count` addresses behind `addr`, `step` apart, are members. -/
def successorsIn (members : Std.HashSet Address) (step : UInt64) :
    (count : Nat) → (addr : Address) → Except Fault Bool
  | 0, _ => .ok true
  | count + 1, addr =>
      match Word.add addr step with
      | .error f => .error f
      | .ok next =>
          if members.contains next then successorsIn members step count next else .ok false

/-- The addresses on a boundary of the new size whose whole block is among the members,
    behind those in `kept`, latest first. -/
def wholeBlocks (members : Std.HashSet Address) (old new : UInt64) :
    List Address → (kept : List Address) → Except Fault (List Address)
  | [], kept => .ok kept.reverse
  | a :: rest, kept =>
      if a % new == 0 then
        match successorsIn members old ((new / old).toNat - 1) a with
        | .error f => .error f
        | .ok true => wholeBlocks members old new rest (a :: kept)
        | .ok false => wholeBlocks members old new rest kept
      else wholeBlocks members old new rest kept

def sorted (addrs : List Address) : List Address := addrs.mergeSort fun a b => decide (a ≤ b)

def simplifyGroup (old new : UInt64) (g : Group) : Except Fault Group :=
  (wholeBlocks (Std.HashSet.ofList g.members) old new g.members []).map fun kept =>
    .ofMembers (sorted kept) g.blockSize

def simplifyGroups (old new : UInt64) : List Group → Except Fault (List Group)
  | [] => .ok []
  | g :: rest =>
      match simplifyGroup old new g, simplifyGroups old new rest with
      | .ok g, .ok rest => .ok (g :: rest)
      | .error f, _ => .error f
      | _, .error f => .error f

def simplify (old new : UInt64) (c : Classifier σ) : Except Fault (Classifier σ) :=
  if old = 0 then .error .divisionByZero
  else (simplifyGroups old new c.groups).map fun groups => { c with groups := groups }

/-! ## Switching -/

/-- The classifier with its groups cut for the given block size. -/
def cutTo (b : Bench σ) (size : UInt64) (c : Classifier σ) : Except Fault (Classifier σ) :=
  if size < c.blockSize then c.expand b c.blockSize size
  else if c.blockSize < size then c.simplify c.blockSize size
  else .ok c

/-- Takes note of a block size, and warns of groups that it left empty. -/
def commit (size : UInt64) (c : Classifier σ) : Classifier σ :=
  let groups := c.groups.map fun g => { g with blockSize := size }
  let emptied := groups.countP Group.isEmpty
  let c : Classifier σ := { c with groups := groups, blockSize := size }
  if 0 < emptied then c.warn (.emptyGroups emptied groups.length size) else c

/-- Switches the classifier to a block size; 0 changes nothing. -/
def setBlockSize (b : Bench σ) (size : UInt64) (c : Classifier σ) :
    Except Fault (Classifier σ) :=
  if size = 0 then .ok c else (c.cutTo b size).map (commit size)

/-! ## Guessing -/

/-- The lengths of the runs behind a run of `run` addresses that ends in `last`, behind those
    in `done`, latest first. -/
def runsFrom (step : UInt64) : List Address → (last : Address) → (run : Nat) →
    (done : List Nat) → Except Fault (List Nat)
  | [], _, run, done => .ok (run :: done).reverse
  | a :: rest, last, run, done =>
      match Word.add last step with
      | .error f => .error f
      | .ok next =>
          if a = next then runsFrom step rest a (run + 1) done
          else runsFrom step rest a 1 (run :: done)

/-- The lengths of the runs of a sorted group. -/
def runs (step : UInt64) : List Address → Except Fault (List Nat)
  | [] => .ok []
  | a :: rest => runsFrom step rest a 1 []

def allRuns (step : UInt64) : List Group → Except Fault (List Nat)
  | [] => .ok []
  | g :: rest =>
      match runs step g.members, allRuns step rest with
      | .ok lengths, .ok more => .ok (lengths ++ more)
      | .error f, _ => .error f
      | _, .error f => .error f

/-- The entry with the largest count, the first of several. -/
def mostFrequent (counts : List (Nat × Nat)) : Nat × Nat :=
  counts.foldl (fun best entry => if best.2 < entry.2 then entry else best) (0, 0)

/-- The most frequent number of a list, the smallest of several, and 0 for none. -/
def mode (lengths : List Nat) : Nat :=
  (mostFrequent (RunLength.encode (lengths.mergeSort fun a b => decide (a ≤ b)))).1

def sortGroup (g : Group) : Group := .ofMembers (sorted g.members) g.blockSize

/-- The block size that the runs of the groups suggest, 0 without members.  The members of
    every group are sorted on the way. -/
def guessBlockSize (c : Classifier σ) : Except Fault (UInt64 × Classifier σ) :=
  let c := { c with groups := c.groups.map sortGroup }
  match allRuns c.blockSize c.groups with
  | .error f => .error f
  | .ok lengths => (Word.mul (UInt64.ofNat (mode lengths)) c.blockSize).map fun size => (size, c)

/-! ## Detection -/

/-- Takes a guess, unless it is the current size or there was nothing to guess from. -/
def commitGuess (b : Bench σ) (guess : UInt64) (c : Classifier σ) :
    Except Fault (Classifier σ) :=
  if guess = 0 then .ok (c.warn (.nothingToGuess c.blockSize))
  else if guess = c.blockSize then .ok (c.warn (.notStabilized c.blockSize))
  else c.setBlockSize b guess

/-- Halves the block size from `size`, the current one, until the guess differs from it or
    the minimum is reached, and takes the guess. -/
def detectFrom (b : Bench σ) (size : UInt64) (c : Classifier σ) :
    Except Fault (Classifier σ) :=
  match c.guessBlockSize with
  | .error f => .error f
  | .ok (guess, c) =>
      if _h : guess = size ∧ b.settings.minimumBlockSize < size then
        if size / 2 = 0 then .error .endless
        else
          match c.setBlockSize b (size / 2) with
          | .error f => .error f
          | .ok c => detectFrom b (size / 2) c
      else c.commitGuess b guess
termination_by size.toNat
decreasing_by
  have hpos := UInt64.lt_iff_toNat_lt.mp _h.2
  rw [UInt64.toNat_div]
  exact Nat.div_lt_self (by omega) (by decide)

def detectBlockSize (b : Bench σ) (c : Classifier σ) : Except Fault (UInt64 × Classifier σ) :=
  (c.detectFrom b c.blockSize).map fun c => (c.blockSize, c)

/-! ## Steps -/

/-- The size that is one doubling or halving closer to a target. -/
def nextSize (size target : UInt64) : Except Fault UInt64 :=
  if size < target then Word.mul size 2 else .ok (size / 2)

/-- Doubles or halves the block size until it is the target, which has to be at most `left` such
    steps away. -/
def stepTo (b : Bench σ) (target : UInt64) : (left : Nat) → Classifier σ →
    Except Fault (Classifier σ)
  | 0, c => if c.blockSize = target then .ok c else .error .endless
  | left + 1, c =>
      if c.blockSize = target then .ok c
      else
        match (nextSize c.blockSize target).bind fun next => c.setBlockSize b next with
        | .error f => .error f
        | .ok c => stepTo b target left c

/-- Moves to a block size by doublings or halvings.  If either size is no power of two the
    block size is detected instead. -/
def setBlockSizeInSteps (b : Bench σ) (target : UInt64) (c : Classifier σ) :
    Except Fault (UInt64 × Classifier σ) :=
  if target = c.blockSize then .ok (c.blockSize, c)
  else if Word.isPowerOfTwo target && Word.isPowerOfTwo c.blockSize then
    (c.stepTo b target 64).map fun c => (c.blockSize, c)
  else (c.warn (.cannotStep c.blockSize target)).detectBlockSize b

end DramBanks.Classifier
