import DramBanks.Median
import DramBanks.Probe
import DramBanks.Settings
/-!
# Groups of addresses

    A group holds addresses that are believed to share a bank.  A new
    address is timed against a sample of the members, and its score is the
    median of these latencies: a high score means that it conflicts with
    the group.  An empty group scores 0.

    Members are stored so that adding one and looking one up by position
    take constant time.  Everything else is said of `Group.members`, the
    list of them, and `members_push` is what adding does to it.
-/

namespace DramBanks

/-- Addresses that are believed to share a bank. -/
structure Group where
  /-- The members, in the order in which they came or sorted. -/
  store : Array Address
  /-- The block size at which the members were classified. -/
  blockSize : UInt64
deriving DecidableEq, Repr

/-- What a classifier works with: the settings of the run, the latency from which on two
    addresses conflict, and the probe. -/
structure Bench (σ : Type) where
  settings : Settings
  threshold : Latency
  probe : Probe σ

namespace Group

variable {σ : Type}

/-- The members in their order. -/
def members (g : Group) : List Address := g.store.toList

def ofMembers (members : List Address) (blockSize : UInt64) : Group := ⟨members.toArray, blockSize⟩

def push (g : Group) (addr : Address) : Group := { g with store := g.store.push addr }

def isEmpty (g : Group) : Bool := g.store.isEmpty

/-- Times `addr` against each of the given members in turn. -/
def timings (b : Bench σ) (addr : Address) : List Address → σ → List Latency × σ
  | [], s => ([], s)
  | member :: rest, s =>
      let (t, s) :=
        b.probe.measure ⟨member, addr, b.settings.rounds, b.settings.fenced⟩ s
      let (ts, s) := timings b addr rest s
      (t :: ts, s)

/-- The members that a new address is timed against. -/
def sampled (b : Bench σ) (g : Group) (s : σ) : List Address × σ :=
  let (sample, s) := b.probe.choose g.store.size b.settings.sampleSize.toNat s
  (sample.indices.map fun i => g.store[i], s)

/-- The median latency of `addr` against a sample of the members. -/
def score (b : Bench σ) (g : Group) (addr : Address) (s : σ) : Latency × σ :=
  let (members, s) := g.sampled b s
  let (times, s) := timings b addr members s
  ((median times).getD 0, s)

/-! ## The list of members -/

@[simp] theorem members_push (g : Group) (addr : Address) :
    (g.push addr).members = g.members ++ [addr] := Array.toList_push

@[simp] theorem members_ofMembers (members : List Address) (blockSize : UInt64) :
    (ofMembers members blockSize).members = members := rfl

/-! ## What timing and sampling see -/

@[simp] theorem length_timings (b : Bench σ) (addr : Address) (members : List Address) (s : σ) :
    (timings b addr members s).1.length = members.length := by
  induction members generalizing s with
  | nil => rfl
  | cons member rest ih =>
      simp only [timings, List.length_cons, ih]

/-- A sample has the configured size, unless the group is smaller. -/
@[simp] theorem length_sampled (b : Bench σ) (g : Group) (s : σ) :
    (g.sampled b s).1.length = min b.settings.sampleSize.toNat g.members.length := by
  simp only [sampled, List.length_map]
  exact (b.probe.choose g.store.size b.settings.sampleSize.toNat s).1.length_eq

theorem mem_of_mem_sampled {b : Bench σ} {g : Group} {s : σ} {a : Address}
    (h : a ∈ (g.sampled b s).1) : a ∈ g.members := by
  simp only [sampled, List.mem_map] at h
  obtain ⟨i, -, rfl⟩ := h
  exact Array.getElem_mem_toList i.isLt

/-- An empty group scores 0, whatever the probe does. -/
theorem score_of_empty {b : Bench σ} {g : Group} (addr : Address) (s : σ)
    (h : g.members = []) : (g.score b addr s).1 = 0 := by
  have hsampled : (g.sampled b s).1 = [] := by
    apply List.eq_nil_of_length_eq_zero
    rw [length_sampled, h]
    simp
  have htimes : ∀ s', (timings b addr (g.sampled b s).1 s').1 = [] := by
    intro s'
    rw [hsampled]
    rfl
  simp only [score, htimes, median_nil, Option.getD_none]

end Group

end DramBanks
