import DramBanks.Word
/-!
# Probes

    A probe is all that the classifier knows of the machine.  It answers
    how long two addresses take when they are accessed in turn, and it
    chooses which members of a group a new address is timed against.  Both
    may depend on everything that happened before, so a probe carries a
    state: an answer can be noisy, scripted or adversarial, and a choice
    can be random.

    A choice is a `Sample`: distinct positions, and as many as were asked
    for or as there are.  The type holds this, so a statement about all
    probes is a statement about all choices of samples.
-/

namespace DramBanks

/-- One timing: two addresses that are accessed in turn. -/
structure Query where
  known : Address
  candidate : Address
  /-- How often both are accessed. -/
  rounds : UInt64
  fenced : Bool
deriving DecidableEq, Repr

/-- A choice of `k` positions out of `n`, or of all `n` when there are no `k`. -/
structure Sample (n k : Nat) where
  indices : List (Fin n)
  nodup : indices.Nodup
  length_eq : indices.length = min k n

namespace Sample

/-- The first positions. -/
def first (n k : Nat) : Sample n k where
  indices := (List.finRange (min k n)).map (Fin.castLE (Nat.min_le_right k n))
  nodup := by
    refine List.pairwise_iff_getElem.mpr ?_
    intro i j hi hj hlt h
    simp only [List.getElem_map, List.getElem_finRange] at h
    have hval := congrArg Fin.val h
    simp only [Fin.val_castLE, Fin.val_cast] at hval
    omega
  length_eq := by simp

end Sample

/-- What answers timings and chooses samples, with a state that both may change. -/
structure Probe (σ : Type) where
  measure : Query → σ → Latency × σ
  choose : (n k : Nat) → σ → Sample n k × σ

namespace Probe

variable {σ : Type}

/-- The probe whose latencies are passed through a function. -/
def mapLatency (p : Probe σ) (f : Latency → Latency) : Probe σ where
  measure := fun q s => let (t, s) := p.measure q s; (f t, s)
  choose := p.choose

/-- The probe that also writes down its timings, the latest first. -/
def recorded (p : Probe σ) : Probe (σ × List Query) where
  measure := fun q s => let (t, s') := p.measure q s.1; (t, s', q :: s.2)
  choose := fun n k s => let (sample, s') := p.choose n k s.1; (sample, s', s.2)

/-- The probe that also checks its timings and remembers the first fault. -/
def guarded (p : Probe σ) (check : Query → Except Fault Unit) : Probe (σ × Except Fault Unit) where
  measure := fun q s =>
    let (t, s') := p.measure q s.1
    let verdict := match s.2 with
      | .ok () => check q
      | .error f => .error f
    (t, s', verdict)
  choose := fun n k s => let (sample, s') := p.choose n k s.1; (sample, s', s.2)

end Probe

end DramBanks
