import DramBanks.Mask.Search
/-!
# Workers side by side

    The workers of a search run at the same time.  Each of them checks the
    candidates of its share one by one and puts the masks that it accepts
    into one list that all workers share.  A check and a report are moves
    of their own, so other workers may move between them.

    Who moves next is not known.  A schedule is a list of worker numbers,
    one for every move, and any list is one: a worker that has ended, or
    that does not exist, leaves everything as it is.  A fault ends the
    worker that met it, and the others go on; whoever waits for the crew
    learns of it once all workers have ended.
-/

namespace DramBanks.Mask

/-- What a worker is about to do. -/
inductive Worker where
  /-- To check the candidates `todo`, after `checked` others. -/
  | looking (todo : List Mask) (checked : Nat)
  /-- To report a mask that it accepted, and to look on. -/
  | reporting (mask : Mask) (todo : List Mask) (checked : Nat)
  /-- Nothing any more, since a check ended in a fault. -/
  | failed (fault : Fault)
deriving DecidableEq, Repr

/-- The workers by their numbers, and the masks that they reported, in the order of the
    reports. -/
structure Crew where
  workers : List Worker
  found : List Mask
deriving DecidableEq, Repr

namespace Worker

/-- One move of a worker, with the masks that it reports on the way. -/
def step (v : Validator) : Worker → Worker × List Mask
  | looking [] checked => (looking [] checked, [])
  | looking (mask :: todo) checked =>
      match v.check mask with
      | .error f => (failed f, [])
      | .ok true => (reporting mask todo (checked + 1), [])
      | .ok false => (looking todo (checked + 1), [])
  | reporting mask todo checked => (looking todo checked, [mask])
  | failed f => (failed f, [])

/-- Whether a worker has no move left. -/
def hasEnded : Worker → Bool
  | looking todo _ => todo.isEmpty
  | reporting _ _ _ => false
  | failed _ => true

/-- How many candidates each worker checked, unless one of them failed. -/
def counts : List Worker → Except Fault (List Nat)
  | [] => .ok []
  | failed f :: _ => .error f
  | looking _ checked :: rest => (counts rest).map (checked :: ·)
  | reporting _ _ checked :: rest => (counts rest).map (checked :: ·)

end Worker

namespace Crew

/-- As many workers as threads, but at least one, with their shares of the candidates. -/
def start (c : Candidates) (threads : Nat) : Crew where
  workers := (List.range (max threads 1)).map fun id =>
    .looking (Candidates.share id (max threads 1) c.toList) 0
  found := []

/-- A move of the worker with the given number. -/
def step (v : Validator) (crew : Crew) (id : Nat) : Crew :=
  match crew.workers[id]? with
  | none => crew
  | some w => ⟨crew.workers.set id (w.step v).1, crew.found ++ (w.step v).2⟩

/-- The moves of a schedule. -/
def run (v : Validator) (crew : Crew) (schedule : List Nat) : Crew :=
  schedule.foldl (step v) crew

/-- All workers have ended. -/
def HasEnded (crew : Crew) : Prop := ∀ w ∈ crew.workers, w.hasEnded = true

instance (crew : Crew) : Decidable crew.HasEnded :=
  inferInstanceAs (Decidable (∀ w ∈ crew.workers, w.hasEnded = true))

/-- What is handed back when the crew has ended: the masks that were reported and how many
    candidates each worker checked, or the fault of a worker. -/
def result (crew : Crew) : Except Fault (List Mask × List Nat) :=
  (Worker.counts crew.workers).map fun counts => (crew.found, counts)

end Crew

end DramBanks.Mask
