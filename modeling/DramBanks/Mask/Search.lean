import DramBanks.Mask.Candidates
import DramBanks.Mask.Validity
/-!
# The mask search

    Several workers share an enumeration of candidates: worker `i` out of
    `n` takes every `n`-th candidate from position `i` on and keeps those
    that the validator accepts.  The masks that a search finds are the
    finds of its workers.
-/

namespace DramBanks.Mask

/-- The accepted masks of a list in its order, behind those in `found`, latest first. -/
def Validator.accepted (v : Validator) : List Mask → (found : List Mask) →
    Except Fault (List Mask)
  | [], found => .ok found.reverse
  | mask :: rest, found =>
      match v.check mask with
      | .error f => .error f
      | .ok true => v.accepted rest (mask :: found)
      | .ok false => v.accepted rest found

/-- What a worker reports: how many candidates it checked, and which it kept. -/
structure Finds where
  checked : Nat
  masks : List Mask
deriving DecidableEq, Repr

/-- Worker `id` of `workers` over a list of candidates. -/
def work (v : Validator) (masks : List Mask) (id workers : Nat) : Except Fault Finds :=
  if workers = 0 then .error .zeroStep
  else
    let part := Candidates.share id workers masks
    (v.accepted part []).map fun found => ⟨part.length, found⟩

/-- The finds of the workers from `id` on, `left` in number. -/
def workAll (v : Validator) (masks : List Mask) (workers : Nat) :
    (left : Nat) → (id : Nat) → Except Fault (List Finds)
  | 0, _ => .ok []
  | left + 1, id =>
      match work v masks id workers, workAll v masks workers left (id + 1) with
      | .ok finds, .ok more => .ok (finds :: more)
      | .error f, _ => .error f
      | _, .error f => .error f

/-- All masks that `threads` workers find, at least one worker being at work. -/
def search (v : Validator) (c : Candidates) (threads : Nat) : Except Fault (List Mask) :=
  (workAll v c.toList (max threads 1) (max threads 1) 0).map fun finds =>
    finds.flatMap Finds.masks

end DramBanks.Mask
