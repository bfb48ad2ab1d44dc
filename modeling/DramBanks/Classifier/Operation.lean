import DramBanks.Classifier.BlockSize
import DramBanks.Classifier.Regroup
/-!
# Operations on a classifier

    Everything that a caller can do to a classifier, as values: a session
    is a list of operations, and a property of all sessions is a property
    of all lists.
-/

namespace DramBanks.Classifier

variable {σ : Type}

/-- What a caller can ask of a classifier. -/
inductive Operation where
  | classify (addr : Address) (allowNew : Bool)
  | bankIndexFor (addr : Address)
  | addRegion (base : Address) (allowNew : Bool)
  | regroup
  | regroupUntilPlausible (maxRounds : Nat)
  | guessBlockSize
  | detectBlockSize
  | setBlockSizeInSteps (size : UInt64)
  | setBlockSize (size : UInt64)
  | score (index : Nat) (addr : Address)
deriving DecidableEq, Repr

/-- What a classifier answers. -/
inductive Answer where
  | done
  | found (found : Bool)
  | bank (index : Option Nat)
  | misses (count : Nat)
  /-- The rounds after which the bank count was plausible, if it was. -/
  | rounds (count : Option Nat)
  | size (size : UInt64)
  | latency (latency : Latency)
deriving DecidableEq, Repr

/-- An answer with the classifier behind it. -/
abbrev Reply (σ : Type) := Except Fault (Answer × Classifier σ)

/-- The reply with a block size. -/
def sizeReply (r : Except Fault (UInt64 × Classifier σ)) : Reply σ :=
  r.map fun (size, c) => (.size size, c)

def scoreAt (b : Bench σ) (index : Nat) (addr : Address) (c : Classifier σ) : Reply σ :=
  match c.groups[index]? with
  | none => .error .outOfRange
  | some g =>
      let (latency, s) := g.score b addr c.probe
      .ok (.latency latency, { c with probe := s })

def perform (b : Bench σ) (c : Classifier σ) : Operation → Reply σ
  | .classify addr allowNew => let (f, c) := c.classify b allowNew addr; .ok (.found f, c)
  | .bankIndexFor addr => let (i, c) := c.bankIndexFor b addr; .ok (.bank i, c)
  | .addRegion base allowNew =>
      (c.addRegion b allowNew base).map fun (count, c) => (.misses count, c)
  | .regroup => .ok (.done, c.regroup b)
  | .regroupUntilPlausible maxRounds =>
      let (count, c) := c.regroupUntilPlausible b maxRounds
      .ok (.rounds count, c)
  | .guessBlockSize => sizeReply c.guessBlockSize
  | .detectBlockSize => sizeReply (c.detectBlockSize b)
  | .setBlockSizeInSteps size => sizeReply (c.setBlockSizeInSteps b size)
  | .setBlockSize size => (c.setBlockSize b size).map fun c => (.done, c)
  | .score index addr => scoreAt b index addr c

/-- Carries out operations in turn, up to the first fault. -/
def performAll (b : Bench σ) : List Operation → Classifier σ →
    Except Fault (List Answer × Classifier σ)
  | [], c => .ok ([], c)
  | op :: rest, c =>
      match c.perform b op with
      | .error f => .error f
      | .ok (answer, c) => (performAll b rest c).map fun (more, c) => (answer :: more, c)

/-- The state behind operations, if they have one, does not depend on how they are split. -/
theorem performAll_append (b : Bench σ) (xs ys : List Operation) (c : Classifier σ) :
    performAll b (xs ++ ys) c =
      match performAll b xs c with
      | .error f => .error f
      | .ok (answers, c) => (performAll b ys c).map fun (more, c) => (answers ++ more, c) := by
  induction xs generalizing c with
  | nil =>
      simp only [List.nil_append, performAll]
      cases performAll b ys c <;> rfl
  | cons op rest ih =>
      simp only [List.cons_append, performAll]
      cases c.perform b op with
      | error f => rfl
      | ok r =>
          simp only [ih]
          cases performAll b rest r.2 with
          | error f => rfl
          | ok reply =>
              obtain ⟨answers, c'⟩ := reply
              simp only [Except.map]
              cases performAll b ys c' <;> rfl

end DramBanks.Classifier
