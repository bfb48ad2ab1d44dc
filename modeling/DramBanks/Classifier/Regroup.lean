import DramBanks.Classifier
/-!
# Regrouping

    Noise can split a bank into several groups.  A regrouping round takes
    every group apart once, from the front, and classifies its members
    again, against groups that are already regrouped and groups that are
    still to come.  Rounds are repeated until the number of groups is a
    power of two.
-/

namespace DramBanks.Classifier

variable {σ : Type}

/-- Takes the first group apart and classifies its members again. -/
def regroupFirst (b : Bench σ) (c : Classifier σ) : Classifier σ :=
  match c.groups with
  | [] => c
  | g :: rest => (classifyAll b true g.members 0 { c with groups := rest }).2

def regroupTimes (b : Bench σ) : Nat → Classifier σ → Classifier σ
  | 0, c => c
  | n + 1, c => regroupTimes b n (c.regroupFirst b)

/-- Takes every group apart once. -/
def regroup (b : Bench σ) (c : Classifier σ) : Classifier σ :=
  regroupTimes b c.groups.length c

/-- Regroups for at most `left` rounds behind `done` earlier ones.  The answer is the number
    of rounds after which the bank count became plausible, if it did. -/
def regroupRounds (b : Bench σ) : (left : Nat) → (done : Nat) → Classifier σ →
    Option Nat × Classifier σ
  | 0, _, c => (none, c)
  | left + 1, done, c =>
      let c := c.regroup b
      if isPlausible c.bankCount then (some (done + 1), c)
      else regroupRounds b left (done + 1) c

def regroupUntilPlausible (b : Bench σ) (maxRounds : Nat) (c : Classifier σ) :
    Option Nat × Classifier σ :=
  regroupRounds b maxRounds 0 c

def bankCountMessage (banks rounds : Nat) : String :=
  s!"{banks} banks after {rounds} regrouping rounds, expected a power of two"

end DramBanks.Classifier
