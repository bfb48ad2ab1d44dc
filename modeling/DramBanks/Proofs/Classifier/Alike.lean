import DramBanks.Classifier.Operation
/-!
# Benches that find the same groups

    A classifier looks at its bench in one place only, the search for the
    group that an address conflicts with; apart from that it reads the
    settings.  Two benches are ALIKE when they agree in both.  Everything
    that a caller can ask of a classifier is then the same with either
    bench (`Bench.Alike.perform`), but for a score, which is an answer of
    the probe itself. -/

namespace DramBanks

/-- Two benches with the same settings that find the same group for every address, in every state
    of a classifier. -/
structure Bench.Alike {σ : Type} (b b' : Bench σ) : Prop where
  settings : b'.settings = b.settings
  bankIndexFor : ∀ (c : Classifier σ) addr, c.bankIndexFor b' addr = c.bankIndexFor b addr

namespace Bench.Alike

variable {σ : Type} {b b' : Bench σ} (h : b.Alike b')

include h

/-! ## Adding and regrouping -/

theorem classify (allowNew : Bool) (c : Classifier σ) (addr : Address) :
    c.classify b' allowNew addr = c.classify b allowNew addr := by
  rw [Classifier.classify, h.bankIndexFor, Classifier.classify]

theorem classifyAll (allowNew : Bool) (addrs : List Address) (misses : Nat) (c : Classifier σ) :
    Classifier.classifyAll b' allowNew addrs misses c
      = Classifier.classifyAll b allowNew addrs misses c := by
  induction addrs generalizing misses c with
  | nil => rfl
  | cons addr rest ih => simp only [Classifier.classifyAll, h.classify, ih]

theorem addRegion (allowNew : Bool) (c : Classifier σ) (base : Address) :
    c.addRegion b' allowNew base = c.addRegion b allowNew base := by
  simp only [Classifier.addRegion, h.settings, h.classifyAll]

theorem regroupFirst (c : Classifier σ) : c.regroupFirst b' = c.regroupFirst b := by
  simp only [Classifier.regroupFirst, h.classifyAll]

theorem regroup (c : Classifier σ) : c.regroup b' = c.regroup b := by
  have htimes : ∀ n c, Classifier.regroupTimes b' n c = Classifier.regroupTimes b n c := by
    intro n
    induction n with
    | zero => exact fun _ => rfl
    | succ n ih =>
        intro c
        rw [Classifier.regroupTimes, Classifier.regroupTimes, h.regroupFirst, ih]
  exact htimes _ c

theorem regroupRounds (left done : Nat) (c : Classifier σ) :
    Classifier.regroupRounds b' left done c = Classifier.regroupRounds b left done c := by
  induction left generalizing done c with
  | zero => rfl
  | succ left ih => simp only [Classifier.regroupRounds, h.regroup, ih]

/-! ## Block sizes -/

theorem setBlockSize (size : UInt64) (c : Classifier σ) :
    c.setBlockSize b' size = c.setBlockSize b size := by
  simp only [Classifier.setBlockSize, Classifier.cutTo, Classifier.expand, h.classifyAll]

theorem commitGuess (guess : UInt64) (c : Classifier σ) :
    c.commitGuess b' guess = c.commitGuess b guess := by
  simp only [Classifier.commitGuess, h.setBlockSize]

theorem detectFrom (size : UInt64) (c : Classifier σ) :
    c.detectFrom b' size = c.detectFrom b size := by
  -- the cases are those of a detection: a fault, an endless halving, a fault in a switch,
  -- another halving, and a guess that is taken
  fun_induction Classifier.detectFrom b size c with
  | case1 size c f hguess => rw [Classifier.detectFrom, hguess]
  | case2 size c guess c₁ hguess hcond hhalf =>
      rw [Classifier.detectFrom]
      simp only [hguess, h.settings, dif_pos hcond, if_pos hhalf]
  | case3 size c guess c₁ hguess hcond hhalf f hset =>
      rw [Classifier.detectFrom]
      simp only [hguess, h.settings, dif_pos hcond, if_neg hhalf, h.setBlockSize, hset]
  | case4 size c guess c₁ hguess hcond hhalf c₂ hset ih =>
      rw [Classifier.detectFrom]
      simp only [hguess, h.settings, dif_pos hcond, if_neg hhalf, h.setBlockSize, hset, ih]
  | case5 size c guess c₁ hguess hcond =>
      rw [Classifier.detectFrom]
      simp only [hguess, h.settings, dif_neg hcond, h.commitGuess]

theorem detectBlockSize (c : Classifier σ) : c.detectBlockSize b' = c.detectBlockSize b := by
  rw [Classifier.detectBlockSize, h.detectFrom, Classifier.detectBlockSize]

theorem stepTo (target : UInt64) (left : Nat) (c : Classifier σ) :
    c.stepTo b' target left = c.stepTo b target left := by
  induction left generalizing c with
  | zero => rfl
  | succ left ih => simp only [Classifier.stepTo, h.setBlockSize, ih]

theorem setBlockSizeInSteps (target : UInt64) (c : Classifier σ) :
    c.setBlockSizeInSteps b' target = c.setBlockSizeInSteps b target := by
  simp only [Classifier.setBlockSizeInSteps, h.stepTo, h.detectBlockSize]

/-! ## Operations -/

/-- **ALIKE**: whatever is asked but a score, the replies are equal. -/
theorem perform {op : Classifier.Operation} (hop : ∀ index addr, op ≠ .score index addr)
    (c : Classifier σ) : c.perform b' op = c.perform b op := by
  cases op with
  | classify addr allowNew => simp only [Classifier.perform, h.classify]
  | bankIndexFor addr => simp only [Classifier.perform, h.bankIndexFor]
  | addRegion base allowNew => simp only [Classifier.perform, h.addRegion]
  | regroup => simp only [Classifier.perform, h.regroup]
  | regroupUntilPlausible maxRounds =>
      simp only [Classifier.perform, Classifier.regroupUntilPlausible, h.regroupRounds]
  | guessBlockSize => rfl
  | detectBlockSize => simp only [Classifier.perform, h.detectBlockSize]
  | setBlockSizeInSteps size => simp only [Classifier.perform, h.setBlockSizeInSteps]
  | setBlockSize size => simp only [Classifier.perform, h.setBlockSize]
  | score index addr => exact absurd rfl (hop index addr)

end Bench.Alike

end DramBanks
