import Mathlib
import DramBanks.Proofs.Classifier.Conservation
import DramBanks.Proofs.Classifier.Halving
import DramBanks.Proofs.Classifier.Session
import DramBanks.Proofs.Classifier.Stepping
import DramBanks.Proofs.Settings
/-!
# The minimum block size

    Detection compares the block size with the minimum and halves it after
    that.  So it DESCENDS: every size that it halves is above the minimum,
    but the size it ends with may be one halving below.  How far it can get
    follows from the size it starts with: at least to half of the minimum,
    and not below the minimum at all if the halves of that size meet it.

    The halves of a power of two do.  They are what a session starts with
    and what steps lead to, so a first detection keeps to the minimum.  But
    a detection may leave a number of blocks that is no power of two, and
    the next one then goes below (`detection_undershoots`). -/

namespace DramBanks.Classifier

variable {σ : Type} {b : Bench σ} {c c' k : Classifier σ} {minimum old new n : Nat}

/-! ## Descents -/

/-- The new size is at least what is left of the old one after some halvings, each of a size above
    the minimum. -/
def Descends (minimum old new : Nat) : Prop :=
  ∃ n, old / 2 ^ n ≤ new ∧ ∀ i < n, minimum < old / 2 ^ i

/-- Some number of halvings leads to the minimum. -/
def HalvesTo (minimum old : Nat) : Prop := ∃ j, old / 2 ^ j = minimum

/-- A size that does not get smaller descends by no halving. -/
theorem Descends.of_le (h : old ≤ new) : Descends minimum old new := by
  refine ⟨0, ?_, fun i hi => absurd hi (Nat.not_lt_zero i)⟩
  rwa [Nat.pow_zero, Nat.div_one]

/-- The last halving is of a size above the minimum, so at least half of the minimum is left. -/
theorem Descends.le_double (h : Descends minimum old new) (hold : minimum ≤ 2 * old) :
    minimum ≤ 2 * new := by
  obtain ⟨n, hnew, habove⟩ := h
  cases n with
  | zero =>
      rw [Nat.pow_zero, Nat.div_one] at hnew
      omega
  | succ i =>
      have hlast := habove i (Nat.lt_succ_self i)
      rw [Nat.pow_succ, ← Nat.div_div_eq_div_mul] at hnew
      omega

/-- If the minimum is met, the size is not halved any further. -/
theorem Descends.le (h : Descends minimum old new) (hmeets : HalvesTo minimum old) :
    minimum ≤ new := by
  obtain ⟨n, hnew, habove⟩ := h
  obtain ⟨j, rfl⟩ := hmeets
  refine Nat.le_trans ?_ hnew
  -- the halving that meets the minimum is none of those that start above it
  have hle : n ≤ j := by
    by_contra hgt
    exact Nat.lt_irrefl _ (habove j (Nat.lt_of_not_le hgt))
  exact Nat.div_le_div_left (Nat.pow_le_pow_right Nat.two_pos hle) (Nat.two_pow_pos n)

/-- Powers of two meet each other. -/
theorem halvesTo_of_power (hminimum : ∃ m, minimum = 2 ^ m) (hold : ∃ k, old = 2 ^ k)
    (hle : minimum ≤ old) : HalvesTo minimum old := by
  obtain ⟨m, rfl⟩ := hminimum
  obtain ⟨k, rfl⟩ := hold
  have hmk : m ≤ k := (Nat.pow_le_pow_iff_right Nat.one_lt_two).mp hle
  refine ⟨k - m, ?_⟩
  rw [Nat.pow_div (Nat.sub_le k m) Nat.two_pos, Nat.sub_sub_self hmk]

/-! ## Detection -/

section Minimum

variable (hminimum : 1 ≤ b.settings.minimumBlockSize)
include hminimum

/-- **RUN**: every size that is halved is above the minimum. -/
theorem Halved.above {n : Nat} (h : Halved b n c k) :
    ∀ i < n, b.settings.minimumBlockSize.toNat < c.blockSize.toNat / 2 ^ i := by
  induction h with
  | refl c => exact fun i hi => absurd hi (Nat.not_lt_zero i)
  | @step n c c₁ k hstep _ ih =>
      obtain ⟨hsame, -, -, -⟩ := hstep.spec hminimum
      obtain ⟨-, -, hlarge, -⟩ := hstep
      rintro (_ | i) hi
      · rw [Nat.pow_zero, Nat.div_one]
        exact UInt64.lt_iff_toNat_lt.mp hlarge
      · have hhalf : (c.blockSize / 2).toNat = c.blockSize.toNat / 2 := UInt64.toNat_div _ 2
        have hrest := ih i (Nat.lt_of_succ_lt_succ hi)
        rwa [hsame, hhalf, Nat.div_div_eq_div_mul, Nat.mul_comm, ← Nat.pow_succ] at hrest

/-- The last guess does not make the size smaller. -/
theorem Stops.le (h : Stops b k c') (hpos : 0 < k.blockSize.toNat) :
    k.blockSize.toNat ≤ c'.blockSize.toNat := by
  rcases h.cases hminimum hpos with ⟨hsame, -, -⟩ | ⟨-, length, -, -, hlong, hlength, -⟩
  · rw [hsame]
  · rw [hlength]
    exact Nat.le_mul_of_pos_right _ (Nat.zero_lt_of_lt hlong)

/-- **DESCENT**: detection descends, whatever the probe answers. -/
theorem detectBlockSize_descends (hpos : 0 < c.blockSize.toNat) {size : UInt64}
    (hrun : c.detectBlockSize b = .ok (size, c')) :
    Descends b.settings.minimumBlockSize.toNat c.blockSize.toNat c'.blockSize.toNat := by
  obtain ⟨c₁, hdetect, heq⟩ := exists_of_map_eq_ok hrun
  cases heq
  obtain ⟨n, k, hhalved, hstops⟩ := detectFrom_ok hminimum rfl hdetect
  obtain ⟨hsize, hposk⟩ := hhalved.blockSize hminimum hpos
  exact ⟨n, hsize ▸ hstops.le hminimum hposk, hhalved.above hminimum⟩

end Minimum

/-! ## Sessions -/

/-- What an operation has to keep to: it steps to no size below the minimum, and jumps to none. -/
def Operation.Floored (minimum : UInt64) : Operation → Prop
  | .setBlockSizeInSteps target => minimum ≤ target
  | .setBlockSize _ => False
  | _ => True

/-- The operation detects no size, and steps to powers of two only. -/
def Operation.keepsPower : Operation → Bool
  | .setBlockSizeInSteps target => Word.isPowerOfTwo target
  | op => op.keepsBlockSize

theorem blockSize_stepTo {target : UInt64} {left : Nat} (hrun : c.stepTo b target left = .ok c') :
    c'.blockSize = target := by
  fun_induction stepTo b target left c with
  | case1 c heq =>
      cases hrun
      exact heq
  | case2 => cases hrun
  | case3 c left heq =>
      cases hrun
      exact heq
  | case4 => cases hrun
  | case5 c left hne c₁ hset ih => exact ih hrun

/-- Steps that are carried out lead to the target, or the size is detected. -/
theorem setBlockSizeInSteps_cases {target size : UInt64}
    (hrun : c.setBlockSizeInSteps b target = .ok (size, c')) :
    c'.blockSize = target
      ∨ (c.warn (.cannotStep c.blockSize target)).detectBlockSize b = .ok (size, c') := by
  rw [setBlockSizeInSteps] at hrun
  split at hrun
  · next heq =>
      cases hrun
      exact Or.inl heq.symm
  · split at hrun
    · obtain ⟨c₁, hsteps, heq⟩ := exists_of_map_eq_ok hrun
      cases heq
      exact Or.inl (blockSize_stepTo hsteps)
    · exact Or.inr hrun

section Steps

variable {op : Operation} {answer : Answer} (hrun : c.perform b op = .ok (answer, c'))
include hrun

/-- **STEP**: an operation leaves a size that is not below the minimum, or descends. -/
theorem perform_descends (hop : op.Floored b.settings.minimumBlockSize)
    (hminimum : 1 ≤ b.settings.minimumBlockSize) (hpos : 0 < c.blockSize.toNat) :
    b.settings.minimumBlockSize ≤ c'.blockSize
      ∨ Descends b.settings.minimumBlockSize.toNat c.blockSize.toNat c'.blockSize.toNat := by
  by_cases hkeeps : op.keepsBlockSize = true
  · rw [blockSize_perform hkeeps hrun]
    exact Or.inr (.of_le (Nat.le_refl _))
  · cases op with
    | detectBlockSize =>
        obtain ⟨size, -, hdetect⟩ := exists_of_sizeReply hrun
        exact Or.inr (detectBlockSize_descends hminimum hpos hdetect)
    | setBlockSizeInSteps target =>
        obtain ⟨size, -, hsteps⟩ := exists_of_sizeReply hrun
        rcases setBlockSizeInSteps_cases hsteps with hsame | hdetect
        · exact Or.inl (hsame.symm ▸ hop)
        · exact Or.inr (detectBlockSize_descends (c := c.warn _) hminimum hpos hdetect)
    | setBlockSize size => exact hop.elim
    | _ => exact absurd rfl hkeeps

/-- **STEP**: without detection, the size stays a power of two that is not below the minimum. -/
theorem perform_keepsPower {minimum : UInt64} (hop : op.Floored minimum)
    (hkeeps : op.keepsPower = true)
    (h : (∃ k, c.blockSize.toNat = 2 ^ k) ∧ minimum ≤ c.blockSize) :
    (∃ k, c'.blockSize.toNat = 2 ^ k) ∧ minimum ≤ c'.blockSize := by
  cases op with
  | setBlockSizeInSteps target =>
      have htarget := Word.isPowerOfTwo_iff.mp hkeeps
      obtain ⟨c₁, hsteps, hsame, -⟩ := exists_steps (b := b) (P := fun _ => True) h.1 htarget
        (fun _ _ _ _ _ _ => trivial) trivial
      rw [Classifier.perform, hsteps] at hrun
      cases hrun
      rw [hsame]
      exact ⟨htarget, hop⟩
  | _ =>
      rw [blockSize_perform (by exact hkeeps) hrun]
      exact h

end Steps

section Runs

variable {ops : List Operation} {answers : List Answer}
  (hops : ∀ op ∈ ops, op.Floored b.settings.minimumBlockSize)
  (hrun : performAll b ops c = .ok (answers, c'))
include hops hrun

/-- **RUN**: half of the minimum is left, and a size at all. -/
theorem performAll_keepsHalf (hminimum : 1 ≤ b.settings.minimumBlockSize)
    (h : 0 < c.blockSize.toNat ∧ b.settings.minimumBlockSize.toNat ≤ 2 * c.blockSize.toNat) :
    0 < c'.blockSize.toNat ∧ b.settings.minimumBlockSize.toNat ≤ 2 * c'.blockSize.toNat := by
  have hpos : 1 ≤ b.settings.minimumBlockSize.toNat := UInt64.le_iff_toNat_le.mp hminimum
  refine performAll_keeps_of_mem (P := fun c => 0 < c.blockSize.toNat
    ∧ b.settings.minimumBlockSize.toNat ≤ 2 * c.blockSize.toNat) ?_ hrun h
  intro op hop c c' answer hperform hc
  rcases perform_descends hperform (hops op hop) hminimum hc.1 with hle | hdescends
  · rw [UInt64.le_iff_toNat_le] at hle
    omega
  · have hdouble := hdescends.le_double hc.2
    omega

/-- **RUN**: without detection, the size stays a power of two that is not below the minimum. -/
theorem performAll_keepsPower (hkeeps : ∀ op ∈ ops, op.keepsPower = true)
    (h : (∃ k, c.blockSize.toNat = 2 ^ k) ∧ b.settings.minimumBlockSize ≤ c.blockSize) :
    (∃ k, c'.blockSize.toNat = 2 ^ k) ∧ b.settings.minimumBlockSize ≤ c'.blockSize := by
  refine performAll_keeps_of_mem (P := fun c => (∃ k, c.blockSize.toNat = 2 ^ k)
    ∧ b.settings.minimumBlockSize ≤ c.blockSize) ?_ hrun h
  intro op hop c c' answer hperform hc
  exact perform_keepsPower hperform (hops op hop) (hkeeps op hop) hc

end Runs

/-- **FLOOR**: under valid settings, in a session that neither steps below the minimum nor jumps, at
    least half of the minimum is left of the block size in every state.  From a state whose size
    some number of halvings brings to the minimum, as those of a power of two do, every operation
    leaves a size that is not below it, detection and steps that fall back to it included.  These
    are all states before a detection, as long as the steps are to powers of two. -/
theorem session_floor (hsettings : b.settings.firstViolation = .ok none) {ops : List Operation}
    (hops : ∀ op ∈ ops, op.Floored b.settings.minimumBlockSize) {answers : List Answer} {s : σ}
    (hrun : performAll b ops (empty b s) = .ok (answers, c)) :
    b.settings.minimumBlockSize.toNat ≤ 2 * c.blockSize.toNat
      ∧ (HalvesTo b.settings.minimumBlockSize.toNat c.blockSize.toNat →
          ∀ op answer c', op.Floored b.settings.minimumBlockSize →
            c.perform b op = .ok (answer, c') → b.settings.minimumBlockSize ≤ c'.blockSize)
      ∧ ((∀ op ∈ ops, op.keepsPower = true) →
          HalvesTo b.settings.minimumBlockSize.toNat c.blockSize.toNat) := by
  have hvalid := Settings.firstViolation_eq_none_iff.mp hsettings
  have hpos : 1 ≤ b.settings.minimumBlockSize.toNat :=
    toNat_pos_iff.mpr hvalid.minimumBlockSize_ne_zero
  have hminimum : 1 ≤ b.settings.minimumBlockSize := UInt64.le_iff_toNat_le.mpr hpos
  have hinitial : b.settings.minimumBlockSize.toNat ≤ (empty b s).blockSize.toNat :=
    UInt64.le_iff_toNat_le.mp hvalid.minimum
  obtain ⟨hsize, hhalf⟩ := performAll_keepsHalf hops hrun hminimum ⟨by omega, by omega⟩
  refine ⟨hhalf, ?_, ?_⟩
  · intro hmeets op answer c' hop hperform
    rcases perform_descends hperform hop hminimum hsize with hle | hdescends
    · exact hle
    · exact UInt64.le_iff_toNat_le.mpr (hdescends.le hmeets)
  · intro hkeeps
    obtain ⟨hpower, hle⟩ := performAll_keepsPower hops hrun hkeeps
      ⟨hvalid.exists_initialBlockSize, hvalid.minimum⟩
    exact halvesTo_of_power hvalid.exists_minimumBlockSize hpower (UInt64.le_iff_toNat_le.mp hle)

/-- A bank that changes inside of pages, of which three are classified. -/
def halfPages : Bench Nat :=
  Bench.simulated { pagesPerHugeBlock := 4, endPage := 3, minimumBlockSize := 4096 } [2048]

/-- The three pages, which start in one bank. -/
def pageStarts : Classifier Nat := ⟨[.ofMembers [0, 4096, 8192] 4096], 4096, 3, []⟩

/-- The first page as the start of a block of some size, after a number of timings. -/
def blockStart (size : UInt64) (calls : Nat) : Classifier Nat :=
  ⟨[.ofMembers [0] size], size, calls, []⟩

theorem perform_halfPages :
    (empty halfPages 0).perform halfPages (.addRegion 0 true) = .ok (.misses 1, pageStarts) := by
  cbv

/-- The run of three pages is taken for a block. -/
theorem detectBlockSize_pageStarts :
    pageStarts.detectBlockSize halfPages = .ok (12288, blockStart 12288 3) := by
  have hguess : pageStarts.guessBlockSize = .ok (12288, pageStarts) := by cbv
  have hgrown : simplifyGroups 4096 12288 pageStarts.groups = .ok [.ofMembers [0] 4096] := by
    have hroom : ∀ g ∈ pageStarts.groups, ∀ a ∈ g.members,
        a.toNat + ((12288 / 4096 : UInt64).toNat - 1) * (4096 : UInt64).toNat < 2 ^ 64 :=
      List.forall_mem_singleton.mpr (forall_mem_of_all (by decide))
    rw [simplifyGroups_eq fun g hg a ha _ => successorsIn_eq (hroom g hg a ha)]
    cbv
  have hset : pageStarts.setBlockSize halfPages 12288 = .ok (blockStart 12288 3) := by
    rw [setBlockSize, if_neg (by decide), cutTo, if_neg (by decide), if_pos (by decide), simplify,
      if_neg (by decide), show pageStarts.blockSize = 4096 from rfl, hgrown]
    rfl
  have hstops : Stops halfPages pageStarts (blockStart 12288 3) := by
    refine ⟨12288, pageStarts, hguess, by decide, ?_⟩
    rw [commitGuess, if_neg (by decide), if_neg (by decide), hset]
  rw [detectBlockSize, (Halved.refl pageStarts).detectFrom (by decide) hstops]
  rfl

theorem perform_pageStarts : pageStarts.perform halfPages .detectBlockSize
    = .ok (.size 12288, blockStart 12288 3) := by
  rw [perform, detectBlockSize_pageStarts]
  rfl

theorem session_floor_first_detection :
    ∃ answers c size c', performAll halfPages [.addRegion 0 true] (empty halfPages 0)
        = .ok (answers, c)
      ∧ 4096 ≤ 2 * c.blockSize.toNat ∧ HalvesTo 4096 c.blockSize.toNat
      ∧ c.detectBlockSize halfPages = .ok (size, c') ∧ 4096 ≤ c'.blockSize := by
  have hrun : performAll halfPages [.addRegion 0 true] (empty halfPages 0)
      = .ok ([.misses 1], pageStarts) := by
    rw [performAll, perform_halfPages]
    rfl
  have hops : ∀ op ∈ [Operation.addRegion 0 true], op.Floored halfPages.settings.minimumBlockSize :=
    List.forall_mem_singleton.mpr trivial
  obtain ⟨hhalf, hfloor, hmeets⟩ := session_floor (by decide) hops hrun
  have hpower := hmeets (List.forall_mem_singleton.mpr rfl)
  exact ⟨_, _, _, _, hrun, hhalf, hpower, detectBlockSize_pageStarts,
    hfloor hpower .detectBlockSize _ _ trivial perform_pageStarts⟩

/-- The block of three pages is halved twice, and the second half is below the minimum. -/
theorem detection_undershoots :
    halfPages.settings.firstViolation = .ok none ∧ halfPages.settings.minimumBlockSize = 4096
      ∧ ∃ answers c c',
          performAll halfPages [.addRegion 0 true, .detectBlockSize] (empty halfPages 0)
            = .ok (answers, c)
          ∧ c.detectBlockSize halfPages = .ok (3072, c') ∧ c'.blockSize = 3072 := by
  have hrun : performAll halfPages [.addRegion 0 true, .detectBlockSize] (empty halfPages 0)
      = .ok ([.misses 1, .size 12288], blockStart 12288 3) := by
    simp only [performAll, perform_halfPages, perform_pageStarts, Except.map]
  have hfirst : Halving halfPages (blockStart 12288 3) (blockStart 6144 5) :=
    ⟨blockStart 12288 3, by cbv, by decide, by cbv⟩
  have hsecond : Halving halfPages (blockStart 6144 5) (blockStart 3072 7) :=
    ⟨blockStart 6144 5, by cbv, by decide, by cbv⟩
  have hguess : (blockStart 3072 7).guessBlockSize = .ok (3072, blockStart 3072 7) := by cbv
  have hstops : Stops halfPages (blockStart 3072 7)
      ((blockStart 3072 7).warn (.notStabilized 3072)) :=
    ⟨3072, blockStart 3072 7, hguess, by decide, rfl⟩
  have hdetect : (blockStart 12288 3).detectBlockSize halfPages
      = .ok (3072, (blockStart 3072 7).warn (.notStabilized 3072)) := by
    rw [detectBlockSize,
      (Halved.step hfirst (Halved.step hsecond (.refl _))).detectFrom (by decide) hstops]
    rfl
  exact ⟨by decide, rfl, _, _, _, hrun, hdetect, rfl⟩

end DramBanks.Classifier
