import DramBanks.Classifier.Translation
import DramBanks.Proofs.Classifier.Region
import DramBanks.Proofs.Mask.Recovery
/-!
# From a huge block to its masks

    Without noise, an analysis with a configured block size hands over the
    right grouping from stage to stage.  The classes of the huge block under
    the masks are found at the initial block size (`addRegion_complete`),
    one round of regrouping is enough as there are `2 ^ k` of them
    (`regroup_complete`), steps to the configured size keep them as the
    classes of what is held then, and from these the search derives the
    masks.

    The block size `2 ^ k` below all masks does not occur in the program:
    it is what all block sizes of the analysis divide. -/

namespace DramBanks

open Mask BankFunction

/-! ## No translation -/

namespace Classifier

variable {σ ε τ : Type}

/-- The translation that leaves addresses as they are. -/
def untranslated (addr : Address) (t : τ) : Except ε Address × τ := (.ok addr, t)

theorem translateAll_untranslated (addrs : List Address) (t : τ) :
    translateAll (untranslated : Address → τ → Except ε Address × τ) addrs t = (.ok addrs, t) := by
  induction addrs with
  | nil => rfl
  | cons a rest ih =>
      rw [translateAll]
      simp only [untranslated]
      rw [ih]
      rfl

theorem translateGroups_untranslated (groups : List Group) (t : τ) :
    translateGroups (untranslated : Address → τ → Except ε Address × τ) groups t
      = (.ok (groups.map Group.members), t) := by
  induction groups with
  | nil => rfl
  | cons g rest ih =>
      rw [translateGroups, translateAll_untranslated]
      simp only [ih]
      rfl

theorem physicalAddresses_untranslated (c : Classifier σ) (t : τ) :
    c.physicalAddresses (untranslated : Address → τ → Except ε Address × τ) t
      = (.ok c.addresses, t) :=
  translateGroups_untranslated c.groups t

/-! ## The stages -/

section Stages

variable {b : Bench σ} {ms : List Mask} {n k : Nat} {base size : UInt64} {c : Classifier σ}
  (hb : b.NoiseFree (parities ms)) (hregion : Complete b.settings n base) (hk : k ≤ n)
  (hsize : size.toNat = 2 ^ k) (hind : Independent ms) (hms : ∀ m ∈ ms, Within k n m)

section Holding

variable {step : UInt64} {j : Nat} {groups : List Group} (hj : j ≤ k) (hstep : step.toNat = 2 ^ j)
  (hholds : Holds (parities ms) (cut size step (regionBlocks b.settings size base)) groups)

include hregion hk hsize hj hstep

/-- The cut of the blocks of a complete huge block is a progression. -/
theorem cut_complete :
    cut size step (regionBlocks b.settings size base) = progression base step (2 ^ (n - j)) := by
  have hpos := pos_of_power ⟨k, hsize⟩
  have hdvd : step.toNat ∣ size.toNat := by
    rw [hstep, hsize]
    exact Nat.pow_dvd_pow 2 hj
  rw [← (hregion.aligned_of_le hk hsize).regionBlocks_eq_cut hpos hdvd,
    hregion.regionBlocks_eq (Nat.le_trans hj hk) hstep]

include hholds

/-- The groups of a complete huge block are its classes. -/
theorem isClassification_complete :
    IsClassification ms (progression base step (2 ^ (n - j))) (groups.map Group.members) := by
  rw [← cut_complete hregion hk hsize hj hstep]
  exact hholds.isClassification

include hind hms

/-- A complete huge block has as many groups as there are parities of the masks. -/
theorem length_groups_complete : groups.length = 2 ^ ms.length := by
  have hcoset := isCoset_progression (Nat.le_trans hj hk) hregion.lt_word.le hregion.aligned hstep
  have hwithin : ∀ m ∈ ms, Within j n m := by
    intro m hm i hi
    have hik := hms m hm i hi
    exact ⟨Nat.le_trans hj hik.1, hik.2⟩
  have hgroups := isClassification_complete hregion hk hsize hj hstep hholds
  rw [← hgroups.length_groups hcoset hind hwithin, List.length_map]

end Holding

include hb hregion hk hsize hind hms

/-- The banks of a complete huge block are found at every block size that divides the blocks. -/
theorem addRegion_complete {j : Nat} (hj : j ≤ k) (hc : c.blockSize.toNat = 2 ^ j) (hn : n ≤ 57)
    (hempty : c.groups = []) :
    ∃ c', c.addRegion b true base = .ok (2 ^ ms.length, c') ∧ c'.blockSize = c.blockSize
      ∧ Holds (parities ms) (cut size c.blockSize (regionBlocks b.settings size base))
          c'.groups := by
  have hdvd : c.blockSize.toNat ∣ size.toNat := by
    rw [hc, hsize]
    exact Nat.pow_dvd_pow 2 hj
  have hfew : visitCount b.settings c.blockSize < 2 ^ 60 := by
    rw [hregion.visitCount_eq (Nat.le_trans hj hk) hc]
    exact Nat.pow_lt_pow_right Nat.one_lt_two (by omega)
  have hnil : Holds (parities ms) [] c.groups := hempty ▸ Holds.nil
  obtain ⟨count, c', hadd, hsame, hcount, hholds⟩ :=
    hnil.addRegion hb (hregion.aligned_of_le hk hsize) (pos_of_power ⟨k, hsize⟩) hdvd hfew
  rw [List.append_nil] at hholds
  rw [hempty, List.length_nil, Nat.add_zero,
    length_groups_complete hregion hk hsize hind hms hj hc hholds] at hcount
  exact ⟨c', hcount ▸ hadd, hsame, hholds⟩

/-- One round makes the bank count plausible. -/
theorem regroup_complete {j : Nat} (hj : j ≤ k) (hc : c.blockSize.toNat = 2 ^ j)
    (hholds : Holds (parities ms) (cut size c.blockSize (regionBlocks b.settings size base))
      c.groups)
    (rounds : Nat) (hrounds : rounds ≠ 0) :
    c.regroupUntilPlausible b rounds = (some 1, c.regroup b) := by
  obtain ⟨left, rfl⟩ := Nat.exists_eq_succ_of_ne_zero hrounds
  have hcount := length_groups_complete hregion hk hsize hind hms hj hc (hholds.regroup hb)
  have hfirst : isPlausible (c.regroup b).bankCount = true :=
    isPlausible_iff.mpr ⟨ms.length, hcount⟩
  show regroupRounds b (left + 1) 0 c = _
  rw [regroupRounds]
  simp only [hfirst, if_true]

end Stages

end Classifier

/-! ## The masks of a block -/

namespace BankFunction

section Block

variable {s n : Nat} (hsn : s ≤ n) (hn : n ≤ 64) (hsize : n - s ≤ 57) {base blockSize : UInt64}
  (hbase : 2 ^ n ∣ base.toNat) (hblock : blockSize.toNat = 2 ^ s) {ms : List Mask}
  (hind : Independent ms) (hms : ∀ m ∈ ms, Within s n m) {groups : List (List Address)}
  (hgroups : IsClassification ms (Classifier.progression base blockSize (2 ^ (n - s))) groups)
  {percentage : UInt64} (hp : percentage < 50)

include hsn hn hsize hbase hblock hind hms hgroups hp

/-- The function of a block is complete exactly when the light sums span all sums of the masks.
    It then tells any two words apart that the masks tell apart, observed or not. -/
theorem derive_separates (maxBits threads : Nat) :
    ∃ f, derive groups blockSize percentage maxBits threads = .ok f
      ∧ (f.isComplete = true ↔ ∀ x, Spanned {k | k ∈ ms} x → Spanned (light ms maxBits) x)
      ∧ (f.isComplete = true → ∀ x y, f.bankOf x = f.bankOf y ↔ Alike ms x y) := by
  obtain ⟨masks, hderive, hbasis⟩ :=
    derive_of_block hsn hn hsize hbase hblock hind hms hgroups hp maxBits threads
  have hspan : ∀ m ∈ masks, Spanned {k | k ∈ ms} m :=
    fun m hm => spanned_of_light ((hbasis.span m).mp (Spanned.of_mem hm))
  have hcomplete := isComplete_of_block hsn hn hsize hbase hblock hind hms hgroups
    hbasis.independent hspan
  have hall : (ofMasks groups blockSize masks).isComplete = true →
      ∀ x, Spanned {k | k ∈ ms} x → Spanned {k | k ∈ masks} x := by
    intro h x hx
    exact spanned_of_length_le hbasis.independent hspan (hcomplete.mp h).ge hx
  refine ⟨_, hderive, ⟨?_, ?_⟩, ?_⟩
  · intro h x hx
    exact (hbasis.span x).mp (hall h x hx)
  · intro h
    have hback : ∀ m ∈ ms, Spanned {k | k ∈ masks} m :=
      fun m hm => (hbasis.span m).mpr (h m (Spanned.of_mem hm))
    exact hcomplete.mpr (Nat.le_antisymm (length_le_of_spanned hbasis.independent hspan)
      (length_le_of_spanned hind hback))
  · intro h x y
    have hlt := length_masks_lt hsn hn hsize hbase hblock hind hms hgroups
    have hle : masks.length ≤ 64 := by rw [hcomplete.mp h]; omega
    rw [bankOf_eq_iff (f := ofMasks groups blockSize masks) hle, alike_iff]
    constructor
    · intro hread m hm
      exact Spanned.reads_eq hread (hall h m (Spanned.of_mem hm))
    · intro hread m hm
      exact Spanned.reads_eq hread (hspan m hm)

end Block

end BankFunction

/-! ## All stages -/

namespace Classifier

variable {σ : Type} {b : Bench σ} {ms : List Mask} {n k : Nat} {base size : UInt64}

/-- **END TO END**: without noise, a complete huge block is sorted into one group for every
    parity of the masks.  One round of regrouping is enough, a block size below the masks is
    reached, and the search on the addresses as they are is complete exactly when the light sums
    span all sums of the masks.  The banks of the function are then those of the masks. -/
theorem fixed_size_recovers (hsettings : b.settings.firstViolation = .ok none)
    (hstart : b.settings.startPage = 0)
    (hstop : b.settings.endPage = b.settings.pagesPerHugeBlock)
    (hpages : b.settings.pagesPerHugeBlock.toNat * 4096 = 2 ^ n) (hn : n ≤ 57)
    (hpercentage : b.settings.errorPercentage < 50) (hpower : ∃ j, size.toNat = 2 ^ j)
    (haligned : 2 ^ n ∣ base.toNat) (hroom : base.toNat + 2 ^ n < 2 ^ 64)
    (hk : k ≤ n) (hinitial : b.settings.initialBlockSize.toNat ≤ 2 ^ k) (hle : size.toNat ≤ 2 ^ k)
    (hind : Independent ms) (hms : ∀ m ∈ ms, Within k n m) (hthreshold : 1 ≤ b.threshold)
    (hmeasure : ∀ q s, b.threshold ≤ (b.probe.measure q s).1 ↔ Alike ms q.known q.candidate)
    (s : σ) (threads : Nat) :
    ∃ c₁ c₂ c₃ groups f,
      (empty b s).addRegion b true base = .ok (2 ^ ms.length, c₁)
      ∧ c₁.regroupUntilPlausible b b.settings.maxRegroupRounds.toNat = (some 1, c₂)
      ∧ c₂.setBlockSizeInSteps b size = .ok (size, c₃)
      ∧ c₃.physicalAddresses (untranslated : Address → Unit → Except Fault Address × Unit) ()
          = (.ok groups, ())
      ∧ derive groups size b.settings.errorPercentage b.settings.maxMaskBits.toNat threads = .ok f
      ∧ (f.isComplete = true ↔ ∀ x, Spanned {m | m ∈ ms} x →
          Spanned (light ms b.settings.maxMaskBits.toNat) x)
      ∧ (f.isComplete = true → ∀ x y, f.bankOf x = f.bankOf y ↔ Alike ms x y) := by
  have hvalid := Settings.firstViolation_eq_none_iff.mp hsettings
  have hb : b.NoiseFree (parities ms) :=
    ⟨hthreshold, hvalid.sampleSize_ne_zero,
      fun q s => (hmeasure q s).trans parities_eq_iff.symm⟩
  have hregion : Complete b.settings n base :=
    ⟨hstart, by rw [hstop, hpages], haligned, hroom⟩
  -- the blocks below the masks, which the initial and the final size divide
  obtain ⟨i, hi⟩ := hvalid.exists_initialBlockSize
  obtain ⟨j, hj⟩ := hpower
  have hik : i ≤ k := (Nat.pow_le_pow_iff_right Nat.one_lt_two).mp (hi ▸ hinitial)
  have hjk : j ≤ k := (Nat.pow_le_pow_iff_right Nat.one_lt_two).mp (hj ▸ hle)
  have hblock : (UInt64.ofNat (2 ^ k)).toNat = 2 ^ k := toNat_ofNat_two_pow (by omega)
  have hblocks := hregion.isBlocks hk hblock hms
  have hfound := addRegion_complete hb hregion hk hblock hind hms hik
    (c := empty b s) hi hn rfl
  obtain ⟨c₁, hadd, hsame₁, hholds₁⟩ := hfound
  rw [← hsame₁] at hholds₁
  have hc₁ : c₁.blockSize.toNat = 2 ^ i := hsame₁ ▸ hi
  have hregroup := regroup_complete hb hregion hk hblock hind hms hik hc₁ hholds₁
    b.settings.maxRegroupRounds.toNat
    fun hzero => hvalid.maxRegroupRounds_ne_zero (UInt64.toNat_inj.mp hzero)
  have hholds₂ := hholds₁.regroup hb
  rw [← blockSize_regroup b c₁] at hholds₂
  have hold : (c₁.regroup b).blockSize.toNat ∣ (UInt64.ofNat (2 ^ k)).toNat := by
    rw [blockSize_regroup, hc₁, hblock]
    exact Nat.pow_dvd_pow 2 hik
  have hnew : size.toNat ∣ (UInt64.ofNat (2 ^ k)).toNat := by
    rw [hj, hblock]
    exact Nat.pow_dvd_pow 2 hjk
  obtain ⟨c₃, hsteps, -, hholds₃⟩ := hholds₂.setBlockSizeInSteps hb hblocks hold hnew
  have hwithin : ∀ m ∈ ms, Within j n m := by
    intro m hm l hl
    have hlk := hms m hm l hl
    exact ⟨Nat.le_trans hjk hlk.1, hlk.2⟩
  obtain ⟨f, hderive, hcomplete, hbanks⟩ := derive_separates (Nat.le_trans hjk hk) (by omega)
    (by omega) haligned hj hind hwithin
    (isClassification_complete hregion hk hblock hjk hj hholds₃) hpercentage
    b.settings.maxMaskBits.toNat threads
  exact ⟨c₁, _, c₃, _, f, hadd, hregroup, hsteps, physicalAddresses_untranslated c₃ (), hderive,
    hcomplete, hbanks⟩

/-- A huge block of 2 MB with four banks, brought to blocks of 64 bytes. -/
theorem fixed_size_recovers_four_banks :
    ∃ c₁ c₂ c₃ groups f,
      (empty (Bench.simulated {} [24576, 81920]) 0).addRegion
          (Bench.simulated {} [24576, 81920]) true 6291456 = .ok (2 ^ 2, c₁)
      ∧ c₁.regroupUntilPlausible (Bench.simulated {} [24576, 81920]) 64 = (some 1, c₂)
      ∧ c₂.setBlockSizeInSteps (Bench.simulated {} [24576, 81920]) 64 = .ok (64, c₃)
      ∧ c₃.physicalAddresses (untranslated : Address → Unit → Except Fault Address × Unit) ()
          = (.ok groups, ())
      ∧ derive groups 64 1 7 8 = .ok f
      ∧ (f.isComplete = true ↔ ∀ x, Spanned {m | m ∈ [24576, 81920]} x →
          Spanned (light [24576, 81920] 7) x)
      ∧ (f.isComplete = true →
          ∀ x y, f.bankOf x = f.bankOf y ↔ Alike [24576, 81920] x y) := by
  have hpower : ∃ j, (64 : UInt64).toNat = 2 ^ j := ⟨6, by decide⟩
  have haligned : 2 ^ 21 ∣ (6291456 : UInt64).toNat := by decide
  have hind : Independent [24576, 81920] := by
    rw [independent_cons, ← mem_sums, independent_cons, ← mem_sums]
    exact ⟨by decide, by decide, independent_nil⟩
  have hms : ∀ m ∈ [24576, 81920], Within 13 21 m := by
    rw [List.forall_mem_cons]
    exact ⟨by decide, List.forall_mem_singleton.mpr (by decide)⟩
  have hnoise : (Bench.simulated {} [24576, 81920]).NoiseFree (parities [24576, 81920]) :=
    Bench.noiseFree_simulated (by decide) _
  exact fixed_size_recovers (b := Bench.simulated {} [24576, 81920]) Settings.firstViolation_default
    rfl rfl (by decide) (by decide) (by decide) hpower haligned (by decide) (by decide) (by decide)
    (by decide) hind hms hnoise.threshold_pos
    (fun q s => (hnoise.measure_iff q s).trans parities_eq_iff) 0 8

end Classifier

end DramBanks
