import DramBanks.Proofs.BankNumber
import DramBanks.Proofs.Mask.Balance
import DramBanks.Proofs.Mask.Finds
/-!
# What a complete function says

    Without tolerance, an accepted mask reads the members of a group alike,
    so a group lies in one bank.  A complete function has as many banks as
    there are groups, but that alone does not put different groups into
    different banks: masks that are independent as words may read the
    observed addresses alike (`complete_merges_twins`).  They tell all
    groups apart exactly when every sum of one or more of them reads half
    of the groups as `true` (`separates_iff_halves`). -/

namespace DramBanks.Mask.Validator

variable {v : Validator} {m : Mask} {g : List Address}

/-- Without tolerance, a settled group is read in one way. -/
theorem reads_eq_of_settled (hzero : v.errorPercentage = 0) (h : v.settled m g = true) :
    ∀ a ∈ g, ∀ b ∈ g, reads m a = reads m b := by
  have htolerated : v.tolerated g.length = 0 := by
    rw [tolerated, hzero]
    simp
  rw [settled_iff, htolerated] at h
  rcases h with hnone | hall
  · -- no member is read as `true`
    have hcount := List.countP_eq_zero.mp (Nat.le_zero.mp hnone)
    intro a ha b hb
    rw [Bool.eq_false_of_not_eq_true (hcount a ha), Bool.eq_false_of_not_eq_true (hcount b hb)]
  · -- all members are
    have hcount := List.countP_eq_length.mp (Nat.le_antisymm List.countP_le_length hall)
    intro a ha b hb
    rw [hcount a ha, hcount b hb]

theorem measurable_of_zero (hzero : v.errorPercentage = 0) : v.Measurable :=
  fun _ _ => tolerance_of_zero hzero

/-- Without tolerance, an accepted mask reads the members of a group alike. -/
theorem reads_eq_of_check (hzero : v.errorPercentage = 0) (h : v.check m = .ok true)
    (hg : g ∈ v.groups) : ∀ a ∈ g, ∀ b ∈ g, reads m a = reads m b :=
  reads_eq_of_settled hzero
    (((check_eq_true_iff (measurable_of_zero hzero)).mp h).1 g hg)

end DramBanks.Mask.Validator

namespace DramBanks.BankFunction

open Mask

/-! ## One member for every group -/

/-- A member of the group, if it has one. -/
def representative (g : List Address) : Address := g.headD 0

theorem representative_mem {g : List Address} (h : g ≠ []) : representative g ∈ g := by
  cases g with
  | nil => exact absurd rfl h
  | cons a g => exact List.mem_cons_self ..

section Uniform

variable {groups : List (List Address)} {masks : List Mask} (hne : ∀ g ∈ groups, g ≠ [])
  (hdisjoint : groups.Pairwise fun g h => ∀ a ∈ g, a ∉ h)
  (huniform : ∀ m ∈ masks, ∀ g ∈ groups, ∀ a ∈ g, ∀ b ∈ g, reads m a = reads m b)

include hdisjoint in
/-- Groups that share an address are equal. -/
theorem eq_of_mem_of_mem {g h : List Address} (hg : g ∈ groups) (hh : h ∈ groups) {a : Address}
    (hag : a ∈ g) (hah : a ∈ h) : g = h := by
  by_contra hgh
  have hsymm : Std.Symm fun g h : List Address => ∀ a ∈ g, a ∉ h :=
    ⟨fun _ _ hd a ha ha' => hd a ha' ha⟩
  exact hdisjoint.forall hg hh hgh a hag hah

include hne hdisjoint huniform in
/-- Masks read exactly the members of one group alike when they tell the representatives
    apart. -/
theorem separates_iff_groups :
    (∀ a ∈ groups.flatten, ∀ b ∈ groups.flatten,
        (∀ m ∈ masks, reads m a = reads m b) ↔ ∃ g ∈ groups, a ∈ g ∧ b ∈ g)
      ↔ Separates masks (groups.map representative) := by
  constructor
  · intro h
    rw [Separates, List.pairwise_map]
    refine hdisjoint.imp_of_mem ?_
    intro g k hg hk hgk
    by_contra hsame
    have hg' := representative_mem (hne g hg)
    have hk' := representative_mem (hne k hk)
    have hread : ∀ m ∈ masks, reads m (representative g) = reads m (representative k) := by
      intro m hm
      by_contra hread
      exact hsame ⟨m, hm, hread⟩
    obtain ⟨x, hx, hgx, hkx⟩ := (h _ (List.mem_flatten.mpr ⟨g, hg, hg'⟩) _
      (List.mem_flatten.mpr ⟨k, hk, hk'⟩)).mp hread
    have heq := eq_of_mem_of_mem hdisjoint hx hk hkx hk'
    exact hgk _ hg' (heq ▸ hgx)
  · intro h a ha b hb
    constructor
    · intro hread
      obtain ⟨g, hg, hag⟩ := List.mem_flatten.mp ha
      obtain ⟨k, hk, hbk⟩ := List.mem_flatten.mp hb
      by_cases hgk : g = k
      · exact ⟨g, hg, hag, hgk ▸ hbk⟩
      · -- the masks that tell the representatives apart tell `a` and `b` apart
        have hsymm : Std.Symm fun g k =>
            ∃ m ∈ masks, reads m (representative g) ≠ reads m (representative k) :=
          ⟨by
            rintro _ _ ⟨m, hm, hmne⟩
            exact ⟨m, hm, hmne.symm⟩⟩
        obtain ⟨m, hm, hmne⟩ := (List.pairwise_map.mp h).forall hg hk hgk
        rw [huniform m hm g hg _ (representative_mem (hne g hg)) a hag,
          huniform m hm k hk _ (representative_mem (hne k hk)) b hbk] at hmne
        exact absurd (hread m hm) hmne
    · rintro ⟨g, hg, hag, hbg⟩ m hm
      exact huniform m hm g hg a hag b hbg

include hne huniform in
theorem balanced_iff_halves :
    Balanced masks (groups.map representative) ↔
      ∀ sub : List Mask, sub.Sublist masks → sub ≠ [] →
        2 * (groups.countP fun g => g.all (reads (total sub))) = groups.length := by
  refine forall_congr' fun sub => forall_congr' fun hsub => forall_congr' fun _ => ?_
  have hcount : (groups.map representative).countP (reads (total sub))
      = groups.countP fun g => g.all (reads (total sub)) := by
    rw [List.countP_map]
    refine List.countP_congr ?_
    intro g hg
    have hmem := representative_mem (hne g hg)
    rw [List.all_eq_true]
    constructor
    · intro hread a ha
      have hsum : Spanned {k | k ∈ masks} (total sub) := ⟨sub, fun m hm => hsub.subset hm, rfl⟩
      rw [hsum.reads_eq fun m hm => huniform m hm g hg a ha _ hmem]
      exact hread
    · intro hall
      exact hall _ hmem
  rw [hcount, List.length_map]

include hne hdisjoint huniform in
/-- **HALVES**: as many masks as tell all groups apart do so exactly when every sum of one or
    more of them reads half of the groups as `true`. -/
theorem separates_iff_halves (hlen : groups.length = 2 ^ masks.length) :
    (∀ a ∈ groups.flatten, ∀ b ∈ groups.flatten,
        (∀ m ∈ masks, reads m a = reads m b) ↔ ∃ g ∈ groups, a ∈ g ∧ b ∈ g) ↔
      ∀ sub : List Mask, sub.Sublist masks → sub ≠ [] →
        2 * (groups.countP fun g => g.all (reads (total sub))) = groups.length := by
  rw [separates_iff_groups hne hdisjoint huniform, ← balanced_iff_halves hne huniform]
  exact separates_iff_balanced (by rw [List.length_map, hlen])

end Uniform

/-! ## Complete functions -/

/-- Four groups, two and two of which agree in the low bits of their members. -/
def twins : List (List Address) := [[0, 4, 8], [12], [3, 7, 11], [15]]

/-- A complete function may put two groups into one bank: both masks of the twins read the same
    groups as `true`. -/
theorem complete_merges_twins :
    (∀ g ∈ twins, g ≠ []) ∧ (twins.Pairwise fun g h => ∀ a ∈ g, a ∉ h)
      ∧ ∃ f, derive twins 1 0 1 1 = .ok f ∧ f.isComplete = true
        ∧ 0 ∈ twins.flatten ∧ 12 ∈ twins.flatten
        ∧ f.bankOf 0 = f.bankOf 12 ∧ ¬ ∃ g ∈ twins, 0 ∈ g ∧ 12 ∈ g := by
  have hsearch : search ⟨twins, 0⟩ ⟨skippedBits 1, 1⟩ 1 = .ok [1, 2] := by
    rw [search, Candidates.toList_eq_upTo 65 (by decide +kernel)]
    decide +kernel
  have hbasis : basis [1, 2] = [1, 2] := by
    rw [basis, ascending, List.mergeSort_of_pairwise (by decide)]
    rfl
  have hderive : derive twins 1 0 1 1 = .ok (ofMasks twins 1 [1, 2]) := by
    rw [derive, hsearch, Except.map, hbasis]
  have hdisjoint : twins.Pairwise fun g h => ∀ a ∈ g, a ∉ h := by simp [twins]
  exact ⟨by decide, hdisjoint, _, hderive, by decide, by decide, by decide, by decide, by decide⟩

/-- **SOUNDNESS**: without tolerance, a complete function puts every group into one bank, and
    its banks are the groups exactly when every sum of one or more masks reads half of the
    groups as `true`. -/
theorem complete_sound_iff_halves {groups : List (List Address)} (hne : ∀ g ∈ groups, g ≠ [])
    (hdisjoint : groups.Pairwise fun g h => ∀ a ∈ g, a ∉ h) (blockSize : UInt64) (maxBits threads : Nat) :
    ∃ f, derive groups blockSize 0 maxBits threads = .ok f ∧ (f.isComplete = true →
      (∀ g ∈ groups, ∀ a ∈ g, ∀ b ∈ g, f.bankOf a = f.bankOf b)
        ∧ ((∀ a ∈ groups.flatten, ∀ b ∈ groups.flatten,
              f.bankOf a = f.bankOf b ↔ ∃ g ∈ groups, a ∈ g ∧ b ∈ g) ↔
            ∀ sub : List Mask, sub.Sublist f.masks → sub ≠ [] →
              2 * (groups.countP fun g => g.all (reads (total sub))) = groups.length)) := by
  obtain ⟨masks, hderive, hcheck, -⟩ :=
    derive_eq (Validator.measurable_of_zero (v := ⟨groups, 0⟩) rfl) blockSize maxBits threads
  have huniform : ∀ m ∈ masks, ∀ g ∈ groups, ∀ a ∈ g, ∀ b ∈ g, reads m a = reads m b :=
    fun m hm _ hg => Validator.reads_eq_of_check rfl (hcheck m hm) hg
  refine ⟨_, hderive, ?_⟩
  intro hcomplete
  obtain ⟨hlt, hlen⟩ := isComplete_iff.mp hcomplete
  have hbank : ∀ a b, (ofMasks groups blockSize masks).bankOf a
      = (ofMasks groups blockSize masks).bankOf b ↔ ∀ m ∈ masks, reads m a = reads m b :=
    fun _ _ => bankOf_eq_iff hlt.le
  constructor
  · intro g hg a ha b hb
    exact (hbank a b).mpr fun m hm => huniform m hm g hg a ha b hb
  · simp only [hbank]
    exact separates_iff_halves hne hdisjoint huniform hlen.symm

/-- Four groups that two masks tell apart. -/
theorem complete_sound_iff_halves_four_groups :
    ∃ f, derive [[0, 4], [1], [6, 2], [3, 7]] 1 0 2 1 = .ok f ∧ (f.isComplete = true →
      (∀ g ∈ [[0, 4], [1], [6, 2], [3, 7]], ∀ a ∈ g, ∀ b ∈ g, f.bankOf a = f.bankOf b)
        ∧ ((∀ a ∈ [[0, 4], [1], [6, 2], [3, 7]].flatten,
            ∀ b ∈ [[0, 4], [1], [6, 2], [3, 7]].flatten,
              f.bankOf a = f.bankOf b ↔ ∃ g ∈ [[0, 4], [1], [6, 2], [3, 7]], a ∈ g ∧ b ∈ g) ↔
            ∀ sub : List Mask, sub.Sublist f.masks → sub ≠ [] →
              2 * (List.countP (fun g => g.all (reads (total sub)))
                [[0, 4], [1], [6, 2], [3, 7]]) = 4)) :=
  complete_sound_iff_halves (by decide) (by simp) 1 2 1

end DramBanks.BankFunction
