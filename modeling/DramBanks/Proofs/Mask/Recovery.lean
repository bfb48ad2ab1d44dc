import DramBanks.Proofs.BankNumber
import DramBanks.Proofs.Mask.Coset
import DramBanks.Proofs.Mask.Finds
import DramBanks.Proofs.Mask.Parts
/-!
# Recovery of the masks

    On the classes of an aligned block, cut by independent masks, the check
    accepts the nonzero words of their span and nothing else (`check_iff`).
    A word outside of the span is read as `true` by half of every group,
    which no tolerance below one half settles; a word of the span is read
    in one way by every group, and as `true` by half of the groups.

    The derivation therefore returns a basis of the part of the span that
    its candidates reach, and the function is complete exactly when this
    part is the whole span. -/

namespace DramBanks.Mask

variable {s n : Nat} {ms : List Mask} {observed : List Address} {m : Mask}

section Groups

variable {groups : List (List Address)} (hobserved : IsCoset s n observed)
  (hgroups : IsClassification ms observed groups)

include hgroups

/-- A word of the span reads the members of a group alike. -/
theorem exists_reads_group (hspan : Spanned {k | k ∈ ms} m) {g : List Address}
    (hg : g ∈ groups) : ∃ r, ∀ a ∈ g, reads m a = r := by
  obtain ⟨b, hb⟩ := List.exists_mem_of_ne_nil g (hgroups.nonempty g hg)
  refine ⟨reads m b, fun a ha => ?_⟩
  exact Spanned.reads_eq (alike_iff.mp (hgroups.alike g hg a ha b hb)) hspan

include hobserved

theorem groups_ne_nil : groups ≠ [] := by
  obtain ⟨a, ha⟩ := List.exists_mem_of_ne_nil _ hobserved.nonempty
  obtain ⟨g, hg, -⟩ := hgroups.exists_group ha
  exact List.ne_nil_of_mem hg

/-- Two words of the span agree on half of the groups, as their sum reads the other half. -/
theorem agreeInHalf_of_spanned (hind : Independent ms) (hms : ∀ k ∈ ms, Within s n k) {k : Mask}
    (hne : m ≠ k) (hm : Spanned {k | k ∈ ms} m) (hk : Spanned {k | k ∈ ms} k) :
    BankFunction.agreeInHalf (BankFunction.dominantParities groups m)
      (BankFunction.dominantParities groups k) = true := by
  have hread : ∀ g ∈ groups, ∀ a ∈ g, reads (m ^^^ k) a
      = ! (BankFunction.dominantParity m g == BankFunction.dominantParity k g) := by
    intro g hg a ha
    obtain ⟨r, hr⟩ := exists_reads_group hgroups hm hg
    obtain ⟨q, hq⟩ := exists_reads_group hgroups hk hg
    rw [xor_reads, hr a ha, hq a ha,
      BankFunction.dominantParity_eq (hgroups.nonempty g hg) hr,
      BankFunction.dominantParity_eq (hgroups.nonempty g hg) hq]
    cases r <;> cases q <;> rfl
  -- the sum of the two words is a word of the span again, and is not zero
  have hxor : m ^^^ k ≠ 0 := by
    intro hzero
    exact hne (UInt64.xor_eq_zero_iff.mp hzero)
  have hhalf := hgroups.half_of_groups hobserved hind hms hxor (hm.xor hk) hread
  have hall := List.length_eq_countP_add_countP (l := groups)
    fun g => BankFunction.dominantParity m g == BankFunction.dominantParity k g
  have hflip : (groups.countP fun g =>
      ! (BankFunction.dominantParity m g == BankFunction.dominantParity k g))
      = groups.countP fun g =>
        ¬ (BankFunction.dominantParity m g == BankFunction.dominantParity k g) := by
    refine List.countP_congr ?_
    intro g _
    simp
  rw [BankFunction.agreeInHalf_iff]
  omega

end Groups

section Verdict

variable {v : Validator} (hobserved : IsCoset s n observed)
  (hgroups : IsClassification ms observed v.groups)
  (hind : Independent ms) (hms : ∀ k ∈ ms, Within s n k)

include hobserved hgroups in
/-- A mask that is accepted has no bits above the block, as nothing observed differs there. -/
theorem within_of_check (hmeasurable : v.Measurable) (hlow : Within s 64 m)
    (h : v.check m = .ok true) : Within s n m := by
  intro i hi
  refine ⟨(hlow i hi).1, ?_⟩
  have hi64 := Bits.lt_of_testBit hi
  obtain ⟨a, ha, b, hb, hne⟩ := Validator.exists_reads_ne_of_check hmeasurable h
    (Bits.bit_ne_zero hi64) (Bits.bit_and_of_testBit hi)
  -- two observed addresses that the bit alone tells apart differ in it
  have hwithin := (hobserved.mem_iff a (hgroups.perm.mem_iff.mp ha) b).mp (hgroups.perm.mem_iff.mp hb)
  refine (hwithin i ?_).2
  have hread : reads (Bits.bit i) (a ^^^ b) = true := by
    rw [reads_xor]
    revert hne
    cases reads (Bits.bit i) a <;> cases reads (Bits.bit i) b <;> simp
  rwa [reads, UInt64.and_comm, ← reads, reads_bit hi64] at hread

include hobserved hgroups hms in
theorem spanned_of_check (hmeasurable : v.Measurable)
    (htolerated : ∀ g ∈ v.groups, 2 * v.tolerated g.length < g.length) (hlow : Within s 64 m)
    (h : v.check m = .ok true) : Spanned {k | k ∈ ms} m := by
  by_contra hout
  obtain ⟨g, hg⟩ := List.exists_mem_of_ne_nil _ (groups_ne_nil hobserved hgroups)
  have hwithin := within_of_check hobserved hgroups hmeasurable hlow h
  have hhalf := hgroups.half_of_group hobserved hms hwithin hout hg
  have hsettled := ((Validator.check_eq_true_iff hmeasurable).mp h).1 g hg
  rw [Validator.not_settled_of_half hhalf (htolerated g hg)] at hsettled
  cases hsettled

include hobserved hgroups hms in
/-- All parts of a word of the span are read both ways: flip one of their bits. -/
theorem irreducible_of_spanned (hspan : Spanned {k | k ∈ ms} m) : v.isIrreducible m = true := by
  rw [Validator.isIrreducible_iff]
  intro d hd _ hpart
  obtain ⟨i, hi64, hbit, hread⟩ := exists_reads hd
  obtain ⟨hlo, hhi⟩ := hspan.within hms i (Validator.part_iff.mp hpart i hbit)
  obtain ⟨a, ha⟩ := List.exists_mem_of_ne_nil _ hobserved.nonempty
  have hflip := hobserved.xor_mem ha (Within.bit hi64 hlo hhi)
  refine ⟨a, hgroups.perm.mem_iff.mpr ha, _, hgroups.perm.mem_iff.mpr hflip, ?_⟩
  rw [reads_xor, hread]
  cases reads d a <;> simp

include hobserved hgroups hind hms in
theorem check_of_spanned (hmeasurable : v.Measurable) (hne : m ≠ 0)
    (hspan : Spanned {k | k ∈ ms} m) : v.check m = .ok true := by
  have hone : ∀ g ∈ v.groups, ∀ a ∈ g, reads m a = v.leansOne m g := by
    intro g hg a ha
    obtain ⟨r, hr⟩ := exists_reads_group hgroups hspan hg
    rw [hr a ha, Validator.leansOne_of_uniform (hgroups.nonempty g hg) hr]
  have hzero : v.groups.countP (v.leansZero m) = v.groups.countP fun g => ¬ v.leansOne m g := by
    refine List.countP_congr ?_
    intro g hg
    obtain ⟨r, hr⟩ := exists_reads_group hgroups hspan hg
    rw [Validator.leansZero_of_uniform (hgroups.nonempty g hg) hr,
      Validator.leansOne_of_uniform (hgroups.nonempty g hg) hr]
    cases r <;> simp
  have hhalf := hgroups.half_of_groups hobserved hind hms hne hspan hone
  have hall := List.length_eq_countP_add_countP (v.leansOne m) (l := v.groups)
  have hpos := List.length_pos_iff.mpr (groups_ne_nil hobserved hgroups)
  refine (Validator.check_eq_true_iff hmeasurable).mpr ⟨?_, ?_, ?_, ?_⟩
  · intro g hg
    obtain ⟨r, hr⟩ := exists_reads_group hgroups hspan hg
    exact Validator.settled_of_uniform hr
  · omega
  · rw [hzero]
    omega
  · exact irreducible_of_spanned hobserved hgroups hms hspan

include hobserved hgroups hind hms in
/-- **CHECK**: the accepted words are the nonzero words of the span. -/
theorem check_iff (hmeasurable : v.Measurable)
    (htolerated : ∀ g ∈ v.groups, 2 * v.tolerated g.length < g.length) (hne : m ≠ 0)
    (hlow : Within s 64 m) : v.check m = .ok true ↔ Spanned {k | k ∈ ms} m :=
  ⟨spanned_of_check hobserved hgroups hms hmeasurable htolerated hlow,
    check_of_spanned hobserved hgroups hind hms hmeasurable hne⟩

end Verdict

end DramBanks.Mask

namespace DramBanks.BankFunction

open Mask

/-- The sums of the masks that have few enough bits to be candidates. -/
def light (ms : List Mask) (maxBits : Nat) : Set Mask :=
  {m | Spanned {k | k ∈ ms} m ∧ Bits.weight m ≤ maxBits}

theorem spanned_of_light {ms : List Mask} {maxBits : Nat} {x : Mask}
    (h : Spanned (light ms maxBits) x) : Spanned {k | k ∈ ms} x :=
  Spanned.trans (fun _ hm => hm.1) h

section Block

variable {s n : Nat} (hsn : s ≤ n) (hn : n ≤ 64) (hsize : n - s ≤ 57) {base blockSize : UInt64}
  (hbase : 2 ^ n ∣ base.toNat) (hblock : blockSize.toNat = 2 ^ s) {ms : List Mask}
  (hind : Independent ms) (hms : ∀ m ∈ ms, Within s n m) {groups : List (List Address)}
  (hgroups : IsClassification ms (Classifier.progression base blockSize (2 ^ (n - s))) groups)
  {percentage : UInt64} (hp : percentage < 50)

include hsn hn hsize hbase hblock hind hms hgroups

theorem length_group_le {g : List Address} (hg : g ∈ groups) : g.length ≤ 2 ^ 57 := by
  have hlen := hgroups.length_group (isCoset_progression hsn hn hbase hblock) hind hms hg
  rw [Classifier.progression, List.length_map, List.length_range] at hlen
  calc g.length ≤ 2 ^ ms.length * g.length := Nat.le_mul_of_pos_left _ (Nat.two_pow_pos _)
    _ = 2 ^ (n - s) := hlen
    _ ≤ 2 ^ 57 := Nat.pow_le_pow_right Nat.two_pos hsize

/-- The groups are too few for a word to have no room for their number. -/
theorem length_masks_lt : ms.length < 64 := by
  have hcoset := isCoset_progression hsn hn hbase hblock
  obtain ⟨g, hg⟩ := List.exists_mem_of_ne_nil _ (groups_ne_nil hcoset hgroups)
  have hlen := hgroups.length_group hcoset hind hms hg
  have hpos := List.length_pos_iff.mpr (hgroups.nonempty g hg)
  rw [Classifier.progression, List.length_map, List.length_range] at hlen
  have hle : 2 ^ ms.length ≤ 2 ^ (n - s) := hlen ▸ Nat.le_mul_of_pos_right _ hpos
  have hexp := (Nat.pow_le_pow_iff_right Nat.one_lt_two).mp hle
  omega

include hp in
theorem measurable_of_block : Validator.Measurable ⟨groups, percentage⟩ := by
  refine Validator.measurable_of_length hp fun g hg => ?_
  have hle := length_group_le hsn hn hsize hbase hblock hind hms hgroups hg
  omega

include hp in
/-- The derived masks are a basis of the light sums. -/
theorem derive_of_block (maxBits threads : Nat) :
    ∃ masks, derive groups blockSize percentage maxBits threads
        = .ok (ofMasks groups blockSize masks)
      ∧ IsBasis masks {x | Spanned (light ms maxBits) x} := by
  have hcoset := isCoset_progression hsn hn hbase hblock
  have hmeasurable := measurable_of_block hsn hn hsize hbase hblock hind hms hgroups hp
  have htolerated : ∀ g ∈ groups, 2 * Validator.tolerated ⟨groups, percentage⟩ g.length
      < g.length :=
    fun g hg => Validator.tolerated_lt hp (List.length_pos_iff.mpr (hgroups.nonempty g hg))
  obtain ⟨masks, hderive, -, hbasis⟩ := derive_eq hmeasurable blockSize maxBits threads
  rw [skippedBits_eq hblock] at hbasis
  refine ⟨masks, hderive, hbasis.independent, fun x => (hbasis.span x).trans ?_⟩
  constructor
  · intro hx
    refine Spanned.mono ?_ hx
    rintro m ⟨hne, hlow, hweight, hcheck⟩
    exact ⟨(check_iff hcoset hgroups hind hms hmeasurable htolerated hne hlow).mp hcheck, hweight⟩
  · intro hx
    refine Spanned.trans ?_ hx
    rintro m ⟨hspan, hweight⟩
    -- zero is light, but it is no candidate and need not be one
    by_cases hne : m = 0
    · rw [hne]
      exact Spanned.zero
    · have hlow : Within s 64 m :=
        fun i hi => ⟨(hspan.within hms i hi).1, Bits.lt_of_testBit hi⟩
      exact Spanned.of_mem ⟨hne, hlow, hweight,
        (check_iff hcoset hgroups hind hms hmeasurable htolerated hne hlow).mpr hspan⟩

omit hsize in
/-- Every two masks of the function agree on half of the groups. -/
theorem orthogonal_of_block {masks : List Mask} (hind' : Independent masks)
    (hspan : ∀ m ∈ masks, Spanned {k | k ∈ ms} m) :
    (ofMasks groups blockSize masks).orthogonal = true := by
  have hcoset := isCoset_progression hsn hn hbase hblock
  show pairwiseHalf (masks.map (dominantParities groups)) = true
  rw [pairwiseHalf_iff, List.pairwise_map]
  refine hind'.nodup.imp_of_mem ?_
  intro m k hm hk hne
  exact agreeInHalf_of_spanned hcoset hgroups hind hms hne (hspan m hm) (hspan k hk)

/-- The function is complete when it has as many masks as cut the block. -/
theorem isComplete_of_block {masks : List Mask} (hind' : Independent masks)
    (hspan : ∀ m ∈ masks, Spanned {k | k ∈ ms} m) :
    (ofMasks groups blockSize masks).isComplete = true ↔ masks.length = ms.length := by
  have hcoset := isCoset_progression hsn hn hbase hblock
  have hlt := length_masks_lt hsn hn hsize hbase hblock hind hms hgroups
  have hle := length_le_of_spanned hind' hspan
  rw [isComplete_iff]
  show masks.length < 64 ∧ 2 ^ masks.length = groups.length ↔ _
  rw [hgroups.length_groups hcoset hind hms, Nat.pow_right_inj (by decide)]
  omega

include hp in
/-- **RECOVERY**: from the classes of an aligned block under independent masks, the derivation
    returns a basis of the light sums of these masks.  The function is orthogonal; it is complete
    exactly when the light sums span all sums, and then its banks are the groups. -/
theorem derive_recovers_masks (maxBits threads : Nat) :
    ∃ f, derive groups blockSize percentage maxBits threads = .ok f
      ∧ IsBasis f.masks {x | Spanned (light ms maxBits) x}
      ∧ f.orthogonal = true
      ∧ (f.isComplete = true ↔
          ∀ x, Spanned {k | k ∈ ms} x → Spanned (light ms maxBits) x)
      ∧ (f.isComplete = true →
          ∀ a ∈ Classifier.progression base blockSize (2 ^ (n - s)),
          ∀ b ∈ Classifier.progression base blockSize (2 ^ (n - s)),
            (∃ g ∈ groups, a ∈ g ∧ b ∈ g) ↔ f.bankOf a = f.bankOf b) := by
  obtain ⟨masks, hderive, hbasis⟩ :=
    derive_of_block hsn hn hsize hbase hblock hind hms hgroups hp maxBits threads
  have hspan : ∀ m ∈ masks, Spanned {k | k ∈ ms} m :=
    fun m hm => spanned_of_light ((hbasis.span m).mp (Spanned.of_mem hm))
  have hcomplete := isComplete_of_block hsn hn hsize hbase hblock hind hms hgroups
    hbasis.independent hspan
  -- with as many masks as cut the block, nothing of the span is left out
  have hall : (ofMasks groups blockSize masks).isComplete = true →
      ∀ x, Spanned {k | k ∈ ms} x → Spanned {k | k ∈ masks} x :=
    fun h x hx => spanned_of_length_le hbasis.independent hspan (hcomplete.mp h).ge hx
  refine ⟨_, hderive, hbasis, ?_, ⟨?_, ?_⟩, ?_⟩
  · exact orthogonal_of_block hsn hn hbase hblock hind hms hgroups hbasis.independent hspan
  · intro h x hx
    exact (hbasis.span x).mp (hall h x hx)
  · intro h
    rw [hcomplete]
    refine Nat.le_antisymm (length_le_of_spanned hbasis.independent hspan)
      (length_le_of_spanned hind ?_)
    exact fun m hm => (hbasis.span m).mpr (h m (Spanned.of_mem hm))
  · intro h a ha b hb
    have hlt := length_masks_lt hsn hn hsize hbase hblock hind hms hgroups
    have hle : masks.length ≤ 64 := by rw [hcomplete.mp h]; omega
    rw [bankOf_eq_iff (f := ofMasks groups blockSize masks) hle]
    show _ ↔ ∀ m ∈ masks, reads m a = reads m b
    constructor
    · rintro ⟨g, hg, hag, hbg⟩ m hm
      exact Spanned.reads_eq (alike_iff.mp (hgroups.alike g hg a hag b hbg)) (hspan m hm)
    · intro hread
      obtain ⟨g, hg, hag⟩ := hgroups.exists_group ha
      refine ⟨g, hg, hag, hgroups.mem_of_alike hg hag hb (alike_iff.mpr ?_)⟩
      exact fun m hm => Spanned.reads_eq hread (hall h m (Spanned.of_mem hm))

end Block

/-- Eight bytes at 8, in blocks of two, whose bits 1 and 2 are summed up. -/
theorem derive_recovers_masks_two_banks :
    ∃ f, derive [[14, 8], [10, 12]] 2 49 2 3 = .ok f
      ∧ IsBasis f.masks {x | Spanned (light [6] 2) x}
      ∧ f.orthogonal = true
      ∧ (f.isComplete = true ↔ ∀ x, Spanned {k | k ∈ [6]} x → Spanned (light [6] 2) x)
      ∧ (f.isComplete = true →
          ∀ a ∈ Classifier.progression 8 2 (2 ^ (3 - 1)),
          ∀ b ∈ Classifier.progression 8 2 (2 ^ (3 - 1)),
            (∃ g ∈ [[14, 8], [10, 12]], a ∈ g ∧ b ∈ g) ↔ f.bankOf a = f.bankOf b) := by
  have hbase : 2 ^ 3 ∣ (8 : UInt64).toNat := by decide
  have hblock : (2 : UInt64).toNat = 2 ^ 1 := by decide
  have hind : Independent [6] := by
    rw [independent_cons, ← mem_sums]
    exact ⟨by decide, independent_nil⟩
  have hwithin : ∀ m ∈ [6], Within 1 3 m := List.forall_mem_singleton.mpr (by decide)
  have hgroups : IsClassification [6] (Classifier.progression 8 2 (2 ^ (3 - 1)))
      [[14, 8], [10, 12]] := by
    refine ⟨by decide, by decide, ?_, ?_⟩
    · simp only [Alike, List.mem_cons, List.not_mem_nil, or_false, forall_eq, forall_eq_or_imp]
      decide
    · simp only [Alike, List.pairwise_pair, List.mem_cons, List.not_mem_nil, or_false, forall_eq,
        forall_eq_or_imp]
      decide
  exact derive_recovers_masks (by decide) (by decide) (by decide) hbase hblock hind hwithin hgroups
    (by decide) 2 3

end DramBanks.BankFunction
