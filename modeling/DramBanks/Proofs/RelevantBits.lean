import DramBanks.Proofs.Mask.Coset
import DramBanks.Proofs.Mask.Rearrangement
/-!
# Relevant bits

    The scan flips one bit after another in the lowest address and asks
    whether the result leads out of its group.  A bit is collected exactly
    when it does (`testBit_relevantBitsFrom`), for any grouping.

    When the groups are the classes of an aligned block, a flip below its
    end stays in the block, and stays in the class when no mask has the bit
    (`together_flipped_iff`).  A flip from its end on leaves the block, and
    what was never observed counts as relevant.  Which address is flipped
    does not matter. -/

namespace DramBanks

/-- The bits that are collected are those of the list that pass the test. -/
theorem Bits.testBit_foldl_bit {p : Nat → Bool} {l : List Nat} (hl : ∀ j ∈ l, j < 64)
    (collected : UInt64) (i : Nat) :
    (l.foldl (fun x j => if p j then x ||| bit j else x) collected).toNat.testBit i
      = (collected.toNat.testBit i || (decide (i ∈ l) && p i)) := by
  induction l generalizing collected with
  | nil => simp
  | cons j rest ih =>
      rw [List.forall_mem_cons] at hl
      rw [List.foldl_cons, ih hl.2]
      cases hp : p j with
      | true =>
          rw [if_pos rfl, UInt64.toNat_or, Nat.testBit_or, testBit_bit hl.1]
          by_cases hij : j = i
          · subst hij
            simp [hp]
          · simp [hij, Ne.symm hij]
      | false =>
          rw [if_neg Bool.false_ne_true]
          by_cases hij : j = i
          · subst hij
            simp [hp]
          · simp [Ne.symm hij]

namespace BankFunction

open Mask

/-- **SCAN**: a bit is relevant when it is not skipped and its flip leads the lowest address out of
    its group. -/
theorem testBit_relevantBitsFrom {groups : List (List Address)} {low : Address} {home : Nat}
    (hlow : lowest? groups = some (low, home)) (skip : Nat) {i : Nat} (hi : i < 64) :
    (relevantBitsFrom skip groups).toNat.testBit i
      = (decide (skip ≤ i) && leaves groups home (low ^^^ Bits.bit i)) := by
  have hmem : ∀ j, j ∈ List.range' skip (64 - skip) ↔ skip ≤ j ∧ j < 64 := by
    intro j
    rw [List.mem_range'_1]
    omega
  simp only [relevantBitsFrom, hlow]
  rw [Bits.testBit_foldl_bit (p := fun j => leaves groups home (low ^^^ Bits.bit j))
    fun j hj => ((hmem j).mp hj).2]
  simp [hmem, hi]

/-- There is a lowest address as soon as there is any. -/
theorem exists_lowest {groups : List (List Address)} {a : Address} (ha : a ∈ groups.flatten) :
    ∃ low home, lowest? groups = some (low, home) ∧ (low, home) ∈ positions groups := by
  have hlowest := isLowest_lowest? groups
  cases hfound : lowest? groups with
  | some low =>
      rw [hfound] at hlowest
      exact ⟨low.1, low.2, rfl, hlowest.1⟩
  | none =>
      rw [hfound] at hlowest
      rw [← map_fst_positions, show positions groups = [] from hlowest] at ha
      cases ha

/-! ## Classes of a complete block -/

section Classes

variable {s n : Nat} {ms : List Mask} {observed : List Address} {groups : List (List Address)}
  (hgroups : IsClassification ms observed groups)

include hgroups

/-- Classes have no member in common. -/
theorem disjoint_classes : groups.Pairwise fun g k => ∀ a ∈ g, a ∉ k :=
  hgroups.apart.imp fun hapart a hg hk => hapart a hg a hk fun _ _ => rfl

/-- Two addresses share a class when both are observed and the masks do not tell them apart. -/
theorem together_iff {a x : Address} (ha : a ∈ observed) :
    (∃ g ∈ groups, a ∈ g ∧ x ∈ g) ↔ x ∈ observed ∧ Alike ms a x := by
  constructor
  · rintro ⟨g, hg, hag, hxg⟩
    exact ⟨hgroups.mem_observed hg hxg, hgroups.alike g hg a hag x hxg⟩
  · rintro ⟨hx, halike⟩
    obtain ⟨g, hg, hag⟩ := hgroups.exists_group ha
    exact ⟨g, hg, hag, hgroups.mem_of_alike hg hag hx halike⟩

/-- **FLIP**: an address with one bit flipped stays in its class when the bit is one of the block
    and of no mask. -/
theorem together_flipped_iff (hobserved : IsCoset s n observed) {a : Address} (ha : a ∈ observed)
    {i : Nat} (hi : i < 64) :
    (∃ g ∈ groups, a ∈ g ∧ a ^^^ Bits.bit i ∈ g) ↔
      (s ≤ i ∧ i < n) ∧ ∀ m ∈ ms, m.toNat.testBit i = false := by
  have hself : a ^^^ (a ^^^ Bits.bit i) = Bits.bit i := by
    rw [← UInt64.xor_assoc, UInt64.xor_self, UInt64.zero_xor]
  have hinside : Within s n (Bits.bit i) ↔ s ≤ i ∧ i < n :=
    ⟨fun h => h i (by rw [Bits.testBit_bit hi, decide_eq_true rfl]),
      fun h => Within.bit hi h.1 h.2⟩
  have halike : Alike ms a (a ^^^ Bits.bit i) ↔ ∀ m ∈ ms, m.toNat.testBit i = false := by
    rw [alike_iff]
    refine forall₂_congr fun m _ => ?_
    rw [reads_xor, reads_bit hi]
    cases reads m a <;> cases m.toNat.testBit i <;> simp
  rw [together_iff hgroups ha, hobserved.mem_iff a ha, hself, hinside, halike]

end Classes

/-- **RELEVANT BITS** of the classes of a complete aligned block: the bits from the end of the block
    on, and those of the masks. -/
theorem relevantBits_of_block {s n : Nat} (hsn : s ≤ n) (hn : n ≤ 64) {base blockSize : UInt64}
    (hbase : 2 ^ n ∣ base.toNat) (hblock : blockSize.toNat = 2 ^ s) {ms : List Mask}
    {groups : List (List Address)}
    (hgroups : IsClassification ms (Classifier.progression base blockSize (2 ^ (n - s))) groups)
    {i : Nat} (hi : i < 64) :
    (relevantBitsFrom (skippedBits blockSize) groups).toNat.testBit i = true ↔
      n ≤ i ∨ s ≤ i ∧ i < n ∧ ∃ m ∈ ms, m.toNat.testBit i = true := by
  have hobserved := isCoset_progression hsn hn hbase hblock
  obtain ⟨a, ha⟩ := List.exists_mem_of_ne_nil _ hobserved.nonempty
  obtain ⟨low, home, hlow, hhome⟩ := exists_lowest (hgroups.perm.mem_iff.mpr ha)
  have hmem : low ∈ groups.flatten := map_fst_positions groups ▸ List.mem_map_of_mem hhome
  have hstays := together_flipped_iff hgroups hobserved (hgroups.perm.mem_iff.mp hmem) hi
  rw [testBit_relevantBitsFrom hlow _ hi, skippedBits_eq hblock, Bool.and_eq_true,
    decide_eq_true_eq, leaves_iff (disjoint_classes hgroups) hhome, hstays]
  constructor
  · rintro ⟨hs, hleft⟩
    rcases Nat.lt_or_ge i n with hlt | hge
    · by_contra hnone
      push Not at hnone
      exact hleft ⟨⟨hs, hlt⟩, fun m hm => by simpa using hnone.2 hs hlt m hm⟩
    · exact Or.inl hge
  · rintro (hge | ⟨hs, -, m, hm, hbit⟩)
    · exact ⟨Nat.le_trans hsn hge, fun hstay => Nat.not_lt.mpr hge hstay.1.2⟩
    · refine ⟨hs, fun hstay => ?_⟩
      rw [hstay.2 m hm] at hbit
      cases hbit

/-- Sixteen bytes at 16, in blocks of two, whose bits 1 and 2 are summed up; bit 3 is of no
    mask. -/
theorem relevantBits_of_block_two_banks :
    (relevantBitsFrom (skippedBits 2) [[30, 16, 22, 24], [18, 20, 26, 28]]).toNat.testBit 2 = true
      ∧ (relevantBitsFrom (skippedBits 2) [[30, 16, 22, 24], [18, 20, 26, 28]]).toNat.testBit 3
        = false
      ∧ (relevantBitsFrom (skippedBits 2) [[30, 16, 22, 24], [18, 20, 26, 28]]).toNat.testBit 4
        = true := by
  have hbase : 2 ^ 4 ∣ (16 : UInt64).toNat := by decide
  have hblock : (2 : UInt64).toNat = 2 ^ 1 := by decide
  have hgroups : IsClassification [6] (Classifier.progression 16 2 (2 ^ (4 - 1)))
      [[30, 16, 22, 24], [18, 20, 26, 28]] := by
    refine ⟨by decide, by decide, ?_, ?_⟩
    · simp only [Alike, List.mem_cons, List.not_mem_nil, or_false, forall_eq, forall_eq_or_imp]
      decide
    · simp only [Alike, List.pairwise_pair, List.mem_cons, List.not_mem_nil, or_false, forall_eq,
        forall_eq_or_imp]
      decide
  have hbits := fun i hi =>
    relevantBits_of_block (i := i) (by decide) (by decide) hbase hblock hgroups hi
  refine ⟨(hbits 2 (by decide)).mpr (by decide), ?_, (hbits 4 (by decide)).mpr (by decide)⟩
  rw [← Bool.not_eq_true, hbits 3 (by decide)]
  decide

end BankFunction

end DramBanks
