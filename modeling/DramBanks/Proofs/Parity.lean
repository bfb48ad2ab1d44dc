import DramBanks.Bits
import Mathlib.Data.Nat.Bitwise
import Mathlib.Tactic.IntervalCases
/-!
# Parities as linear functionals

    Words are vectors of bits and XOR adds them.  The parity of a word is
    additive, so a mask reads a linear functional off an address, and an
    address reads one off a mask.  `Mask.reads` is this functional with a
    Boolean value; every word but zero is read as `true` somewhere
    (`exists_reads`), so no information is lost in reading.
-/

namespace DramBanks.Bits

/-! ## Bits of a word -/

/-- Words with the same bits are equal. -/
theorem eq_of_testBit {x y : UInt64}
    (h : ∀ i, x.toNat.testBit i = y.toNat.testBit i) : x = y :=
  UInt64.toNat_inj.mp (Nat.eq_of_testBit_eq h)

/-- There are 64 bits. -/
theorem lt_of_testBit {x : UInt64} {i : Nat} (h : x.toNat.testBit i = true) : i < 64 := by
  by_contra hge
  have hlt : x.toNat < 2 ^ i :=
    Nat.lt_of_lt_of_le (UInt64.toNat_lt x) (Nat.pow_le_pow_right Nat.two_pos (by omega))
  rw [Nat.testBit_lt_two_pow hlt] at h
  cases h

theorem toNat_bit {i : Nat} (hi : i < 64) : (bit i).toNat = 2 ^ i := by
  have hofNat : (UInt64.ofNat i).toNat = i := by
    rw [UInt64.toNat_ofNat']
    omega
  rw [bit, UInt64.toNat_shiftLeft, hofNat, Nat.mod_eq_of_lt hi]
  change 1 <<< i % 2 ^ 64 = 2 ^ i
  rw [Nat.one_shiftLeft]
  exact Nat.mod_eq_of_lt (Nat.pow_lt_pow_right Nat.one_lt_two hi)

/-- Only bit `i` of `bit i` is set. -/
theorem testBit_bit {i : Nat} (hi : i < 64) (j : Nat) :
    (bit i).toNat.testBit j = decide (i = j) := by
  rw [toNat_bit hi, Nat.testBit_two_pow]

theorem bit_ne_zero {i : Nat} (hi : i < 64) : bit i ≠ 0 := by
  intro hzero
  have hnat := toNat_bit hi
  rw [hzero] at hnat
  exact absurd hnat (Nat.ne_of_lt (Nat.two_pow_pos i))

/-- A word that is not zero has a bit. -/
theorem exists_testBit {x : UInt64} (h : x ≠ 0) : ∃ i, x.toNat.testBit i = true := by
  refine Nat.exists_testBit_of_ne_zero ?_
  intro hzero
  exact h (UInt64.toNat_inj.mp hzero)

theorem and_xor (a b c : UInt64) : a &&& (b ^^^ c) = (a &&& b) ^^^ (a &&& c) := by
  refine UInt64.toNat_inj.mp ?_
  simp only [UInt64.toNat_and, UInt64.toNat_xor, Nat.and_xor_distrib_left]

theorem xor_and (a b c : UInt64) : (a ^^^ b) &&& c = (a &&& c) ^^^ (b &&& c) := by
  refine UInt64.toNat_inj.mp ?_
  simp only [UInt64.toNat_and, UInt64.toNat_xor, Nat.and_xor_distrib_right]

/-- A bit of a word is the part of it that the word has in common with it. -/
theorem bit_and_of_testBit {m : UInt64} {i : Nat} (h : m.toNat.testBit i = true) :
    bit i &&& m = bit i := by
  refine eq_of_testBit ?_
  intro j
  rw [UInt64.toNat_and, Nat.testBit_and, testBit_bit (lt_of_testBit h)]
  by_cases hij : i = j
  · subst hij
    simp [h]
  · simp [hij]

/-- A bit that a word lacks has nothing in common with it. -/
theorem bit_and_of_not_testBit {m : UInt64} {i : Nat} (hi : i < 64)
    (h : m.toNat.testBit i = false) : bit i &&& m = 0 := by
  refine eq_of_testBit ?_
  intro j
  rw [UInt64.toNat_and, Nat.testBit_and, testBit_bit hi]
  by_cases hij : i = j
  · subst hij
    simp [h]
  · simp [hij]

/-! ## Parity -/

@[simp] theorem parity_zero : parity 0 = 0 := by decide

/-- One fold of a word onto itself is additive. -/
theorem fold_xor (x y k : UInt64) :
    (x ^^^ y) ^^^ ((x ^^^ y) >>> k) = (x ^^^ (x >>> k)) ^^^ (y ^^^ (y >>> k)) := by
  rw [UInt64.shiftRight_xor]
  ac_rfl

/-- Parity is additive. -/
theorem parity_xor (x y : UInt64) : parity (x ^^^ y) = parity x ^^^ parity y := by
  simp only [parity, fold_xor, xor_and]

/-- A parity is 0 or 1. -/
theorem parity_eq_zero_or_one (x : UInt64) : parity x = 0 ∨ parity x = 1 := by
  have hle : ∀ y : UInt64, y &&& 1 = 0 ∨ y &&& 1 = 1 := by
    intro y
    have hmod : (y &&& 1).toNat = y.toNat % 2 := by
      rw [UInt64.toNat_and]
      exact Nat.and_one_is_mod _
    rcases Nat.mod_two_eq_zero_or_one y.toNat with h | h
    · exact Or.inl (UInt64.toNat_inj.mp (hmod.trans h))
    · exact Or.inr (UInt64.toNat_inj.mp (hmod.trans h))
  exact hle _

/-- A single bit has parity 1. -/
theorem parity_bit {i : Nat} (hi : i < 64) : parity (bit i) = 1 := by
  have h : ∀ j : Fin 64, parity (bit j) = 1 := by decide
  exact h ⟨i, hi⟩

end DramBanks.Bits

namespace DramBanks.Mask

/-! ## Windows -/

/-- All bits of the mask lie at positions from `lo` on and below `hi`. -/
def Within (lo hi : Nat) (m : Mask) : Prop :=
  ∀ i, m.toNat.testBit i = true → lo ≤ i ∧ i < hi

instance (lo hi : Nat) (m : Mask) : Decidable (Within lo hi m) :=
  decidable_of_iff (∀ i : Fin 64, m.toNat.testBit i = true → lo ≤ i ∧ i < hi)
    ⟨fun h i hi => h ⟨i, Bits.lt_of_testBit hi⟩ hi, fun h i => h i⟩

namespace Within

variable {lo hi : Nat} {m n : Mask}

theorem zero : Within lo hi 0 := by
  intro i h
  simp at h

/-- Every mask keeps to the whole word. -/
theorem whole (m : Mask) : Within 0 64 m := fun i h => ⟨Nat.zero_le i, Bits.lt_of_testBit h⟩

theorem xor (hm : Within lo hi m) (hn : Within lo hi n) : Within lo hi (m ^^^ n) := by
  intro i h
  rw [UInt64.toNat_xor, Nat.testBit_xor] at h
  cases hmi : m.toNat.testBit i with
  | true => exact hm i hmi
  | false =>
      rw [hmi, Bool.false_xor] at h
      exact hn i h

theorem bit {i : Nat} (hi64 : i < 64) (hlo : lo ≤ i) (hhi : i < hi) :
    Within lo hi (Bits.bit i) := by
  intro j h
  rw [Bits.testBit_bit hi64, decide_eq_true_eq] at h
  omega

/-- A window holds the multiples of its lowest bit below its end. -/
theorem iff_mod_lt : Within lo hi m ↔ m.toNat % 2 ^ lo = 0 ∧ m.toNat < 2 ^ hi := by
  constructor
  · intro h
    refine ⟨Nat.eq_of_testBit_eq ?_, Nat.lt_pow_two_of_testBit _ ?_⟩
    · intro i
      rw [Nat.testBit_mod_two_pow, Nat.zero_testBit]
      cases hmi : m.toNat.testBit i with
      | false => exact Bool.and_false _
      | true =>
          have hle := (h i hmi).1
          rw [decide_eq_false (by omega), Bool.false_and]
    · intro i hle
      by_contra hmi
      have hlt := (h i (by simpa using hmi)).2
      omega
  · rintro ⟨hmod, hlt⟩ i hmi
    constructor
    · by_contra hlow
      have hbit : (m.toNat % 2 ^ lo).testBit i = true := by
        rw [Nat.testBit_mod_two_pow, hmi, decide_eq_true (by omega)]
        rfl
      rw [hmod, Nat.zero_testBit] at hbit
      cases hbit
    · refine (Nat.pow_lt_pow_iff_right Nat.one_lt_two).mp ?_
      exact Nat.lt_of_le_of_lt (Nat.ge_two_pow_of_testBit hmi) hlt

/-- The low bits of a mask are clear exactly when it is a multiple. -/
theorem iff_mod : Within lo 64 m ↔ m.toNat % 2 ^ lo = 0 :=
  iff_mod_lt.trans (and_iff_left (UInt64.toNat_lt m))

/-- A mask keeps to a window up to the end of the word when the bits in front of it are clear. -/
theorem iff_low_clear : Within lo 64 m ↔ ∀ i < lo, m.toNat.testBit i = false := by
  constructor
  · intro h i hi
    by_contra hbit
    have hle := (h i (by simpa using hbit)).1
    omega
  · intro h i hbit
    refine ⟨?_, Bits.lt_of_testBit hbit⟩
    by_contra hlow
    rw [h i (by omega)] at hbit
    cases hbit

end Within

/-! ## Reading an address -/

/-- Whether the address has parity 1 under the mask. -/
def reads (m : Mask) (a : Address) : Bool := Bits.parity (a &&& m) == 1

/-- The parity is the number of what is read. -/
theorem parity_eq_reads (m : Mask) (a : Address) :
    Bits.parity (a &&& m) = if reads m a then 1 else 0 := by
  rcases Bits.parity_eq_zero_or_one (a &&& m) with h | h
  · simp [reads, h]
  · simp [reads, h]

/-- Parities agree exactly when what is read agrees. -/
theorem parity_eq_iff {m n : Mask} {a b : Address} :
    Bits.parity (a &&& m) = Bits.parity (b &&& n) ↔ reads m a = reads n b := by
  rw [parity_eq_reads, parity_eq_reads]
  cases reads m a <;> cases reads n b <;> simp

@[simp] theorem zero_reads (a : Address) : reads 0 a = false := by
  simp [reads]

theorem reads_xor (m : Mask) (a b : Address) :
    reads m (a ^^^ b) = (reads m a ^^ reads m b) := by
  rw [reads, reads, reads, Bits.xor_and, Bits.parity_xor]
  rcases Bits.parity_eq_zero_or_one (a &&& m) with ha | ha <;>
    rcases Bits.parity_eq_zero_or_one (b &&& m) with hb | hb <;> rw [ha, hb] <;> rfl

theorem xor_reads (m n : Mask) (a : Address) :
    reads (m ^^^ n) a = (reads m a ^^ reads n a) := by
  rw [reads, reads, reads, Bits.and_xor, Bits.parity_xor]
  rcases Bits.parity_eq_zero_or_one (a &&& m) with hm | hm <;>
    rcases Bits.parity_eq_zero_or_one (a &&& n) with hn | hn <;> rw [hm, hn] <;> rfl

/-- A mask reads the bits that it has. -/
theorem reads_bit {m : Mask} {i : Nat} (hi : i < 64) :
    reads m (Bits.bit i) = m.toNat.testBit i := by
  cases h : m.toNat.testBit i with
  | true => rw [reads, Bits.bit_and_of_testBit h, Bits.parity_bit hi]; rfl
  | false => rw [reads, Bits.bit_and_of_not_testBit hi h]; rfl

/-- A mask does not see the bits in front of its window. -/
theorem reads_of_low {lo hi : Nat} {m : Mask} {d : Address} (hm : Within lo hi m)
    (hd : d.toNat < 2 ^ lo) : reads m d = false := by
  have hand : d &&& m = 0 := by
    refine Bits.eq_of_testBit ?_
    intro i
    rw [UInt64.toNat_and, Nat.testBit_and, UInt64.toNat_zero, Nat.zero_testBit]
    cases hmi : m.toNat.testBit i with
    | false => exact Bool.and_false _
    | true =>
        have hle : 2 ^ lo ≤ 2 ^ i := Nat.pow_le_pow_right Nat.two_pos (hm i hmi).1
        rw [Nat.testBit_lt_two_pow (Nat.lt_of_lt_of_le hd hle), Bool.false_and]
  rw [reads, hand, Bits.parity_zero]
  rfl

/-- A mask that is not zero reads one of its bits. -/
theorem exists_reads {m : Mask} (h : m ≠ 0) :
    ∃ i, i < 64 ∧ m.toNat.testBit i = true ∧ reads m (Bits.bit i) = true := by
  obtain ⟨i, hbit⟩ := Bits.exists_testBit h
  have hi := Bits.lt_of_testBit hbit
  exact ⟨i, hi, hbit, (reads_bit hi).trans hbit⟩

end DramBanks.Mask
