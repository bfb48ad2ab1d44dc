import DramBanks.Proofs.Parity
import Mathlib.Data.Nat.Factorization.Basic
import Mathlib.Tactic.Ring
/-!
# The weight of a word and its successor

    The weight of a word is the number of its bits.  A number that is not
    zero is a RUN form `2 ^ (z + t + 1) * A + (2 ^ t - 1) * 2 ^ z`: its
    lowest block of ones has length `t` and starts at bit `z`, and bit
    `z + t` is clear.  The next number of equal weight moves the top of
    that block up by one and the rest of it down to bit 0.  That nothing
    of equal weight lies in between is read off the part below bit
    `z + t + 1`, where the run is the largest number of its weight that
    lacks bit `z + t` (`le_of_ones`), and what replaces it is the smallest
    one that has it (`ones_le`).

    The successor of a word is this number, as long as it is a word
    (`nextSameWeight_run`); where it is not, the sum with the lowest bit
    overflows. -/

namespace DramBanks.Bits

/-! ## Counting bits -/

/-- The number of set bits among the `w` lowest ones of a number. -/
def ones (w n : Nat) : Nat := (List.range w).countP n.testBit

/-- The number of set bits of a word. -/
def weight (x : UInt64) : Nat := ones 64 x.toNat

/-- The bits of a number are those of its lower part and those of its upper part. -/
theorem ones_add (k d a b : Nat) (hb : b < 2 ^ k) :
    ones (k + d) (2 ^ k * a + b) = ones k b + ones d a := by
  have hlow : (List.range k).countP (2 ^ k * a + b).testBit = (List.range k).countP b.testBit := by
    refine List.countP_congr ?_
    intro i hi
    rw [Nat.testBit_two_pow_mul_add a hb, if_pos (List.mem_range.mp hi)]
  have hhigh : ∀ i, (2 ^ k * a + b).testBit (k + i) = a.testBit i := by
    intro i
    rw [Nat.testBit_two_pow_mul_add a hb, if_neg (by omega), Nat.add_sub_cancel_left]
  rw [ones, ones, ones, List.range_add, List.countP_append, hlow, List.countP_map]
  congr 2
  funext i
  exact hhigh i

@[simp] theorem ones_zero (w : Nat) : ones w 0 = 0 := by
  simp [ones]

/-- Bits beyond the size of a number do not count. -/
theorem ones_of_lt {w k n : Nat} (hn : n < 2 ^ k) (hk : k ≤ w) : ones w n = ones k n := by
  obtain ⟨d, rfl⟩ := Nat.exists_eq_add_of_le hk
  have h := ones_add k d 0 n hn
  rwa [Nat.mul_zero, Nat.zero_add, ones_zero, Nat.add_zero] at h

/-- The lowest bit counts by itself. -/
theorem ones_succ (w n : Nat) : ones (w + 1) n = n % 2 + ones w (n / 2) := by
  have h := ones_add 1 w (n / 2) (n % 2) (Nat.mod_lt n (by decide))
  have hone : ones 1 (n % 2) = n % 2 := by
    rcases Nat.mod_two_eq_zero_or_one n with h0 | h1
    · rw [h0]; rfl
    · rw [h1]; rfl
  rw [Nat.pow_one, Nat.div_add_mod, hone] at h
  rw [Nat.add_comm w 1, h]

theorem ones_le_width (w n : Nat) : ones w n ≤ w := by
  have h := List.countP_le_length (p := n.testBit) (l := List.range w)
  rwa [List.length_range] at h

/-- Appending zeros at the bottom keeps the weight. -/
theorem ones_mul_two_pow (k d a : Nat) : ones (k + d) (a * 2 ^ k) = ones d a := by
  have h := ones_add k d a 0 (Nat.two_pow_pos k)
  rwa [Nat.add_zero, ones_zero, Nat.zero_add, Nat.mul_comm] at h

/-- A block of ones at the bottom. -/
theorem ones_block {t w : Nat} (h : t ≤ w) : ones w (2 ^ t - 1) = t := by
  rw [ones_of_lt (k := t) (Nat.sub_lt (Nat.two_pow_pos t) (by decide)) h, ones,
    List.countP_eq_length.mpr, List.length_range]
  intro i hi
  rw [Nat.testBit_two_pow_sub_one]
  exact decide_eq_true (List.mem_range.mp hi)

/-- No number of a weight is smaller than the block of ones. -/
theorem ones_le {w n : Nat} : 2 ^ ones w n - 1 ≤ n := by
  induction w generalizing n with
  | zero => exact Nat.zero_le n
  | succ w ih =>
      have hhalf := ih (n := n / 2)
      have hpos := Nat.two_pow_pos (ones w (n / 2))
      rw [ones_succ]
      rcases Nat.mod_two_eq_zero_or_one n with h | h
      · rw [h, Nat.zero_add]
        omega
      · rw [h, Nat.add_comm, Nat.pow_succ]
        omega

/-- No number of a weight is larger than the block of ones at the top. -/
theorem le_of_ones {w n : Nat} (hn : n < 2 ^ w) : n ≤ (2 ^ ones w n - 1) * 2 ^ (w - ones w n) := by
  induction w generalizing n with
  | zero =>
      rw [Nat.pow_zero] at hn
      omega
  | succ w ih =>
      have hhalf := ih (n := n / 2) (by rw [Nat.pow_succ] at hn; omega)
      have hle := ones_le_width w (n / 2)
      rw [ones_succ]
      generalize ones w (n / 2) = t at hhalf hle ⊢
      have hpos := Nat.two_pow_pos (w - t)
      rcases Nat.mod_two_eq_zero_or_one n with h | h
      · rw [h, Nat.zero_add, show w + 1 - t = (w - t) + 1 by omega, Nat.pow_succ, ← Nat.mul_assoc]
        omega
      · obtain ⟨p, hp⟩ : ∃ p, 2 ^ t = p + 1 := ⟨2 ^ t - 1, by have := Nat.two_pow_pos t; omega⟩
        rw [hp, Nat.add_sub_cancel] at hhalf
        rw [h, show w + 1 - (1 + t) = w - t by omega, Nat.add_comm 1 t, Nat.pow_succ, hp,
          show (p + 1) * 2 - 1 = 2 * p + 1 by omega, Nat.add_mul, Nat.mul_assoc]
        omega

/-! ## Runs -/

/-- A number whose lowest block of ones has length `t` and starts at bit `z`. -/
def run (A z t : Nat) : Nat := 2 ^ (z + t + 1) * A + (2 ^ t - 1) * 2 ^ z

/-- What replaces a run: the top of the block moves up by one, the rest of it to the bottom. -/
def runNext (A z t : Nat) : Nat := 2 ^ (z + t + 1) * A + (2 ^ (z + t) + (2 ^ (t - 1) - 1))

/-- One more at the bottom of a block of ones carries to the bit above it. -/
theorem block_add (z t : Nat) : (2 ^ t - 1) * 2 ^ z + 2 ^ z = 2 ^ (z + t) := by
  rw [← Nat.succ_mul, Nat.pow_add, Nat.mul_comm (2 ^ z)]
  congr 1
  have hpos := Nat.two_pow_pos t
  omega

theorem run_low_lt (z t : Nat) : (2 ^ t - 1) * 2 ^ z < 2 ^ (z + t) := by
  have hz := Nat.two_pow_pos z
  have hblock := block_add z t
  omega

theorem block_lt {z t : Nat} (ht : 0 < t) : 2 ^ (t - 1) - 1 < 2 ^ (z + t) := by
  have hle : 2 ^ (t - 1) ≤ 2 ^ (z + t) := Nat.pow_le_pow_right Nat.two_pos (by omega)
  have hpos := Nat.two_pow_pos (t - 1)
  omega

/-- Every number but zero is a run. -/
theorem exists_run {n : Nat} (hn : n ≠ 0) : ∃ A z t, 0 < t ∧ n = run A z t := by
  -- `z` counts the zeros at the bottom, and `t` the ones above them
  obtain ⟨z, y, hy, rfl⟩ := Nat.exists_eq_two_pow_mul_odd hn
  obtain ⟨t, v, hv, hyv⟩ := Nat.exists_eq_two_pow_mul_odd (Nat.succ_ne_zero y)
  obtain ⟨A, rfl⟩ := hv
  have ht : 0 < t := by
    refine Nat.pos_of_ne_zero ?_
    rintro rfl
    obtain ⟨k, rfl⟩ := hy
    rw [Nat.pow_zero, Nat.one_mul] at hyv
    omega
  refine ⟨A, z, t, ht, ?_⟩
  have hy' : y = 2 ^ (t + 1) * A + (2 ^ t - 1) := by
    have hpos := Nat.two_pow_pos t
    have hexp : 2 ^ t * (2 * A + 1) = 2 ^ (t + 1) * A + 2 ^ t := by ring
    omega
  rw [hy', run, Nat.mul_add, ← Nat.mul_assoc, ← Nat.pow_add, Nat.mul_comm (2 ^ z) (2 ^ t - 1)]
  rfl

theorem ones_run {w z t : Nat} (A : Nat) (hw : z + t + 1 ≤ w) :
    ones w (run A z t) = t + ones (w - (z + t + 1)) A := by
  obtain ⟨d, rfl⟩ := Nat.exists_eq_add_of_le hw
  have hlow : (2 ^ t - 1) * 2 ^ z < 2 ^ (z + t + 1) :=
    Nat.lt_trans (run_low_lt z t) (Nat.pow_lt_pow_right Nat.one_lt_two (by omega))
  rw [run, ones_add _ _ _ _ hlow, Nat.add_sub_cancel_left, Nat.add_assoc z t 1,
    ones_mul_two_pow, ones_block (by omega)]

theorem ones_runNext {w z t : Nat} (A : Nat) (ht : 0 < t) (hw : z + t + 1 ≤ w) :
    ones w (runNext A z t) = t + ones (w - (z + t + 1)) A := by
  obtain ⟨d, rfl⟩ := Nat.exists_eq_add_of_le hw
  have hblock := block_lt (z := z) ht
  have hlow : 2 ^ (z + t) + (2 ^ (t - 1) - 1) < 2 ^ (z + t + 1) := by
    rw [Nat.pow_succ]
    omega
  have htop := ones_add (z + t) 1 1 (2 ^ (t - 1) - 1) hblock
  rw [Nat.mul_one, ones_block (by omega)] at htop
  rw [runNext, ones_add _ _ _ _ hlow, Nat.add_sub_cancel_left, htop]
  have hone : ones 1 1 = 1 := rfl
  rw [hone]
  omega

/-- The sum of a run and its lowest bit: the ripple of the carry through the block. -/
theorem run_add_lowest (A z t : Nat) :
    run A z t + 2 ^ z = 2 ^ (z + t + 1) * A + 2 ^ (z + t) := by
  rw [run, Nat.add_assoc, block_add]

theorem ripple_eq_mul (A z t : Nat) :
    2 ^ (z + t + 1) * A + 2 ^ (z + t) = 2 ^ (z + t) * (2 * A + 1) := by
  ring

/-- Where the ripple fits into a word there is room for what replaces the run. -/
theorem runNext_lt {A z t n : Nat} (ht : 0 < t) (h : run A z t + 2 ^ z < 2 ^ n) :
    runNext A z t < 2 ^ n := by
  have hblock := block_lt (z := z) ht
  rw [run_add_lowest] at h
  have hle : z + t ≤ n := by
    by_contra hgt
    have hpow : 2 ^ n ≤ 2 ^ (z + t) := Nat.pow_le_pow_right Nat.two_pos (by omega)
    omega
  -- the ripple is a multiple of `2 ^ (z + t)`, and so is the size of the word
  obtain ⟨d, rfl⟩ := Nat.exists_eq_add_of_le hle
  have hsize : 2 ^ (z + t + d) = 2 ^ (z + t) * 2 ^ d := Nat.pow_add 2 (z + t) d
  rw [ripple_eq_mul, hsize] at h
  have hstep : 2 ^ (z + t) * (2 * A + 1 + 1) ≤ 2 ^ (z + t) * 2 ^ d :=
    Nat.mul_le_mul_left _ (Nat.lt_of_mul_lt_mul_left h)
  rw [Nat.mul_succ, ← ripple_eq_mul, ← hsize] at hstep
  rw [runNext]
  omega

/-- Nothing of equal weight lies between a run and what replaces it. -/
theorem runNext_le {w A z t y : Nat} (ht : 0 < t) (hw : z + t + 1 ≤ w)
    (hlt : run A z t < y) (hones : ones w y = ones w (run A z t)) : runNext A z t ≤ y := by
  by_contra hnot
  rw [ones_run A hw] at hones
  have hblock := block_lt (z := z) ht
  -- both ends agree above bit `z + t`, so `y` does, too
  obtain ⟨b, rfl⟩ : ∃ b, y = 2 ^ (z + t + 1) * A + b :=
    Nat.exists_eq_add_of_le (by rw [run] at hlt; omega)
  have hb : b < 2 ^ (z + t + 1) := by
    rw [Nat.pow_succ]
    rw [runNext] at hnot
    omega
  obtain ⟨d, rfl⟩ := Nat.exists_eq_add_of_le hw
  rw [ones_add _ _ _ _ hb, Nat.add_sub_cancel_left, Nat.add_right_cancel_iff] at hones
  by_cases hlow : b < 2 ^ (z + t)
  · rw [ones_of_lt hlow (by omega)] at hones
    have hle := le_of_ones hlow
    rw [hones, Nat.add_sub_cancel] at hle
    rw [run] at hlt
    omega
  · -- above bit `z + t`, the remaining `t - 1` ones are lowest as a block at the bottom
    obtain ⟨c, rfl⟩ := Nat.exists_eq_add_of_le (Nat.le_of_not_lt hlow)
    have hc : c < 2 ^ (z + t) := by
      rw [Nat.pow_succ] at hb
      omega
    have hsum := ones_add (z + t) 1 1 c hc
    have hone : ones 1 1 = 1 := rfl
    rw [Nat.mul_one, hones, hone] at hsum
    have hle := ones_le (w := z + t) (n := c)
    rw [show ones (z + t) c = t - 1 by omega] at hle
    rw [runNext] at hnot
    omega

/-! ## The successor of a word -/

/-- A run is an odd multiple of its lowest bit. -/
theorem run_eq_odd_mul (A z : Nat) {t : Nat} (ht : 0 < t) :
    ∃ q, run A z t = 2 ^ z * (2 * q + 1) := by
  obtain ⟨k, rfl⟩ := Nat.exists_eq_succ_of_ne_zero (Nat.pos_iff_ne_zero.mp ht)
  refine ⟨2 ^ (k + 1) * A + (2 ^ k - 1), ?_⟩
  have hpos := Nat.two_pow_pos k
  have hblock : 2 * (2 ^ k - 1) + 1 = 2 ^ (k + 1) - 1 := by
    rw [Nat.pow_succ]
    omega
  rw [run, Nat.mul_add 2, Nat.add_assoc (2 * _), hblock, Nat.succ_eq_add_one]
  ring

/-- The lowest bit of a word, by which its negation differs from its complement. -/
theorem toNat_lowest {x : UInt64} {z q : Nat} (hq : x.toNat = 2 ^ z * (2 * q + 1)) :
    (x &&& (0 - x)).toNat = 2 ^ z := by
  have hbound := UInt64.toNat_lt x
  have hz := Nat.two_pow_pos z
  have hpred : x.toNat - 1 = 2 ^ z * (2 * q) + (2 ^ z - 1) := by
    rw [hq, Nat.mul_add, Nat.mul_one]
    omega
  have hneg : (0 - x).toNat = 2 ^ 64 - ((x.toNat - 1) + 1) := by
    have hpos : 0 < x.toNat := by
      rw [hq]
      positivity
    rw [UInt64.toNat_sub]
    change (2 ^ 64 - x.toNat + 0) % 2 ^ 64 = _
    rw [Nat.add_zero, Nat.mod_eq_of_lt (by omega)]
    omega
  refine Nat.eq_of_testBit_eq ?_
  intro i
  rw [UInt64.toNat_and, Nat.testBit_and, hneg, Nat.testBit_two_pow_sub_succ (by omega), hpred,
    Nat.testBit_two_pow_mul_add _ (by omega), hq, Nat.testBit_two_pow_mul, Nat.testBit_two_pow,
    Nat.testBit_two_pow_sub_one]
  by_cases hi : i < z
  · simp [hi, Nat.not_le_of_lt hi, Nat.ne_of_gt hi]
  · obtain ⟨j, rfl⟩ := Nat.exists_eq_add_of_le (Nat.le_of_not_lt hi)
    rw [if_neg (by omega), Nat.add_sub_cancel_left]
    cases j with
    | zero =>
        have hz64 : z < 64 := by
          have hle : 2 ^ z ≤ x.toNat := by
            rw [hq]
            exact Nat.le_mul_of_pos_right _ (by omega)
          exact (Nat.pow_lt_pow_iff_right Nat.one_lt_two).mp (by omega)
        simp [hz64]
    | succ j =>
        rw [Nat.testBit_succ, Nat.testBit_succ, show (2 * q + 1) / 2 = q by omega,
          show 2 * q / 2 = q by omega]
        cases q.testBit j <;> simp

/-- A run and the sum with its lowest bit differ in the block and the bit above it. -/
theorem run_xor_ripple (A z t : Nat) :
    run A z t ^^^ (2 ^ (z + t + 1) * A + 2 ^ (z + t)) = 2 ^ z * (2 ^ (t + 1) - 1) := by
  have hlow := run_low_lt z t
  have hpow : 2 ^ (z + t) < 2 ^ (z + t + 1) := Nat.pow_lt_pow_right Nat.one_lt_two (by omega)
  refine Nat.eq_of_testBit_eq ?_
  intro i
  rw [Nat.testBit_xor, run, Nat.testBit_two_pow_mul_add A (by omega),
    Nat.testBit_two_pow_mul_add A hpow, Nat.testBit_two_pow_mul, Nat.testBit_two_pow,
    Nat.testBit_two_pow_sub_one]
  by_cases hi : i < z + t + 1
  · rw [if_pos hi, if_pos hi, Nat.mul_comm, Nat.testBit_two_pow_mul, Nat.testBit_two_pow_sub_one]
    by_cases hzi : z ≤ i
    · by_cases hit : i = z + t
      · subst hit
        simp
      · have h1 : i - z < t := by omega
        have h2 : i - z < t + 1 := by omega
        simp [hzi, h1, h2, Ne.symm hit]
    · have h1 : z + t ≠ i := by omega
      simp [hzi, h1]
  · rw [if_neg hi, if_neg hi, Bool.xor_self]
    have h1 : ¬ i - z < t + 1 := by omega
    simp [h1]

/-- What the carry swallowed goes back to the bottom. -/
theorem run_ones_div {z t : Nat} (ht : 0 < t) :
    2 ^ z * (2 ^ (t + 1) - 1) / 2 ^ 2 / 2 ^ z = 2 ^ (t - 1) - 1 := by
  obtain ⟨k, rfl⟩ := Nat.exists_eq_succ_of_ne_zero (Nat.pos_iff_ne_zero.mp ht)
  have hpos := Nat.two_pow_pos k
  rw [Nat.div_div_eq_div_mul, Nat.mul_comm (2 ^ 2), ← Nat.div_div_eq_div_mul,
    Nat.mul_div_cancel_left _ (Nat.two_pow_pos z), Nat.succ_eq_add_one, Nat.pow_succ, Nat.pow_succ,
    Nat.add_sub_cancel]
  omega

/-- The successor of a run is what replaces it, if that is a word. -/
theorem nextSameWeight_run {x : UInt64} {A z t : Nat} (ht : 0 < t) (hx : x.toNat = run A z t) :
    (runNext A z t < 2 ^ 64 → ∃ y, nextSameWeight x = some y ∧ y.toNat = runNext A z t)
      ∧ (2 ^ 64 ≤ runNext A z t → nextSameWeight x = none) := by
  have hlowest : (x &&& (0 - x)).toNat = 2 ^ z := by
    obtain ⟨q, hq⟩ := run_eq_odd_mul A z ht
    exact toNat_lowest (hx.trans hq)
  have hbound := UInt64.toNat_lt x
  have hz := Nat.two_pow_pos z
  have hblock := block_lt (z := z) ht
  have hsum := run_add_lowest A z t
  have hripple : (x + (x &&& (0 - x))).toNat = (run A z t + 2 ^ z) % 2 ^ 64 := by
    rw [UInt64.toNat_add, hlowest, hx]
  rw [hx] at hbound
  by_cases hfit : run A z t + 2 ^ z < 2 ^ 64
  · rw [Nat.mod_eq_of_lt hfit, hsum] at hripple
    have hroom := runNext_lt ht hfit
    refine ⟨fun _ => ?_, fun hge => absurd hroom (by omega)⟩
    refine ⟨_, if_pos (UInt64.lt_iff_toNat_lt.mpr (by rw [hripple, hx]; omega)), ?_⟩
    rw [UInt64.toNat_or, UInt64.toNat_div, UInt64.toNat_shiftRight, UInt64.toNat_xor, hripple,
      hlowest, hx, run_xor_ripple]
    change _ ||| (2 ^ z * (2 ^ (t + 1) - 1)) >>> 2 / 2 ^ z = _
    -- the block that comes back lies below the ripple, so the two are added
    rw [Nat.shiftRight_eq_div_pow, run_ones_div ht, ripple_eq_mul,
      ← Nat.two_pow_add_eq_or_of_lt hblock, ← ripple_eq_mul, runNext, Nat.add_assoc]
  · -- the carry leaves the word, and what is left of the sum is not above `x`
    have hzt : 2 ^ z ≤ 2 ^ 64 := by
      have hone : 1 * 2 ^ z ≤ (2 ^ t - 1) * 2 ^ z :=
        Nat.mul_le_mul_right _ (by have := Nat.pow_le_pow_right Nat.two_pos ht; omega)
      rw [run] at hbound
      omega
    have hlarge : 2 ^ 64 ≤ runNext A z t := by
      rw [runNext]
      omega
    refine ⟨fun h => absurd h (by omega), fun _ => if_neg ?_⟩
    rw [UInt64.lt_iff_toNat_lt, hripple, hx]
    omega

/-- The block of a run lies inside the run. -/
theorem width_of_run {A z t n : Nat} (ht : 0 < t) (h : run A z t < 2 ^ n) : z + t ≤ n := by
  have htop : 2 ^ (z + t - 1) ≤ (2 ^ t - 1) * 2 ^ z := by
    obtain ⟨k, rfl⟩ := Nat.exists_eq_succ_of_ne_zero (Nat.pos_iff_ne_zero.mp ht)
    rw [show z + k.succ - 1 = k + z by omega, Nat.pow_add]
    refine Nat.mul_le_mul_right _ ?_
    have hpos := Nat.two_pow_pos k
    rw [Nat.pow_succ]
    omega
  rw [run] at h
  have hlt : 2 ^ (z + t - 1) < 2 ^ n := by omega
  have := (Nat.pow_lt_pow_iff_right Nat.one_lt_two).mp hlt
  omega

/-- The weight of a word leaves room for one more bit. -/
theorem weight_eq (x : UInt64) : weight x = ones 65 x.toNat :=
  (ones_of_lt (UInt64.toNat_lt x) (by decide)).symm

/-- Zero has no successor. -/
theorem ne_zero_of_nextSameWeight {x y : UInt64} (h : nextSameWeight x = some y) : x ≠ 0 := by
  rintro rfl
  exact nomatch h

/-- A successor lies above its argument, has the same weight, and no word of that weight lies
    in between. -/
theorem spec_of_nextSameWeight {x y : UInt64} (h : nextSameWeight x = some y) :
    x < y ∧ weight y = weight x ∧ ∀ u : UInt64, x < u → weight u = weight x → y ≤ u := by
  have hne : x.toNat ≠ 0 := fun hzero => ne_zero_of_nextSameWeight h (UInt64.toNat_inj.mp hzero)
  obtain ⟨A, z, t, ht, hx⟩ := exists_run hne
  obtain ⟨hsome, hnone⟩ := nextSameWeight_run ht hx
  have hwidth : z + t ≤ 64 := width_of_run ht (by rw [← hx]; exact UInt64.toNat_lt x)
  have hfit : runNext A z t < 2 ^ 64 := by
    by_contra hge
    rw [hnone (Nat.le_of_not_lt hge)] at h
    cases h
  obtain ⟨y', hy', hy⟩ := hsome hfit
  rw [h] at hy'
  cases hy'
  refine ⟨lt_of_nextSameWeight h, ?_, ?_⟩
  · rw [weight_eq, weight_eq, hy, hx, ones_runNext A ht (by omega), ones_run A (by omega)]
  · intro u hlt hweight
    rw [weight_eq, weight_eq, hx] at hweight
    rw [UInt64.lt_iff_toNat_lt, hx] at hlt
    rw [UInt64.le_iff_toNat_le, hy]
    exact runNext_le ht (by omega) hlt hweight

/-- Without a successor, no larger word has the same weight. -/
theorem weight_ne_of_nextSameWeight {x u : UInt64} (h : nextSameWeight x = none) (hlt : x < u) :
    weight u ≠ weight x := by
  intro hweight
  rw [UInt64.lt_iff_toNat_lt] at hlt
  by_cases hne : x.toNat = 0
  · have hle := le_of_ones (UInt64.toNat_lt u)
    have hzero : ones 64 u.toNat = 0 := by
      rw [weight, weight, hne, ones_zero] at hweight
      exact hweight
    rw [hzero] at hle
    omega
  · obtain ⟨A, z, t, ht, hx⟩ := exists_run hne
    obtain ⟨hsome, -⟩ := nextSameWeight_run ht hx
    have hwidth : z + t ≤ 64 := width_of_run ht (by rw [← hx]; exact UInt64.toNat_lt x)
    rw [weight_eq, weight_eq, hx] at hweight
    have hle := runNext_le ht (by omega) (by rwa [← hx]) hweight
    obtain ⟨y, hy, -⟩ := hsome (Nat.lt_of_le_of_lt hle (UInt64.toNat_lt u))
    rw [h] at hy
    cases hy

/-- **SUCCESSOR**: what follows a word is the next larger word of its weight and no other one: a
    word is the successor exactly if it is above, has the same weight and leaves no word of that
    weight in between.  Zero has no successor, and otherwise one is missing exactly where the
    weight has no larger word. -/
theorem nextSameWeight_exact (x : UInt64) :
    (∀ y, nextSameWeight x = some y ↔
        x ≠ 0 ∧ x < y ∧ weight y = weight x ∧ ∀ u, x < u → u < y → weight u ≠ weight x)
      ∧ (nextSameWeight x = none ↔ x = 0 ∨ ∀ u, x < u → weight u ≠ weight x) := by
  constructor
  · intro y
    constructor
    · intro h
      obtain ⟨hlt, hweight, hleast⟩ := spec_of_nextSameWeight h
      refine ⟨ne_zero_of_nextSameWeight h, hlt, hweight, ?_⟩
      intro u hxu huy hu
      exact UInt64.not_le.mpr huy (hleast u hxu hu)
    · rintro ⟨-, hlt, hweight, hbetween⟩
      cases h : nextSameWeight x with
      | none => exact absurd hweight (weight_ne_of_nextSameWeight h hlt)
      | some y' =>
          -- each of the two would lie in between if it were below the other one
          obtain ⟨hlt', hweight', hleast⟩ := spec_of_nextSameWeight h
          have hge : y ≤ y' := UInt64.not_lt.mp fun hbelow => hbetween y' hlt' hbelow hweight'
          rw [UInt64.le_antisymm (hleast y hlt hweight) hge]
  · constructor
    · intro h
      exact Or.inr fun u hlt => weight_ne_of_nextSameWeight h hlt
    · rintro (rfl | hnone)
      · rfl
      · rw [Option.eq_none_iff_forall_ne_some]
        intro y h
        obtain ⟨hlt, hweight, -⟩ := spec_of_nextSameWeight h
        exact hnone y hlt hweight

end DramBanks.Bits
