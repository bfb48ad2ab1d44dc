import DramBanks.Mask.Candidates
import DramBanks.Proofs.Weight
/-!
# The enumeration is complete

    A cursor is followed by the masks of its weight that are not below it
    and by all masks of larger weight (`Beyond`).  A step of the cursor
    drops exactly the mask at the cursor from this set: the next mask of
    equal weight leaves nothing in between, and where there is none the
    weight is exhausted, so the walk goes on with the lowest mask of the
    next weight.  Hence the enumeration meets all masks of the allowed
    weights and positions and no other one (`mem_toList`).

    A step also leads to masks that come later in the order by weight and
    value (`Cursor.Valid.precedes`), so the walk meets the masks in this
    order and none of them twice (`pairwise_toList`). -/

namespace DramBanks.Mask

open DramBanks.Bits

/-! ## Room for a mask -/

namespace Candidates

theorem fits_iff {c : Candidates} (hskip : c.skip < 64) (m : Mask) :
    c.fits m = true ↔ m.toNat < 2 ^ c.width := by
  rw [fits, width]
  by_cases hzero : c.skip = 0
  · have hbound := UInt64.toNat_lt m
    simp [hzero, hbound]
  · have hofNat : (UInt64.ofNat (64 - c.skip)).toNat = 64 - c.skip := by
      rw [UInt64.toNat_ofNat']
      omega
    have hpos := Nat.two_pow_pos (64 - c.skip)
    rw [Bool.or_eq_true, beq_iff_eq, beq_iff_eq, ← UInt64.toNat_inj, UInt64.toNat_shiftRight,
      hofNat, Nat.mod_eq_of_lt (by omega), Nat.shiftRight_eq_div_pow]
    rw [show (0 : UInt64).toNat = 0 from rfl, Nat.div_eq_zero_iff]
    omega

/-- The skipped bits and the room above them make up a word. -/
theorem two_pow_skip_mul {c : Candidates} (hskip : c.skip < 64) :
    2 ^ c.skip * 2 ^ c.width = 2 ^ 64 := by
  rw [width, Nat.mul_comm, Nat.pow_sub_mul_pow 2 (Nat.le_of_lt hskip)]

/-- A mask that fits is moved upward without loss. -/
theorem toNat_shift {c : Candidates} (hskip : c.skip < 64) {m : Mask}
    (hm : m.toNat < 2 ^ c.width) :
    (m <<< UInt64.ofNat c.skip).toNat = m.toNat * 2 ^ c.skip := by
  have hofNat : (UInt64.ofNat c.skip).toNat = c.skip := by
    rw [UInt64.toNat_ofNat']
    omega
  rw [UInt64.toNat_shiftLeft, hofNat, Nat.mod_eq_of_lt hskip, Nat.shiftLeft_eq]
  refine Nat.mod_eq_of_lt ?_
  rw [← two_pow_skip_mul hskip, Nat.mul_comm]
  exact Nat.mul_lt_mul_of_pos_left hm (Nat.two_pow_pos _)

/-- Moving a mask upward keeps its weight. -/
theorem weight_shift {c : Candidates} (hskip : c.skip < 64) {m : Mask}
    (hm : m.toNat < 2 ^ c.width) : Bits.weight (m <<< UInt64.ofNat c.skip) = Bits.weight m := by
  have hwidth : 64 = c.skip + c.width := by
    rw [width]
    omega
  rw [Bits.weight, Bits.weight, toNat_shift hskip hm, hwidth, ones_mul_two_pow]
  exact (ones_of_lt hm (by omega)).symm

/-- A mask without the skipped bits is a mask that fits, moved upward. -/
theorem exists_shift {c : Candidates} (hskip : c.skip < 64) {m : Mask}
    (hlow : Within c.skip 64 m) :
    ∃ x : Mask, x.toNat < 2 ^ c.width ∧ m = x <<< UInt64.ofNat c.skip := by
  rw [Within.iff_mod] at hlow
  obtain ⟨k, hk⟩ := Nat.dvd_of_mod_eq_zero hlow
  have hbound := UInt64.toNat_lt m
  have hkw : k < 2 ^ c.width := by
    rw [hk, ← two_pow_skip_mul hskip] at hbound
    exact Nat.lt_of_mul_lt_mul_left hbound
  have hk64 : k < 2 ^ 64 :=
    Nat.lt_of_lt_of_le hkw (Nat.pow_le_pow_right Nat.two_pos (Nat.sub_le 64 c.skip))
  have hofNat : (UInt64.ofNat k).toNat = k := by
    rw [UInt64.toNat_ofNat']
    exact Nat.mod_eq_of_lt hk64
  have hfit : (UInt64.ofNat k).toNat < 2 ^ c.width := by rwa [hofNat]
  refine ⟨UInt64.ofNat k, hfit, UInt64.toNat_inj.mp ?_⟩
  rw [toNat_shift hskip hfit, hofNat, hk, Nat.mul_comm]

end Candidates

theorem toNat_lowOnes {n : Nat} (hn : n ≤ 64) : (lowOnes n).toNat = 2 ^ n - 1 := by
  rw [lowOnes]
  by_cases h : n < 64
  · have hbit := toNat_bit h
    have hpos := Nat.two_pow_pos n
    have hle : (1 : UInt64) ≤ bit n := by
      rw [UInt64.le_iff_toNat_le, hbit]
      exact hpos
    rw [if_pos h, UInt64.toNat_sub_of_le _ _ hle, hbit]
    rfl
  · rw [if_neg h, show n = 64 by omega]
    rfl

/-! ## What a cursor has in front of it -/

namespace Cursor

variable {c : Candidates} {p q : Cursor}

/-- A cursor of an enumeration that has not left it. -/
structure Valid (c : Candidates) (p : Cursor) : Prop where
  skip_lt : c.skip < 64
  fits : p.mask.toNat < 2 ^ c.width
  weight_eq : Bits.weight p.mask = p.weight
  weight_le : p.weight ≤ c.maxBits

/-- The masks at a cursor and behind it, counted from the lowest usable bit. -/
def Beyond (c : Candidates) (p : Cursor) (x : Mask) : Prop :=
  x.toNat < 2 ^ c.width ∧ Bits.weight x ≤ c.maxBits
    ∧ (p.weight < Bits.weight x ∨ Bits.weight x = p.weight ∧ p.mask ≤ x)

theorem Valid.beyond_self (h : Valid c p) : Beyond c p p.mask :=
  ⟨h.fits, by rw [h.weight_eq]; exact h.weight_le, Or.inr ⟨h.weight_eq, UInt64.le_refl _⟩⟩

theorem weight_le_width {x : Mask} (hx : x.toNat < 2 ^ c.width) : Bits.weight x ≤ c.width := by
  have hwidth : c.width ≤ 64 := Nat.sub_le 64 c.skip
  rw [Bits.weight, ones_of_lt hx hwidth]
  exact ones_le_width _ _

/-- Where no mask of equal weight follows inside the enumeration, the weight is exhausted. -/
theorem eq_of_no_successor (hskip : c.skip < 64) (hnone : (nextSameWeight p.mask).filter c.fits = none)
    (hweight : Bits.weight p.mask = p.weight) {x : Mask} (hx : x.toNat < 2 ^ c.width)
    (hxw : Bits.weight x = p.weight) (hle : p.mask ≤ x) : x = p.mask := by
  by_contra hne
  have hlt : p.mask < x := UInt64.lt_of_le_of_ne hle (Ne.symm hne)
  cases hnext : nextSameWeight p.mask with
  | none => exact weight_ne_of_nextSameWeight hnext hlt (hxw.trans hweight.symm)
  | some y =>
      obtain ⟨-, -, hleast⟩ := spec_of_nextSameWeight hnext
      have hyx : y ≤ x := hleast x hlt (hxw.trans hweight.symm)
      have hfits : c.fits y = true := by
        rw [Candidates.fits_iff hskip]
        rw [UInt64.le_iff_toNat_le] at hyx
        omega
      rw [hnext, Option.filter_some, if_pos hfits] at hnone
      cases hnone

/-- The successor of equal weight leaves out nothing but the mask at the cursor. -/
theorem Valid.step_successor (h : Valid c p) {y : Mask}
    (hy : (nextSameWeight p.mask).filter c.fits = some y) :
    Valid c ⟨p.weight, y⟩ ∧ ∀ x, Beyond c p x ↔ x = p.mask ∨ Beyond c ⟨p.weight, y⟩ x := by
  obtain ⟨hsome, hfits⟩ := Option.filter_eq_some_iff.mp hy
  obtain ⟨hlt, hyw, hleast⟩ := spec_of_nextSameWeight hsome
  rw [h.weight_eq] at hyw
  refine ⟨⟨h.skip_lt, (Candidates.fits_iff h.skip_lt y).mp hfits, hyw, h.weight_le⟩, ?_⟩
  intro x
  constructor
  · rintro ⟨hx, hxb, hlarger | ⟨hxw, hle⟩⟩
    · exact Or.inr ⟨hx, hxb, Or.inl hlarger⟩
    · by_cases hxp : x = p.mask
      · exact Or.inl hxp
      · have hpx : p.mask < x := UInt64.lt_of_le_of_ne hle (Ne.symm hxp)
        have hyx := hleast x hpx (hxw.trans h.weight_eq.symm)
        exact Or.inr ⟨hx, hxb, Or.inr ⟨hxw, hyx⟩⟩
  · rintro (rfl | ⟨hx, hxb, hlarger | ⟨hxw, hle⟩⟩)
    · exact h.beyond_self
    · exact ⟨hx, hxb, Or.inl hlarger⟩
    · exact ⟨hx, hxb, Or.inr ⟨hxw, UInt64.le_of_lt (UInt64.lt_of_lt_of_le hlt hle)⟩⟩

/-- Once a weight is exhausted, the lowest mask of the next one is in front of all others. -/
theorem Valid.step_weight (h : Valid c p) (hnone : (nextSameWeight p.mask).filter c.fits = none)
    (hbits : p.weight + 1 ≤ c.maxBits) (hroom : p.weight + 1 ≤ c.width) :
    Valid c ⟨p.weight + 1, lowOnes (p.weight + 1)⟩ ∧
      ∀ x, Beyond c p x ↔ x = p.mask ∨ Beyond c ⟨p.weight + 1, lowOnes (p.weight + 1)⟩ x := by
  have hwidth : c.width ≤ 64 := Nat.sub_le 64 c.skip
  have hlow := toNat_lowOnes (Nat.le_trans hroom hwidth)
  have hlowWeight : Bits.weight (lowOnes (p.weight + 1)) = p.weight + 1 := by
    rw [Bits.weight, hlow, ones_block (Nat.le_trans hroom hwidth)]
  have hlowFits : (lowOnes (p.weight + 1)).toNat < 2 ^ c.width := by
    have hpow : 2 ^ (p.weight + 1) ≤ 2 ^ c.width := Nat.pow_le_pow_right Nat.two_pos hroom
    have hpos := Nat.two_pow_pos (p.weight + 1)
    omega
  refine ⟨⟨h.skip_lt, hlowFits, hlowWeight, hbits⟩, ?_⟩
  intro x
  constructor
  · rintro ⟨hx, hxb, hlarger | ⟨hxw, hle⟩⟩
    · refine Or.inr ⟨hx, hxb, ?_⟩
      rcases Nat.lt_or_ge (p.weight + 1) (Bits.weight x) with hlt | hge
      · exact Or.inl hlt
      · -- no mask of this weight is below the one that has all its bits at the bottom
        have hxw : Bits.weight x = p.weight + 1 := by omega
        refine Or.inr ⟨hxw, ?_⟩
        rw [UInt64.le_iff_toNat_le, hlow, ← hxw]
        exact ones_le
    · exact Or.inl (eq_of_no_successor h.skip_lt hnone h.weight_eq hx hxw hle)
  · rintro (rfl | ⟨hx, hxb, hlarger | ⟨hxw, -⟩⟩)
    · exact h.beyond_self
    · exact ⟨hx, hxb, Or.inl (Nat.lt_of_succ_lt hlarger)⟩
    · exact ⟨hx, hxb, Or.inl (Nat.lt_of_lt_of_eq (Nat.lt_succ_self _) hxw.symm)⟩

/-- **STEP**: the next cursor is valid, and what is beyond it is what was beyond the cursor
    without the mask at the cursor. -/
theorem Valid.step (h : Valid c p) (hnext : p.next? c = some q) :
    Valid c q ∧ ∀ x, Beyond c p x ↔ x = p.mask ∨ Beyond c q x := by
  rw [next?] at hnext
  split at hnext
  · next y hy =>
      cases hnext
      exact h.step_successor hy
  · next hnone =>
      split at hnext
      · next hroom =>
          cases hnext
          exact h.step_weight hnone hroom.1 hroom.2
      · cases hnext

/-- Nothing but the mask at it is beyond the last cursor. -/
theorem Valid.last (h : Valid c p) (hnext : p.next? c = none) {x : Mask} :
    Beyond c p x ↔ x = p.mask := by
  constructor
  · rintro ⟨hx, hxb, hcase⟩
    rw [next?] at hnext
    split at hnext
    · cases hnext
    · next hnone =>
        split at hnext
        · cases hnext
        · next hroom =>
            have hxwidth := weight_le_width hx
            rcases hcase with hlarger | ⟨hxw, hle⟩
            · omega
            · exact eq_of_no_successor h.skip_lt hnone h.weight_eq hx hxw hle
  · rintro rfl
    exact h.beyond_self

end Cursor

/-! ## The walk -/

namespace Candidates

open Cursor

/-- A walk meets what is beyond its cursor. -/
theorem mem_walk {c : Candidates} {p : Cursor} (h : Valid c p) {m : Mask} :
    m ∈ c.walk p [] ↔ ∃ x, Beyond c p x ∧ m = x <<< UInt64.ofNat c.skip := by
  cases hnext : p.next? c with
  | none =>
      rw [walk_of_last [] hnext, List.reverse_singleton, List.mem_singleton]
      constructor
      · rintro rfl
        exact ⟨p.mask, h.beyond_self, rfl⟩
      · rintro ⟨x, hx, rfl⟩
        rw [(h.last hnext).mp hx]
        rfl
  | some q =>
      obtain ⟨hq, hstep⟩ := h.step hnext
      rw [walk_of_next [] hnext, walk_eq_append, List.reverse_singleton, List.singleton_append,
        List.mem_cons, mem_walk hq]
      constructor
      · rintro (rfl | ⟨x, hx, rfl⟩)
        · exact ⟨p.mask, h.beyond_self, rfl⟩
        · exact ⟨x, (hstep x).mpr (Or.inr hx), rfl⟩
      · rintro ⟨x, hx, rfl⟩
        rcases (hstep x).mp hx with rfl | hx
        · exact Or.inl rfl
        · exact Or.inr ⟨x, hx, rfl⟩
termination_by (64 - p.weight, 2 ^ 64 - p.mask.toNat)
decreasing_by
  rcases Cursor.next?_decreasing hnext with hweight | ⟨hweight, hmask⟩
  · exact Prod.Lex.left _ _ hweight
  · rw [hweight]
    exact Prod.Lex.right _ hmask

/-- Only zero has no bits. -/
theorem weight_pos {x : Mask} : 0 < Bits.weight x ↔ x ≠ 0 := by
  rw [Bits.weight, ones, List.countP_pos_iff]
  constructor
  · rintro ⟨i, -, hi⟩ rfl
    simp at hi
  · intro h
    obtain ⟨i, hi⟩ := exists_testBit h
    exact ⟨i, List.mem_range.mpr (lt_of_testBit hi), hi⟩

/-- The start of an enumeration has everything in front of it. -/
theorem beyond_start {c : Candidates} {x : Mask} :
    Beyond c ⟨1, 1⟩ x ↔ x.toNat < 2 ^ c.width ∧ Bits.weight x ≤ c.maxBits ∧ x ≠ 0 := by
  have hone : (1 : UInt64) ≤ x ↔ x ≠ 0 := by
    rw [UInt64.le_iff_toNat_le, Ne, ← UInt64.toNat_inj]
    exact Nat.one_le_iff_ne_zero
  rw [Beyond, hone, ← weight_pos]
  show x.toNat < 2 ^ c.width ∧ Bits.weight x ≤ c.maxBits
    ∧ (1 < Bits.weight x ∨ Bits.weight x = 1 ∧ 0 < Bits.weight x) ↔ _
  constructor
  · rintro ⟨hx, hxb, hlarger | ⟨-, hpos⟩⟩
    · exact ⟨hx, hxb, Nat.lt_of_succ_lt hlarger⟩
    · exact ⟨hx, hxb, hpos⟩
  · rintro ⟨hx, hxb, hpos⟩
    exact ⟨hx, hxb, by omega⟩

theorem valid_start {c : Candidates} (hskip : c.skip < 64) (hbits : 0 < c.maxBits) :
    Valid c ⟨1, 1⟩ := by
  have hwidth : 1 < 2 ^ c.width := Nat.one_lt_two_pow (Nat.ne_of_gt (Nat.sub_pos_of_lt hskip))
  exact ⟨hskip, hwidth, by decide, hbits⟩

/-- **COMPLETENESS**: the candidates are the masks that are not zero, have none of the skipped
    bits and have at most the allowed number of bits. -/
theorem mem_toList {c : Candidates} {m : Mask} :
    m ∈ c.toList ↔ m ≠ 0 ∧ Within c.skip 64 m ∧ Bits.weight m ≤ c.maxBits := by
  rw [toList, start?]
  by_cases hstart : c.skip < 64 ∧ 0 < c.maxBits
  · rw [if_pos hstart]
    obtain ⟨hskip, hbits⟩ := hstart
    change m ∈ c.walk ⟨1, 1⟩ [] ↔ _
    rw [mem_walk (valid_start hskip hbits)]
    constructor
    · rintro ⟨x, hx, rfl⟩
      obtain ⟨hfit, hxb, hne⟩ := beyond_start.mp hx
      have hweight := weight_shift hskip hfit
      refine ⟨?_, ?_, by rw [hweight]; exact hxb⟩
      · rw [← weight_pos, hweight, weight_pos]
        exact hne
      · rw [Within.iff_mod, toNat_shift hskip hfit, Nat.mul_mod_left]
    · rintro ⟨hne, hlow, hmb⟩
      obtain ⟨x, hfit, rfl⟩ := exists_shift hskip hlow
      have hweight := weight_shift hskip hfit
      refine ⟨x, beyond_start.mpr ⟨hfit, ?_, ?_⟩, rfl⟩
      · rwa [← hweight]
      · rwa [← weight_pos, ← hweight, weight_pos]
  · -- no room or no bits: a mask of its own would need both
    rw [if_neg hstart]
    refine iff_of_false List.not_mem_nil ?_
    rintro ⟨hne, hlow, hmb⟩
    have hpos := weight_pos.mpr hne
    obtain ⟨i, hi⟩ := exists_testBit hne
    have := hlow i hi
    omega

/-- An enumeration that ends before it is cut short is the whole one. -/
theorem toList_eq_upTo {c : Candidates} (count : Nat) (h : (c.upTo count).length < count) :
    c.toList = c.upTo count := by
  rw [upTo_eq_take, List.length_take] at h
  rw [upTo_eq_take, List.take_of_length_le (by omega)]

/-- There is no candidate when there is no room for one, or no bit is allowed. -/
theorem toList_eq_nil_iff {c : Candidates} : c.toList = [] ↔ 64 ≤ c.skip ∨ c.maxBits = 0 := by
  rw [toList, start?]
  by_cases hstart : c.skip < 64 ∧ 0 < c.maxBits
  · rw [if_pos hstart]
    obtain ⟨hskip, hbits⟩ := hstart
    have hvalid := valid_start hskip hbits
    have hne : c.walk ⟨1, 1⟩ [] ≠ [] :=
      List.ne_nil_of_mem ((mem_walk hvalid).mpr ⟨_, hvalid.beyond_self, rfl⟩)
    exact iff_of_false hne (by omega)
  · rw [if_neg hstart]
    exact iff_of_true rfl (by omega)

end Candidates

/-! ## The order of the walk -/

/-- The order of an enumeration: by weight, and by value within a weight. -/
def Precedes (x y : Mask) : Prop :=
  Bits.weight x < Bits.weight y ∨ Bits.weight x = Bits.weight y ∧ x < y

theorem Precedes.ne {x y : Mask} (h : Precedes x y) : x ≠ y := by
  rintro rfl
  rcases h with hweight | ⟨-, hlt⟩
  · exact Nat.lt_irrefl _ hweight
  · exact UInt64.lt_irrefl _ hlt

/-- A cursor moves on to masks that the mask at it precedes. -/
theorem Cursor.Valid.precedes {c : Candidates} {p q : Cursor} (h : Valid c p)
    (hnext : p.next? c = some q) {x : Mask} (hx : Beyond c q x) : Precedes p.mask x := by
  obtain ⟨-, -, hcase⟩ := hx
  have hmoved := next?_decreasing hnext
  change _ ∨ _ ∧ 2 ^ 64 - q.mask.toNat < 2 ^ 64 - p.mask.toNat at hmoved
  have hbound : Bits.weight x ≤ 64 := ones_le_width _ _
  rw [Precedes, h.weight_eq, UInt64.lt_iff_toNat_lt]
  rcases hcase with hlarger | ⟨hweight, hle⟩
  · exact Or.inl (by omega)
  · rw [UInt64.le_iff_toNat_le] at hle
    omega

namespace Candidates

open Cursor

/-- Moving masks upward keeps their order. -/
theorem precedes_shift {c : Candidates} (hskip : c.skip < 64) {x y : Mask}
    (hx : x.toNat < 2 ^ c.width) (hy : y.toNat < 2 ^ c.width) (h : Precedes x y) :
    Precedes (x <<< UInt64.ofNat c.skip) (y <<< UInt64.ofNat c.skip) := by
  rw [Precedes, weight_shift hskip hx, weight_shift hskip hy, UInt64.lt_iff_toNat_lt,
    toNat_shift hskip hx, toNat_shift hskip hy,
    Nat.mul_lt_mul_right (Nat.two_pow_pos c.skip), ← UInt64.lt_iff_toNat_lt]
  exact h

/-- A walk meets masks in their order. -/
theorem pairwise_walk {c : Candidates} {p : Cursor} (h : Valid c p) :
    (c.walk p []).Pairwise Precedes := by
  cases hnext : p.next? c with
  | none =>
      rw [walk_of_last [] hnext]
      exact List.pairwise_singleton _ _
  | some q =>
      obtain ⟨hq, -⟩ := h.step hnext
      rw [walk_of_next [] hnext, walk_eq_append, List.reverse_singleton, List.singleton_append,
        List.pairwise_cons]
      refine ⟨?_, pairwise_walk hq⟩
      intro m hm
      obtain ⟨x, hx, rfl⟩ := (mem_walk hq).mp hm
      exact precedes_shift h.skip_lt h.fits hx.1 (h.precedes hnext hx)
termination_by (64 - p.weight, 2 ^ 64 - p.mask.toNat)
decreasing_by
  rcases Cursor.next?_decreasing hnext with hweight | ⟨hweight, hmask⟩
  · exact Prod.Lex.left _ _ hweight
  · rw [hweight]
    exact Prod.Lex.right _ hmask

theorem pairwise_toList (c : Candidates) : c.toList.Pairwise Precedes := by
  rw [toList, start?]
  by_cases hstart : c.skip < 64 ∧ 0 < c.maxBits
  · rw [if_pos hstart]
    exact pairwise_walk (valid_start hstart.1 hstart.2)
  · rw [if_neg hstart]
    exact List.Pairwise.nil

/-- **ENUMERATION**: walked mask by mask, the enumeration ends.  It holds the masks that are not
    zero, have the skipped bits clear and have at most the allowed number of bits, each of them
    once, by weight and by value within a weight; it is empty only without room or bits. -/
theorem enumeration_exact (c : Candidates) :
    (∃ count, (c.upTo count).length < count ∧ c.upTo count = c.toList)
      ∧ (∀ m, m ∈ c.toList ↔ m ≠ 0 ∧ (∀ i < c.skip, m.toNat.testBit i = false)
          ∧ Bits.weight m ≤ c.maxBits)
      ∧ c.toList.Nodup
      ∧ (c.toList.Pairwise fun x y =>
          Bits.weight x < Bits.weight y ∨ Bits.weight x = Bits.weight y ∧ x < y)
      ∧ (c.toList = [] ↔ 64 ≤ c.skip ∨ c.maxBits = 0) := by
  have hall : c.upTo (c.toList.length + 1) = c.toList := by
    rw [upTo_eq_take, List.take_of_length_le (Nat.le_succ _)]
  refine ⟨⟨_, by rw [hall]; exact Nat.lt_succ_self _, hall⟩, ?_, ?_, pairwise_toList c,
    toList_eq_nil_iff⟩
  · intro m
    rw [mem_toList, Within.iff_low_clear]
  · exact (pairwise_toList c).imp Precedes.ne

end Candidates

end DramBanks.Mask
