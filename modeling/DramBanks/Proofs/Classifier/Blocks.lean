import DramBanks.Classifier.BlockSize
import Mathlib.Algebra.Group.Nat.Defs
import Mathlib.Data.List.Flatten
import Mathlib.Data.List.Nodup
import Mathlib.Data.List.Perm.Basic
/-!
# Blocks cut into smaller blocks

    A classifier works on the starts of aligned blocks.  The CUT of blocks
    at a smaller step is the list of the addresses in them that lie on a
    boundary of this step (`IsBlocks.mem_cut`): it has no repetition, and
    cutting in several steps comes to the same as cutting in one.

    Blocks (`IsBlocks`) have a size that is a power of two and lie in one
    bank each, so the addresses of a cut have the banks of the starts. -/

namespace DramBanks.Classifier

theorem toNat_pos_iff {a : UInt64} : 0 < a.toNat ↔ a ≠ 0 :=
  UInt64.lt_iff_toNat_lt.symm.trans UInt64.pos_iff_ne_zero

/-! ## Progressions -/

theorem toNat_add_mul {start step : UInt64} {i : Nat}
    (h : start.toNat + i * step.toNat < 2 ^ 64) :
    (start + UInt64.ofNat i * step).toNat = start.toNat + i * step.toNat := by
  rw [UInt64.toNat_add, UInt64.toNat_mul, UInt64.toNat_ofNat', Nat.mod_mul_mod,
    Nat.mod_eq_of_lt (a := i * step.toNat) (by omega), Nat.mod_eq_of_lt h]

/-- The boundary at or in front of an address. -/
theorem toNat_div_mul (a size : UInt64) :
    (a / size * size).toNat = a.toNat / size.toNat * size.toNat := by
  have hle := Nat.div_mul_le_self a.toNat size.toNat
  have hlt := UInt64.toNat_lt a
  rw [UInt64.toNat_mul, UInt64.toNat_div, Nat.mod_eq_of_lt (by omega)]

theorem progression_succ (start step : UInt64) (n : Nat) :
    progression start step (n + 1)
      = start :: (List.range n).map fun i => start + UInt64.ofNat (i + 1) * step := by
  rw [progression, List.range_succ_eq_map, List.map_cons, List.map_map]
  refine congrArg₂ _ ?_ rfl
  show start + 0 * step = start
  rw [UInt64.zero_mul, UInt64.add_zero]

theorem progression_add (start step : UInt64) (m n : Nat) :
    progression start step (m + n)
      = progression start step m ++ progression (start + UInt64.ofNat m * step) step n := by
  rw [progression, List.range_add, List.map_append, List.map_map, progression, progression]
  refine congrArg _ (List.map_congr_left fun i _ => ?_)
  show start + UInt64.ofNat (m + i) * step = start + UInt64.ofNat m * step + UInt64.ofNat i * step
  rw [UInt64.ofNat_add, UInt64.add_mul, UInt64.add_assoc]

/-- Cutting every block of a progression gives a progression. -/
theorem flatMap_progression {size step : UInt64} {k : Nat} (h : size = UInt64.ofNat k * step)
    (start : Address) (n : Nat) :
    (progression start size n).flatMap (fun a => progression a step k)
      = progression start step (n * k) := by
  induction n with
  | zero => rw [Nat.zero_mul]; rfl
  | succ n ih =>
      rw [progression_add, List.flatMap_append, ih, Nat.succ_mul, progression_add,
        UInt64.ofNat_mul, UInt64.mul_assoc, ← h]
      simp [progression]

/-- The members of a progression that does not leave the word. -/
theorem mem_progression_iff {start step : UInt64} {n : Nat}
    (h : start.toNat + n * step.toNat ≤ 2 ^ 64) (hstep : 0 < step.toNat) {a : Address} :
    a ∈ progression start step n ↔ ∃ i < n, a.toNat = start.toNat + i * step.toNat := by
  have hroom : ∀ i < n, start.toNat + i * step.toNat < 2 ^ 64 := by
    intro i hi
    have hmul : (i + 1) * step.toNat ≤ n * step.toNat := Nat.mul_le_mul_right _ hi
    rw [Nat.succ_mul] at hmul
    omega
  rw [progression, List.mem_map]
  constructor
  · rintro ⟨i, hi, rfl⟩
    rw [List.mem_range] at hi
    exact ⟨i, hi, toNat_add_mul (hroom i hi)⟩
  · rintro ⟨i, hi, ha⟩
    refine ⟨i, List.mem_range.mpr hi, UInt64.toNat_inj.mp ?_⟩
    rw [toNat_add_mul (hroom i hi), ha]

/-- A progression that does not leave the word ascends. -/
theorem pairwise_progression {start step : UInt64} {n : Nat}
    (h : start.toNat + n * step.toNat ≤ 2 ^ 64) (hstep : 0 < step.toNat) :
    (progression start step n).Pairwise fun a x => a.toNat + step.toNat ≤ x.toNat := by
  rw [progression, List.pairwise_map]
  refine List.pairwise_lt_range.imp_of_mem ?_
  intro i j hi hj hij
  rw [List.mem_range] at hi hj
  have hmul : (j + 1) * step.toNat ≤ n * step.toNat := Nat.mul_le_mul_right _ hj
  have hle : (i + 1) * step.toNat ≤ j * step.toNat := Nat.mul_le_mul_right _ hij
  rw [Nat.succ_mul] at hmul hle
  rw [toNat_add_mul (by omega), toNat_add_mul (by omega)]
  omega

/-! ## Blocks -/

/-- Aligned blocks of a power of two bytes, each of which lies in one bank. -/
structure IsBlocks {β : Type} (bank : Address → β) (size : UInt64) (starts : List Address) :
    Prop where
  power : ∃ k, size.toNat = 2 ^ k
  nodup : starts.Nodup
  aligned : ∀ a ∈ starts, size.toNat ∣ a.toNat
  constant : ∀ a x, a / size = x / size → bank a = bank x

/-- The addresses of the blocks at `starts`, `step` apart. -/
def cut (size step : UInt64) (starts : List Address) : List Address :=
  starts.flatMap fun start => progression start step (size.toNat / step.toNat)

variable {size step : UInt64} {starts : List Address}

theorem cut_self (h : 0 < size.toNat) : cut size size starts = starts := by
  have hone : ∀ start, progression start size (size.toNat / size.toNat) = [start] := by
    intro start
    rw [Nat.div_self h]
    show [start + 0 * size] = [start]
    rw [UInt64.zero_mul, UInt64.add_zero]
  simp [cut, hone]

theorem eq_ofNat_mul {size step : UInt64} (h : step.toNat ∣ size.toNat) :
    size = UInt64.ofNat (size.toNat / step.toNat) * step := by
  refine UInt64.toNat_inj.mp ?_
  rw [UInt64.toNat_mul, UInt64.toNat_ofNat', Nat.mod_mul_mod, Nat.div_mul_cancel h,
    Nat.mod_eq_of_lt (UInt64.toNat_lt size)]

/-- Cutting in two steps is cutting in one. -/
theorem cut_cut {old new : UInt64} (hpos : 0 < old.toNat) (hold : old.toNat ∣ size.toNat)
    (hnew : new.toNat ∣ old.toNat) : cut old new (cut size old starts) = cut size new starts := by
  have hcount : size.toNat / old.toNat * (old.toNat / new.toNat) = size.toNat / new.toNat := by
    obtain ⟨q, hq⟩ := hold
    obtain ⟨p, hp⟩ := hnew
    have hnewpos : 0 < new.toNat := Nat.pos_of_mul_pos_right (hp ▸ hpos)
    rw [hq, Nat.mul_div_cancel_left _ hpos, hp, Nat.mul_div_cancel_left _ hnewpos, Nat.mul_assoc,
      Nat.mul_div_cancel_left _ hnewpos, Nat.mul_comm]
  rw [cut, cut, List.flatMap_assoc, cut]
  congr 1
  funext start
  rw [flatMap_progression (eq_ofNat_mul hnew), hcount]

theorem exponent_lt {k : Nat} (h : size.toNat = 2 ^ k) : k < 64 := by
  have hlt := UInt64.toNat_lt size
  rw [h] at hlt
  exact (Nat.pow_lt_pow_iff_right Nat.one_lt_two).mp hlt

theorem toNat_ofNat_two_pow {k : Nat} (h : k < 64) : (UInt64.ofNat (2 ^ k)).toNat = 2 ^ k :=
  UInt64.toNat_ofNat_of_lt' (Nat.pow_lt_pow_right Nat.one_lt_two h)

/-- An aligned block of a power of two bytes ends inside the word. -/
theorem add_size_le {a : Address} (hpower : ∃ k, size.toNat = 2 ^ k) (h : size.toNat ∣ a.toNat) :
    a.toNat + size.toNat ≤ 2 ^ 64 := by
  obtain ⟨k, hk⟩ := hpower
  have hdvd : size.toNat ∣ 2 ^ 64 := hk ▸ Nat.pow_dvd_pow 2 (Nat.le_of_lt (exponent_lt hk))
  obtain ⟨q, hq⟩ := h
  obtain ⟨w, hw⟩ := hdvd
  have hlt := UInt64.toNat_lt a
  rw [hq, hw] at hlt ⊢
  rw [← Nat.mul_succ]
  exact Nat.mul_le_mul_left _ (Nat.lt_of_mul_lt_mul_left hlt)

theorem pos_of_power (hpower : ∃ k, size.toNat = 2 ^ k) : 0 < size.toNat := by
  obtain ⟨k, hk⟩ := hpower
  rw [hk]
  exact Nat.two_pow_pos k

/-- The addresses of one aligned block, `step` apart. -/
theorem mem_progression_block {start a : Address} (hpower : ∃ k, size.toNat = 2 ^ k)
    (halign : size.toNat ∣ start.toNat) (hstep : step.toNat ∣ size.toNat) :
    a ∈ progression start step (size.toNat / step.toNat) ↔
      step.toNat ∣ a.toNat ∧ start / size = a / size := by
  have hpos := pos_of_power hpower
  have hsteppos : 0 < step.toNat := Nat.pos_of_dvd_of_pos hstep hpos
  have hend := add_size_le hpower halign
  have hlen : size.toNat / step.toNat * step.toNat = size.toNat := Nat.div_mul_cancel hstep
  rw [mem_progression_iff (by omega) hsteppos, ← UInt64.toNat_inj, UInt64.toNat_div,
    UInt64.toNat_div]
  constructor
  · rintro ⟨i, hi, ha⟩
    have hlt : i * step.toNat < size.toNat := by
      rw [← hlen]
      exact Nat.mul_lt_mul_of_pos_right hi hsteppos
    obtain ⟨q, hq⟩ := halign
    refine ⟨?_, ?_⟩
    · rw [ha]
      exact Nat.dvd_add (Nat.dvd_trans hstep ⟨q, hq⟩) (Nat.dvd_mul_left _ _)
    · rw [ha, hq, Nat.mul_div_cancel_left _ hpos, Nat.mul_add_div hpos, Nat.div_eq_of_lt hlt,
        Nat.add_zero]
  · rintro ⟨hdvd, hblock⟩
    have hstart : a.toNat / size.toNat * size.toNat = start.toNat := by
      rw [← hblock]
      exact Nat.div_mul_cancel halign
    have hmod := Nat.mod_lt a.toNat hpos
    have hsplit := Nat.div_add_mod' a.toNat size.toNat
    rw [hstart] at hsplit
    obtain ⟨i, hi⟩ : step.toNat ∣ a.toNat % size.toNat :=
      (Nat.dvd_mod_iff hstep).mpr hdvd
    refine ⟨i, ?_, by rw [Nat.mul_comm, ← hi]; omega⟩
    rw [Nat.lt_div_iff_mul_lt' hstep]
    omega

/-- The addresses of aligned blocks, `step` apart, are those on a boundary of `step` that lie in
    one of the blocks. -/
theorem mem_cut_iff (hpower : ∃ k, size.toNat = 2 ^ k)
    (halign : ∀ start ∈ starts, size.toNat ∣ start.toNat) (hstep : step.toNat ∣ size.toNat)
    {a : Address} : a ∈ cut size step starts ↔
      step.toNat ∣ a.toNat ∧ ∃ start ∈ starts, start / size = a / size := by
  rw [cut, List.mem_flatMap]
  constructor
  · rintro ⟨start, hstart, ha⟩
    obtain ⟨hdvd, hblock⟩ := (mem_progression_block hpower (halign start hstart) hstep).mp ha
    exact ⟨hdvd, start, hstart, hblock⟩
  · rintro ⟨hdvd, start, hstart, hblock⟩
    exact ⟨start, hstart,
      (mem_progression_block hpower (halign start hstart) hstep).mpr ⟨hdvd, hblock⟩⟩

namespace IsBlocks

variable {β : Type} {bank : Address → β} (h : IsBlocks bank size starts)
include h

theorem mem_cut (hstep : step.toNat ∣ size.toNat) {a : Address} :
    a ∈ cut size step starts ↔
      step.toNat ∣ a.toNat ∧ ∃ start ∈ starts, start / size = a / size :=
  mem_cut_iff h.power h.aligned hstep

/-- Aligned starts of one block are equal. -/
theorem eq_of_div_eq {a x : Address} (ha : a ∈ starts) (hx : x ∈ starts)
    (heq : a / size = x / size) : a = x := by
  rw [← UInt64.toNat_inj, UInt64.toNat_div, UInt64.toNat_div] at heq
  rw [← UInt64.toNat_inj, ← Nat.div_mul_cancel (h.aligned a ha), heq,
    Nat.div_mul_cancel (h.aligned x hx)]

theorem nodup_cut (hstep : step.toNat ∣ size.toNat) : (cut size step starts).Nodup := by
  have hpos := pos_of_power h.power
  have hsteppos : 0 < step.toNat := Nat.pos_of_dvd_of_pos hstep hpos
  refine List.nodup_flatMap.mpr ⟨?_, ?_⟩
  · intro start hstart
    have hend := add_size_le h.power (h.aligned start hstart)
    have hasc := pairwise_progression (n := size.toNat / step.toNat)
      (by rw [Nat.div_mul_cancel hstep]; exact hend) hsteppos
    refine hasc.imp ?_
    rintro a x hle rfl
    omega
  · refine h.nodup.imp_of_mem ?_
    intro start start' hs hs' hne a ha ha'
    obtain ⟨-, hblock⟩ := (mem_progression_block h.power (h.aligned start hs) hstep).mp ha
    obtain ⟨-, hblock'⟩ := (mem_progression_block h.power (h.aligned start' hs') hstep).mp ha'
    exact hne (h.eq_of_div_eq hs hs' (hblock.trans hblock'.symm))

end IsBlocks

end DramBanks.Classifier
