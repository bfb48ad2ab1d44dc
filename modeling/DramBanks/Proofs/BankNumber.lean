import DramBanks.BankFunction
import DramBanks.Proofs.Parity
/-!
# Banks as numbers

    The bank of an address is the number whose bit `i` is the parity under
    mask `i`.  At most 64 masks have room in a word, so equal banks are
    equal parities (`bankOf_eq_iff`).  A group that a mask reads in one
    way has this reading as its dominant parity. -/

namespace DramBanks.BankFunction

open Mask

/-! ## The bank of an address -/

theorem testBit_shifted_parity (m : Mask) (a : Address) {i : Nat} (hi : i < 64) (j : Nat) :
    (Bits.parity (a &&& m) <<< UInt64.ofNat i).toNat.testBit j = (decide (j = i) && reads m a) := by
  have hshift : ∀ k : Fin 64, (1 : UInt64) <<< UInt64.ofNat k = Bits.bit k := fun _ => rfl
  rw [parity_eq_reads]
  cases reads m a with
  | false => simp
  | true =>
      rw [if_pos rfl, hshift ⟨i, hi⟩, Bits.testBit_bit hi, Bool.and_true]
      simp only [eq_comm]

/-- Bit `j` of a bank is what the mask at that position reads. -/
theorem testBit_bankBits (a : Address) (ms : List Mask) (i j : Nat) (h : i + ms.length ≤ 64) :
    (bankBits a ms i).toNat.testBit j =
      (decide (i ≤ j) && (ms[j - i]?).any fun m => reads m a) := by
  induction ms generalizing i with
  | nil => simp [bankBits]
  | cons m ms ih =>
      rw [List.length_cons] at h
      rw [bankBits, UInt64.toNat_or, Nat.testBit_or, testBit_shifted_parity m a (by omega),
        ih (i + 1) (by omega)]
      -- a bit below those of the masks, that of `m`, or one of those behind it
      rcases Nat.lt_trichotomy j i with hlt | rfl | hgt
      · simp [Nat.ne_of_lt hlt, Nat.not_le_of_lt hlt, Nat.not_le_of_lt (Nat.lt_succ_of_lt hlt)]
      · simp
      · obtain ⟨k, rfl⟩ := Nat.exists_eq_add_of_lt hgt
        have hsub : i + k + 1 - i = k + 1 := by omega
        have hsub' : i + k + 1 - (i + 1) = k := by omega
        have hne : i + k + 1 ≠ i := by omega
        have hle : i + 1 ≤ i + k + 1 := by omega
        have hle' : i ≤ i + k + 1 := by omega
        rw [hsub, hsub', List.getElem?_cons_succ]
        simp [hne, hle, hle']

/-- Two addresses lie in one bank exactly when all masks read them alike. -/
theorem bankOf_eq_iff {f : BankFunction} (h : f.masks.length ≤ 64) {a b : Address} :
    f.bankOf a = f.bankOf b ↔ ∀ m ∈ f.masks, reads m a = reads m b := by
  have hbit := fun x j => testBit_bankBits x f.masks 0 j (by omega)
  constructor
  · intro heq m hm
    obtain ⟨j, hj⟩ := List.mem_iff_getElem?.mp hm
    have hsame := congrArg (fun x => x.toNat.testBit j) heq
    simp only [bankOf, hbit, Nat.sub_zero, hj] at hsame
    simpa using hsame
  · intro hall
    refine Bits.eq_of_testBit ?_
    intro j
    rw [bankOf, bankOf, hbit, hbit]
    cases hj : f.masks[j - 0]? with
    | none => rfl
    | some m => simp [hall m (List.mem_of_getElem? hj)]

/-! ## Completeness -/

theorem isComplete_iff {f : BankFunction} :
    f.isComplete = true ↔ f.masks.length < 64 ∧ 2 ^ f.masks.length = f.bankCount := by
  rw [isComplete, Bool.and_eq_true, decide_eq_true_eq, beq_iff_eq, Nat.one_shiftLeft]

/-- A block size of `2 ^ s` skips `s` bits. -/
theorem skippedBits_eq {s : Nat} {blockSize : UInt64} (h : blockSize.toNat = 2 ^ s) :
    skippedBits blockSize = s := by
  rw [skippedBits, Bits.log2Floor]
  by_cases hs : s = 0
  · subst hs
    have hone : blockSize = 1 := UInt64.toNat_inj.mp h
    rw [hone]
    rfl
  · have htwo : 2 ^ 1 ≤ 2 ^ s := Nat.pow_le_pow_right Nat.two_pos (Nat.pos_of_ne_zero hs)
    rw [if_neg (by rw [UInt64.lt_iff_toNat_lt, h]; exact Nat.not_lt_of_le htwo)]
    show blockSize.toNat.log2 = s
    rw [h, Nat.log2_two_pow]

/-! ## Parities of groups -/

/-- A group that is read in one way has this as its dominant parity. -/
theorem dominantParity_eq {m : Mask} {group : List Address} {r : Bool} (hne : group ≠ [])
    (h : ∀ a ∈ group, reads m a = r) : dominantParity m group = if r then 1 else 0 := by
  have hcount : (group.countP fun a => Bits.parity (a &&& m) == 1)
      = if r then group.length else 0 := by
    cases r with
    | true =>
        rw [if_pos rfl, List.countP_eq_length]
        exact h
    | false =>
        rw [if_neg Bool.false_ne_true, List.countP_eq_zero]
        intro a ha
        have hread : (Bits.parity (a &&& m) == 1) = false := h a ha
        rw [hread]
        exact Bool.false_ne_true
  have hpos := List.length_pos_iff.mpr hne
  rw [dominantParity]
  simp only [hcount]
  cases r with
  | true =>
      rw [if_pos rfl, if_pos rfl, if_pos (by omega)]
  | false => rfl

/-- Two rows of parities agree where their masks read the groups alike. -/
theorem agreeInHalf_iff {groups : List (List Address)} {m n : Mask} :
    agreeInHalf (dominantParities groups m) (dominantParities groups n) = true ↔
      (groups.countP fun g => dominantParity m g == dominantParity n g) * 2 = groups.length := by
  rw [agreeInHalf, dominantParities, dominantParities, List.zip_map', List.countP_map,
    List.length_map, beq_iff_eq]
  rfl

theorem pairwiseHalf_iff {rows : List (List UInt64)} :
    pairwiseHalf rows = true ↔ rows.Pairwise fun a b => agreeInHalf a b = true := by
  induction rows with
  | nil => simp [pairwiseHalf]
  | cons row rows ih =>
      rw [pairwiseHalf, Bool.and_eq_true, ih, List.all_eq_true, List.pairwise_cons]

end DramBanks.BankFunction
