import DramBanks.Proofs.BankNumber
import DramBanks.Proofs.Mask.Greedy
import DramBanks.Proofs.Mask.Schedules
/-!
# Banks as a linear map

    The bank of an address is read bit by bit, and every bit is additive,
    so the bank is: it sends sums of addresses to sums of banks.  What lies
    inside a block has bank zero, since no derived mask has bits there.

    Independent masks can be read in every combination of values
    (`exists_reads_eq`): whatever the masks behind the first one are to
    read, an address that separates the first one from them corrects its
    value and leaves theirs alone.  So the banks are exactly the numbers
    with one bit for each mask, and the masks of a derived function are few
    enough for each to have a bit of the word. -/

namespace DramBanks.Mask

/-- **COMBINATIONS**: independent masks can be made to read any values. -/
theorem exists_reads_eq {ms : List Mask} (hind : Independent ms) (value : Nat → Bool) :
    ∃ a : Address, ∀ i m, ms[i]? = some m → reads m a = value i := by
  induction ms generalizing value with
  | nil => exact ⟨0, by simp⟩
  | cons m ms ih =>
      obtain ⟨hout, htail⟩ := independent_cons.mp hind
      obtain ⟨a, ha⟩ := ih htail fun i => value (i + 1)
      obtain ⟨d, -, hd, hdms⟩ :=
        exists_separating (fun k _ => Within.whole k) (Within.whole m) hout
      by_cases hm : reads m a = value 0
      · refine ⟨a, ?_⟩
        rintro (_ | i) k hk
        · cases hk
          exact hm
        · exact ha i k hk
      · refine ⟨a ^^^ d, ?_⟩
        rintro (_ | i) k hk
        · cases hk
          rw [reads_xor, hd, Bool.xor_true]
          exact Bool.not_eq.mpr hm
        · rw [reads_xor, hdms k (List.mem_of_getElem? hk), Bool.xor_false]
          exact ha i k hk

/-- A search finds candidates that the check accepts, and nothing else. -/
theorem of_mem_search {v : Validator} {c : Candidates} {threads : Nat} {found : List Mask}
    (h : search v c threads = .ok found) {m : Mask} (hm : m ∈ found) :
    m ∈ c.toList ∧ v.check m = .ok true := by
  by_cases hall : ∀ k ∈ c.toList, v.Checks k
  · have hcheck := fun k hk => Validator.check_of_checks (hall k hk)
    obtain ⟨found', hsearch, hperm⟩ := search_perm hcheck threads
    rw [h] at hsearch
    cases hsearch
    obtain ⟨hmem, haccepts⟩ := List.mem_filter.mp (hperm.mem_iff.mp hm)
    exact ⟨hmem, haccepts ▸ hcheck m hmem⟩
  · push Not at hall
    rw [search_of_not_checks hall] at h
    cases h

end DramBanks.Mask

namespace DramBanks.BankFunction

open Mask

/-! ## Sums of addresses -/

section Linear

variable {f : BankFunction} (h : f.masks.length ≤ 64)

include h

/-- Bit `i` of a bank is what mask `i` reads. -/
theorem testBit_bankOf (a : Address) (i : Nat) :
    (f.bankOf a).toNat.testBit i = (f.masks[i]?).any fun m => reads m a := by
  rw [bankOf, testBit_bankBits a f.masks 0 i (by omega)]
  simp

/-- **LINEARITY**: the bank of a sum is the sum of the banks. -/
theorem bankOf_xor (a b : Address) : f.bankOf (a ^^^ b) = f.bankOf a ^^^ f.bankOf b := by
  refine Bits.eq_of_testBit ?_
  intro i
  rw [UInt64.toNat_xor, Nat.testBit_xor, testBit_bankOf h, testBit_bankOf h, testBit_bankOf h]
  cases f.masks[i]? with
  | none => rfl
  | some m => exact reads_xor m a b

/-- A bank has no bits behind those of the masks. -/
theorem bankOf_lt (a : Address) : (f.bankOf a).toNat < 2 ^ f.masks.length := by
  refine Nat.lt_pow_two_of_testBit _ ?_
  intro i hi
  rw [testBit_bankOf h, List.getElem?_eq_none hi]
  rfl

/-- **RANGE**: the banks of independent masks are the numbers with one bit for each mask. -/
theorem exists_bankOf_iff (hind : Independent f.masks) {n : UInt64} :
    (∃ a, f.bankOf a = n) ↔ n.toNat < 2 ^ f.masks.length := by
  constructor
  · rintro ⟨a, rfl⟩
    exact bankOf_lt h a
  · intro hn
    obtain ⟨a, ha⟩ := exists_reads_eq hind n.toNat.testBit
    refine ⟨a, Bits.eq_of_testBit ?_⟩
    intro i
    rw [testBit_bankOf h]
    cases hi : f.masks[i]? with
    | some m => exact ha i m hi
    | none =>
        have hle := Nat.pow_le_pow_right Nat.two_pos (List.getElem?_eq_none_iff.mp hi)
        exact (Nat.testBit_lt_two_pow (Nat.lt_of_lt_of_le hn hle)).symm

end Linear

/-! ## Derived functions -/

/-- A derived function is that of the basis of accepted candidates. -/
theorem exists_found_of_derive {groups : List (List Address)} {blockSize percentage : UInt64}
    {maxBits threads : Nat} {f : BankFunction}
    (h : derive groups blockSize percentage maxBits threads = .ok f) :
    ∃ found, f = ofMasks groups blockSize (basis found)
      ∧ ∀ m ∈ found, m ∈ Candidates.toList ⟨skippedBits blockSize, maxBits⟩
        ∧ Validator.check ⟨groups, percentage⟩ m = .ok true := by
  cases hsearch : search ⟨groups, percentage⟩ ⟨skippedBits blockSize, maxBits⟩ threads with
  | error e =>
      rw [derive, hsearch] at h
      cases h
  | ok found =>
      rw [derive, hsearch] at h
      cases h
      exact ⟨found, rfl, fun m hm => of_mem_search hsearch hm⟩

/-- **BANKS** of a function that was derived at a block size of `2 ^ s`: each mask has a bit of the
    word, banks of sums are sums of banks, the bits inside a block do not matter, and the banks
    are the numbers with one bit for each mask.  In particular a complete function has an address
    in every bank. -/
theorem derived_bank_is_linear {groups : List (List Address)} {blockSize percentage : UInt64}
    {maxBits threads s : Nat} {f : BankFunction} (hblock : blockSize.toNat = 2 ^ s)
    (h : derive groups blockSize percentage maxBits threads = .ok f) :
    (∀ i < f.masks.length, i < 64)
      ∧ (∀ a b, f.bankOf (a ^^^ b) = f.bankOf a ^^^ f.bankOf b)
      ∧ (∀ a d : Address, d.toNat < 2 ^ s → f.bankOf (a ^^^ d) = f.bankOf a)
      ∧ (∀ n, (∃ a, f.bankOf a = n) ↔ n.toNat < 2 ^ f.masks.length)
      ∧ (f.isComplete = true → ∀ i < f.bankCount, ∃ a, (f.bankOf a).toNat = i) := by
  obtain ⟨found, rfl, hfound⟩ := exists_found_of_derive h
  have hind : Independent (ofMasks groups blockSize (basis found)).masks :=
    (isBasis_basis found).independent
  have hlen := hind.length_le
  have hrange := fun n => exists_bankOf_iff hlen hind (n := n)
  refine ⟨fun i hi => Nat.lt_of_lt_of_le hi hlen, bankOf_xor hlen, ?_, hrange, ?_⟩
  · intro a d hd
    rw [bankOf_eq_iff hlen]
    intro m hm
    have hwithin := (Candidates.mem_toList.mp (hfound m (basis_subset found hm)).1).2.1
    rw [skippedBits_eq hblock] at hwithin
    rw [reads_xor, reads_of_low hwithin hd, Bool.xor_false]
  · intro hcomplete i hi
    obtain ⟨hlt, hcount⟩ := isComplete_iff.mp hcomplete
    have hword : i < 2 ^ 64 :=
      Nat.lt_of_lt_of_le (hcount ▸ hi) (Nat.pow_le_pow_right Nat.two_pos hlen)
    have hofNat : (UInt64.ofNat i).toNat = i := UInt64.toNat_ofNat_of_lt' hword
    obtain ⟨a, ha⟩ := (hrange (UInt64.ofNat i)).mpr (by rw [hofNat, hcount]; exact hi)
    exact ⟨a, by rw [ha, hofNat]⟩

/-- Four banks, which bits 1 and 2 tell apart, at two bytes a block. -/
theorem derived_bank_is_linear_four_banks :
    ∃ f, derive [[0, 1], [2], [5, 4], [6]] 2 0 1 1 = .ok f ∧ f.masks = [2, 4]
      ∧ (∀ i < f.masks.length, i < 64)
      ∧ (∀ a b, f.bankOf (a ^^^ b) = f.bankOf a ^^^ f.bankOf b)
      ∧ (∀ a d : Address, d.toNat < 2 ^ 1 → f.bankOf (a ^^^ d) = f.bankOf a)
      ∧ (∀ n, (∃ a, f.bankOf a = n) ↔ n.toNat < 2 ^ f.masks.length)
      ∧ (f.isComplete = true → ∀ i < f.bankCount, ∃ a, (f.bankOf a).toNat = i) := by
  have hblock : (2 : UInt64).toNat = 2 ^ 1 := by decide
  have hsearch : search ⟨[[0, 1], [2], [5, 4], [6]], 0⟩ ⟨skippedBits 2, 1⟩ 1 = .ok [2, 4] := by
    rw [search, Candidates.toList_eq_upTo 65 (by decide +kernel)]
    decide +kernel
  have hbasis : basis [2, 4] = [2, 4] := by
    rw [basis, ascending, List.mergeSort_of_pairwise (by decide)]
    rfl
  have hderive : derive [[0, 1], [2], [5, 4], [6]] 2 0 1 1
      = .ok (ofMasks [[0, 1], [2], [5, 4], [6]] 2 [2, 4]) := by
    rw [derive, hsearch, Except.map, hbasis]
  exact ⟨_, hderive, rfl, derived_bank_is_linear hblock hderive⟩

end DramBanks.BankFunction
