import DramBanks.Proofs.BankMap
/-!
# Reported parities

    A function reports one parity for every group under each of its masks:
    that of the majority, where a tie counts as 0.  The check that accepted
    the mask looked at the groups in another way, from the first member on
    and with a tolerance, and the bank of an address is read bit by bit.

    The three agree.  In a settled group one of the sides is within the
    tolerance, and the majority leaves out the smaller side, so no more
    members than tolerated have a bit of their bank that is not the reported
    one (`minority_le_tolerated`).  Below a tolerance of one half the side
    that a group leans to is its majority (`dominantParity_eq_of_settled`),
    so the reported parities split the groups evenly, as the check has it. -/

namespace DramBanks.BankFunction

open Mask

/-- Bit `i` of the bank of an address, as a parity. -/
def bankBit (f : BankFunction) (i : Nat) (a : Address) : UInt64 :=
  if (f.bankOf a).toNat.testBit i then 1 else 0

theorem bankBit_eq {f : BankFunction} (h : f.masks.length ≤ 64) {i : Nat} {m : Mask}
    (hi : f.masks[i]? = some m) (a : Address) : f.bankBit i a = Bits.parity (a &&& m) := by
  rw [bankBit, testBit_bankOf h, hi, parity_eq_reads]
  rfl

/-! ## Groups -/

section Groups

variable {v : Validator} {m : Mask} {g : List Address}

/-- The majority parity of a group, by what its members are read as. -/
theorem dominantParity_eq_ite (m : Mask) (g : List Address) :
    dominantParity m g = if g.length - g.countP (reads m) < g.countP (reads m) then 1 else 0 :=
  rfl

theorem dominantParity_eq_zero_or_one (m : Mask) (g : List Address) :
    dominantParity m g = 0 ∨ dominantParity m g = 1 := by
  rw [dominantParity_eq_ite]
  split
  · exact Or.inr rfl
  · exact Or.inl rfl

/-- The members that are not of the majority parity are the smaller side. -/
theorem countP_ne_dominantParity (m : Mask) (g : List Address) :
    (g.countP fun a => Bits.parity (a &&& m) != dominantParity m g)
      = min (g.countP (reads m)) (g.length - g.countP (reads m)) := by
  have hall := List.length_eq_countP_add_countP (reads m) (l := g)
  rw [dominantParity_eq_ite]
  split
  · next hlt =>
      have hzeroes : (g.countP fun a => Bits.parity (a &&& m) != 1)
          = g.countP fun a => ¬ reads m a := by
        refine List.countP_congr fun a _ => ?_
        rw [parity_eq_reads]
        cases reads m a <;> simp
      rw [hzeroes, Nat.min_eq_right (Nat.le_of_lt hlt)]
      omega
  · next hle =>
      have hones : (g.countP fun a => Bits.parity (a &&& m) != 0) = g.countP (reads m) := by
        refine List.countP_congr fun a _ => ?_
        rw [parity_eq_reads]
        cases reads m a <;> simp
      rw [hones, Nat.min_eq_left (Nat.le_of_not_lt hle)]

/-- **MINORITY**: no more members of a settled group than tolerated are not of its majority
    parity. -/
theorem minority_le_tolerated (h : v.settled m g = true) :
    (g.countP fun a => Bits.parity (a &&& m) != dominantParity m g) ≤ v.tolerated g.length := by
  rw [countP_ne_dominantParity]
  rcases Validator.settled_iff.mp h with hones | hzeroes
  · exact Nat.le_trans (Nat.min_le_left _ _) hones
  · exact Nat.le_trans (Nat.min_le_right _ _) (Nat.sub_le_of_le_add (Nat.add_comm _ _ ▸ hzeroes))

/-- Below a tolerance of one half, the majority of a settled group is the side that it leans
    to. -/
theorem dominantParity_eq_of_settled (h : v.settled m g = true)
    (ht : 2 * v.tolerated g.length < g.length) :
    dominantParity m g = if v.leansOne m g then 1 else 0 := by
  have hle := List.countP_le_length (p := reads m) (l := g)
  have hsides := Validator.settled_iff.mp h
  have hleans := Validator.leansOne_iff h ht
  rw [dominantParity_eq_ite]
  cases hone : v.leansOne m g with
  | true =>
      have hmost := hleans.mp hone
      rw [if_pos (by omega), if_pos rfl]
  | false =>
      have hfew : ¬ g.length ≤ g.countP (reads m) + v.tolerated g.length :=
        fun hmost => by rw [hleans.mpr hmost] at hone; cases hone
      rw [if_neg (by omega), if_neg Bool.false_ne_true]

end Groups

/-! ## Rows -/

section Rows

variable {v : Validator} {m : Mask}

/-- Below a tolerance of one half, a row has a one for every group that leans to one, and a zero
    for every other group. -/
theorem count_dominantParities (hp : v.errorPercentage < 50) (hfilled : ∀ g ∈ v.groups, g ≠ [])
    (hsettled : ∀ g ∈ v.groups, v.settled m g = true) :
    (dominantParities v.groups m).count 1 = v.groups.countP (v.leansOne m)
      ∧ (dominantParities v.groups m).count 0 = v.groups.countP (v.leansZero m) := by
  have hparity : ∀ g ∈ v.groups, dominantParity m g = if v.leansOne m g then 1 else 0 := by
    intro g hg
    exact dominantParity_eq_of_settled (hsettled g hg)
      (Validator.tolerated_lt hp (List.length_pos_iff.mpr (hfilled g hg)))
  rw [dominantParities, List.count_eq_countP, List.count_eq_countP, List.countP_map,
    List.countP_map]
  constructor
  · refine List.countP_congr fun g hg => ?_
    rw [Function.comp_apply, hparity g hg]
    cases v.leansOne m g <;> simp
  · refine List.countP_congr fun g hg => ?_
    have hempty : g.isEmpty = false := by simpa using hfilled g hg
    rw [Function.comp_apply, hparity g hg, Validator.leansZero, hempty]
    cases v.leansOne m g <;> simp

/-- A row has nothing but zeroes and ones. -/
theorem count_one_add_count_zero (groups : List (List Address)) (m : Mask) :
    (dominantParities groups m).count 1 + (dominantParities groups m).count 0 = groups.length := by
  have hother : (groups.countP fun g => dominantParity m g == 0)
      = groups.countP fun g => ¬ (dominantParity m g == 1) := by
    refine List.countP_congr fun g _ => ?_
    rcases dominantParity_eq_zero_or_one m g with h | h <;> simp [h]
  rw [dominantParities, List.count_eq_countP, List.count_eq_countP, List.countP_map,
    List.countP_map, List.length_eq_countP_add_countP fun g => dominantParity m g == 1]
  exact congrArg _ hother

end Rows

/-! ## Derived functions -/

/-- **REPORTED PARITIES** of the function that is derived at any percentage up to one hundred:
    there is a row for every mask with a parity for every group, and in no group more than the
    tolerated share of the members has a bank whose bit for this mask is another one.  Below fifty
    percent and without empty groups, every row has as many ones as zeroes, and nothing else. -/
theorem reported_within_tolerance {groups : List (List Address)} {percentage : UInt64}
    (hp : percentage ≤ 100) (hsize : ∀ g ∈ groups, g.length * 100 < 2 ^ 64) (blockSize : UInt64)
    (maxBits threads : Nat) :
    ∃ f, derive groups blockSize percentage maxBits threads = .ok f
      ∧ f.parities.length = f.masks.length
      ∧ ∀ i < f.masks.length, ∃ row, f.parities[i]? = some row
        ∧ List.Forall₂ (fun g p => (g.countP fun a => f.bankBit i a != p)
            ≤ g.length * percentage.toNat / 100) groups row
        ∧ (percentage < 50 → (∀ g ∈ groups, g ≠ []) →
            row.count 1 = row.count 0 ∧ row.count 1 + row.count 0 = groups.length) := by
  have hm := Validator.measurable_of_percentage (v := ⟨groups, percentage⟩) hp hsize
  obtain ⟨masks, hderive, hchecked, hbasis⟩ := derive_eq hm blockSize maxBits threads
  have hlen : (ofMasks groups blockSize masks).masks.length ≤ 64 := hbasis.independent.length_le
  refine ⟨_, hderive, List.length_map _, ?_⟩
  intro i hi
  obtain ⟨m, hmask⟩ : ∃ m, masks[i]? = some m := ⟨_, List.getElem?_eq_getElem hi⟩
  obtain ⟨hsettled, -, heven, -⟩ :=
    (Validator.check_eq_true_iff hm).mp (hchecked m (List.mem_of_getElem? hmask))
  refine ⟨dominantParities groups m, ?_, ?_, ?_⟩
  · show (masks.map (dominantParities groups))[i]? = _
    rw [List.getElem?_map, hmask]
    rfl
  · rw [dominantParities, List.forall₂_map_right_iff, List.forall₂_same]
    intro g hg
    simp only [bankBit_eq hlen hmask]
    exact minority_le_tolerated (hsettled g hg)
  · intro hlt hfilled
    obtain ⟨hones, hzeroes⟩ :=
      count_dominantParities (v := ⟨groups, percentage⟩) hlt hfilled hsettled
    exact ⟨by rw [hones, hzeroes, heven], count_one_add_count_zero groups m⟩

/-- Two groups of three with the lowest bit as their mask, of which the first has a member on the
    other side: one of three is within 49 percent. -/
theorem reported_within_tolerance_one_stray :
    ∃ f, derive [[1, 0, 2], [1, 3, 5]] 1 49 1 1 = .ok f ∧ f.masks = [1]
      ∧ f.parities.length = f.masks.length
      ∧ ∀ i < f.masks.length, ∃ row, f.parities[i]? = some row
        ∧ List.Forall₂ (fun g p => (g.countP fun a => f.bankBit i a != p)
            ≤ g.length * 49 / 100) [[1, 0, 2], [1, 3, 5]] row
        ∧ (row.count 1 = row.count 0 ∧ row.count 1 + row.count 0 = 2) := by
  have hsearch : search ⟨[[1, 0, 2], [1, 3, 5]], 49⟩ ⟨skippedBits 1, 1⟩ 1 = .ok [1] := by
    rw [search, Candidates.toList_eq_upTo 65 (by decide +kernel)]
    decide +kernel
  have hmasks : derive [[1, 0, 2], [1, 3, 5]] 1 49 1 1
      = .ok (ofMasks [[1, 0, 2], [1, 3, 5]] 1 [1]) := by
    rw [derive, hsearch, Except.map, basis, ascending, List.mergeSort_singleton]
    rfl
  have hpercentage : (49 : UInt64) ≤ 100 := by decide
  have hsize : ∀ g ∈ [[1, 0, 2], [1, 3, 5]], (g : List Address).length * 100 < 2 ^ 64 := by decide
  obtain ⟨f, hderive, hlength, hrows⟩ := reported_within_tolerance hpercentage hsize 1 1 1
  obtain rfl := Except.ok.inj (hmasks.symm.trans hderive)
  refine ⟨_, hderive, rfl, hlength, ?_⟩
  intro i hi
  obtain ⟨row, hrow, hwithin, heven⟩ := hrows i hi
  exact ⟨row, hrow, hwithin, heven (by decide) (by decide)⟩

end DramBanks.BankFunction
