import DramBanks.Mask.WordCheck
import DramBanks.Proofs.Mask.Verdict
/-!
# Giving up early

    The check leaves a group before its end when neither parity can become
    dominant any more.  In words this needs care: the errors are added to
    the members that are left, and the tolerance is taken off the size.
    Both stay inside the word, since errors and members left are no more
    than there are members, and the tolerance is only taken off once the
    errors exceed it (`isLostInWords_eq`).  So counting in words is counting
    (`countInWords?_eq`), and the check in words is the check.

    What the check decides is the verdict of the full counts (`check_eq`),
    for every percentage up to one hundred. -/

namespace DramBanks.Mask.Validator

/-! ## Counting in words -/

theorem tallyInWords_eq (mask : Mask) (parity : UInt64) (a : Address) {errors : UInt64}
    (h : errors.toNat + 1 < UInt64.size) :
    ∃ now, tallyInWords mask parity a errors = .ok now
      ∧ now.toNat = if Bits.parity (a &&& mask) = parity then errors.toNat else errors.toNat + 1 := by
  rw [tallyInWords]
  split
  · exact ⟨errors, rfl, rfl⟩
  · exact ⟨errors + 1, Word.add_one_of_lt h⟩

theorem leftInWords_eq {others i : UInt64} {left : Nat} (h : i.toNat + (left + 1) = others.toNat) :
    leftInWords others i = .ok (others - i - 1) ∧ (others - i - 1).toNat = left := by
  have hle : i.toNat ≤ others.toNat := by omega
  have hrest : (others - i).toNat = left + 1 := by
    rw [UInt64.toNat_sub_of_le _ _ hle]
    omega
  have hone : (1 : UInt64).toNat ≤ (others - i).toNat := by
    rw [hrest]
    exact Nat.le_add_left 1 left
  rw [leftInWords, Word.sub_of_le hle]
  refine ⟨Word.sub_of_le hone, ?_⟩
  rw [UInt64.toNat_sub_of_le _ _ hone, hrest]
  rfl

/-- Neither the sum nor the difference leaves the word where it is computed. -/
theorem isLostInWords_eq (tolerance : UInt64) {size errors left : UInt64}
    (hsum : errors.toNat + left.toNat < UInt64.size) (hle : errors.toNat ≤ size.toNat) :
    isLostInWords size tolerance errors left = .ok (decide (tolerance.toNat < errors.toNat
      ∧ errors.toNat + left.toNat < size.toNat - tolerance.toNat)) := by
  rw [isLostInWords]
  split
  · next hexceeds =>
      have hnat : tolerance.toNat < errors.toNat := hexceeds
      have hsub : tolerance.toNat ≤ size.toNat := by omega
      have hleast : (size - tolerance).toNat = size.toNat - tolerance.toNat :=
        UInt64.toNat_sub_of_le _ _ hsub
      have hadd := Word.add_of_lt hsum
      rw [hadd, Word.sub_of_le hsub]
      show Except.ok (decide (errors + left < size - tolerance)) = _
      rw [Except.ok.injEq, decide_eq_decide, UInt64.lt_iff_toNat_lt, Word.toNat_of_add hadd, hleast]
      exact (and_iff_right hnat).symm
  · next hwithin =>
      rw [decide_eq_false fun h => hwithin h.1]

/-- Counting in words is counting: with the members up to position `i` behind, no operation leaves
    the word, and giving up or not, the count is the same. -/
theorem countInWords?_eq (mask : Mask) (parity tolerance : UInt64) {size others : UInt64}
    (hsize : size.toNat = others.toNat + 1) (l : List Address) (i errors : UInt64)
    (hi : i.toNat + l.length = others.toNat) (herrors : errors.toNat ≤ i.toNat) :
    ∃ count?, countInWords? mask parity size tolerance others l i errors = .ok count?
      ∧ count?.map UInt64.toNat
        = countErrors? mask parity size.toNat tolerance.toNat l errors.toNat l.length := by
  induction l generalizing i errors with
  | nil => exact ⟨some errors, rfl, rfl⟩
  | cons a rest ih =>
      rw [List.length_cons] at hi
      have hothers : others.toNat < UInt64.size := UInt64.toNat_lt others
      obtain ⟨hleft, hleftNat⟩ := leftInWords_eq hi
      obtain ⟨now, hnow, hnowNat⟩ := tallyInWords_eq mask parity a
        (show errors.toNat + 1 < UInt64.size by omega)
      have hnowLe : now.toNat ≤ i.toNat + 1 := by
        rw [hnowNat]
        split <;> omega
      obtain ⟨hnext, hnextNat⟩ := Word.add_one_of_lt (show i.toNat + 1 < UInt64.size by omega)
      -- the errors so far and the members that are left are no more than there are members
      have hsum : now.toNat + (others - i - 1).toNat < UInt64.size := by omega
      have hle : now.toNat ≤ size.toNat := by omega
      have hlost := isLostInWords_eq tolerance hsum hle
      rw [countErrors?, ← hnowNat, List.length_cons, Nat.add_sub_cancel]
      simp only [countInWords?, hnow, hleft, hnext, hlost, hleftNat, bind, Except.bind]
      by_cases hgive : tolerance.toNat < now.toNat
          ∧ now.toNat + rest.length < size.toNat - tolerance.toNat
      · rw [if_pos hgive, if_pos (decide_eq_true hgive)]
        exact ⟨none, rfl, rfl⟩
      · rw [if_neg hgive, decide_eq_false hgive, if_neg Bool.false_ne_true]
        exact ih (i + 1) now (by omega) (by omega)

/-! ## The check in words -/

variable {v : Validator} (mask : Mask)

/-- A tolerance that can be computed is a hundredth of a product of words. -/
theorem exists_product {size : Nat} (h : v.tolerance size = .ok (v.tolerated size)) :
    ∃ product, Word.mul (UInt64.ofNat size) v.errorPercentage = .ok product
      ∧ (product / 100).toNat = v.tolerated size := by
  rw [tolerance] at h
  cases hmul : Word.mul (UInt64.ofNat size) v.errorPercentage with
  | error f =>
      rw [hmul] at h
      cases h
  | ok product =>
      rw [hmul] at h
      exact ⟨product, rfl, Except.ok.inj h⟩

theorem dominantInWords?_eq {first : Address} {rest : List Address}
    (hsize : rest.length + 1 < UInt64.size)
    (h : v.tolerance (rest.length + 1) = .ok (v.tolerated (rest.length + 1))) :
    v.dominantInWords? mask first rest = v.dominant? mask first rest := by
  obtain ⟨product, hmul, htolerance⟩ := exists_product h
  have hothers : (UInt64.ofNat rest.length).toNat = rest.length :=
    UInt64.toNat_ofNat_of_lt' (by omega)
  have hmembers : (UInt64.ofNat (rest.length + 1)).toNat = rest.length + 1 :=
    UInt64.toNat_ofNat_of_lt' hsize
  obtain ⟨count?, hcount, hcountNat⟩ := countInWords?_eq mask
    (Bits.parity (first &&& mask)) (product / 100)
    (hmembers.trans (by rw [hothers])) rest 0 0
    ((Nat.zero_add _).trans hothers.symm) (Nat.le_refl _)
  rw [hmembers, htolerance] at hcountNat
  simp only [dominantInWords?, hmul, hcount, dominant?, h, bind, Except.bind, Except.map]
  rw [show (0 : Nat) = (0 : UInt64).toNat from rfl, ← hcountNat, Option.map_map]
  -- the parity of the first member is 0 or 1, so two cases say what one comparison says
  show Except.ok (count?.map _) = Except.ok (count?.map _)
  congr 2
  funext errors
  have hle : errors ≤ product / 100 ↔ errors.toNat ≤ v.tolerated (rest.length + 1) := by
    rw [UInt64.le_iff_toNat_le, htolerance]
  have hlt : product / 100 < errors ↔ ¬ errors ≤ product / 100 := UInt64.not_le.symm
  simp only [Function.comp_apply, hlt, hle, decide_not]
  generalize decide (errors.toNat ≤ v.tolerated (rest.length + 1)) = within
  rcases Bits.parity_eq_zero_or_one (first &&& mask) with hzero | hone
  · rw [hzero]
    cases within <;> rfl
  · rw [hone]
    cases within <;> rfl

/-- The words count the groups of either parity, if there is room for the number of groups. -/
theorem balanceInWords?_eq (groups : List (List Address))
    (hsize : ∀ g ∈ groups, g.length < UInt64.size)
    (h : ∀ g ∈ groups, v.tolerance g.length = .ok (v.tolerated g.length)) (ones zeroes : UInt64)
    (hroom : ones.toNat + zeroes.toNat + groups.length < UInt64.size) :
    ∃ balance?, v.balanceInWords? mask groups ones zeroes = .ok balance?
      ∧ v.balance? mask groups ones.toNat zeroes.toNat
        = .ok (balance?.map fun b => (b.1.toNat, b.2.toNat)) := by
  induction groups generalizing ones zeroes with
  | nil => exact ⟨some (ones, zeroes), rfl, rfl⟩
  | cons g groups ih =>
      rw [List.forall_mem_cons] at hsize h
      rw [List.length_cons] at hroom
      have ih := ih hsize.2 h.2
      cases g with
      | nil => exact ih ones zeroes (by omega)
      | cons first rest =>
          have hhead := dominant?_eq mask first rest h.1
          rw [balance?, hhead]
          simp only [balanceInWords?, dominantInWords?_eq mask hsize.1 h.1, hhead, bind, Except.bind]
          cases v.settled mask (first :: rest) with
          | false => exact ⟨none, rfl, rfl⟩
          | true =>
              rw [if_pos rfl]
              cases v.leansOne mask (first :: rest) with
              | true =>
                  obtain ⟨hadd, hnat⟩ :=
                    Word.add_one_of_lt (show ones.toNat + 1 < UInt64.size by omega)
                  simp only [hadd, ← hnat]
                  exact ih (ones + 1) zeroes (by omega)
              | false =>
                  obtain ⟨hadd, hnat⟩ :=
                    Word.add_one_of_lt (show zeroes.toNat + 1 < UInt64.size by omega)
                  simp only [hadd, ← hnat]
                  exact ih ones (zeroes + 1) (by omega)

/-- **NO OVERFLOW**: the check in words ends, with the verdict of the check. -/
theorem checkInWords_eq (hm : v.Measurable) (hsize : ∀ g ∈ v.groups, g.length < UInt64.size)
    (hroom : v.groups.length < UInt64.size) : v.checkInWords mask = v.check mask := by
  obtain ⟨balance?, hwords, hbalance⟩ :=
    balanceInWords?_eq mask v.groups hsize hm 0 0 (by simpa using hroom)
  have hzero : (0 : UInt64).toNat = 0 := rfl
  rw [hzero] at hbalance
  rw [checkInWords, check, hwords, hbalance]
  cases balance? with
  | none => rfl
  | some b =>
      obtain ⟨ones, zeroes⟩ := b
      show Except.ok _ = Except.ok _
      have hpos : 0 < ones ↔ 0 < ones.toNat := UInt64.lt_iff_toNat_lt
      have heq : (ones == zeroes) = (ones.toNat == zeroes.toNat) := by
        rw [Bool.eq_iff_iff, beq_iff_eq, beq_iff_eq, UInt64.toNat_inj]
      simp only [hpos, heq]

/-! ## The verdict -/

/-- **GIVING UP EARLY** keeps the verdict: for every percentage up to one hundred, the check ends
    with a verdict, in words as well, and accepts the mask exactly when in every group few enough
    members disagree with the first one or few enough agree, as many groups lean to one as to zero,
    some do, and the mask is irreducible.  A group leans to the parity of its first member, or to
    the inverse when too many disagree. -/
theorem early_exit_keeps_verdict {v : Validator} (hp : v.errorPercentage ≤ 100)
    (hsize : ∀ g ∈ v.groups, g.length * 100 < 2 ^ 64) (mask : Mask) :
    ∃ verdict, v.check mask = .ok verdict
      ∧ (v.groups.length < 2 ^ 64 → v.checkInWords mask = .ok verdict)
      ∧ (verdict = true ↔
          (∀ g ∈ v.groups, g ≠ [] →
              disagreements mask g ≤ g.length * v.errorPercentage.toNat / 100
                ∨ g.length - g.length * v.errorPercentage.toNat / 100 ≤ disagreements mask g)
            ∧ v.groups.countP (v.leansOne mask) = v.groups.countP (v.leansZero mask)
            ∧ 0 < v.groups.countP (v.leansOne mask)
            ∧ v.isIrreducible mask = true) := by
  have hm := measurable_of_percentage hp hsize
  have hword : ∀ g ∈ v.groups, g.length < UInt64.size := by
    intro g hg
    have hlt := hsize g hg
    show g.length < 2 ^ 64
    omega
  refine ⟨_, check_eq hm mask, ?_, ?_⟩
  · intro hroom
    rw [checkInWords_eq mask hm hword hroom, check_eq hm mask]
  · -- an empty group is settled in any case
    have hsettled : ∀ g, v.settled mask g = true ↔ (g ≠ [] →
        disagreements mask g ≤ v.tolerated g.length
          ∨ g.length - v.tolerated g.length ≤ disagreements mask g) := by
      intro g
      rw [settled, Bool.or_eq_true, decide_eq_true_eq, decide_eq_true_eq]
      cases g with
      | nil => simp [disagreements]
      | cons first rest => exact ⟨fun h _ => h, fun h => h (List.cons_ne_nil first rest)⟩
    simp only [Bool.and_eq_true, decide_eq_true_eq, beq_iff_eq, List.all_eq_true, hsettled,
      tolerated]
    tauto

theorem early_exit_keeps_verdict_inverted :
    (⟨[[1, 0, 0], [1, 3, 5]], 34⟩ : Validator).checkInWords 1 = .ok true := by
  obtain ⟨verdict, -, hwords, hverdict⟩ :=
    early_exit_keeps_verdict (v := ⟨[[1, 0, 0], [1, 3, 5]], 34⟩) (by decide) (by decide) 1
  have haccepted : verdict = true := hverdict.mpr (by decide +kernel)
  rw [hwords (by decide), haccepted]

end DramBanks.Mask.Validator
