import DramBanks.Proofs.Mask.Verdict
/-!
# Raising the tolerance

    A larger tolerance settles every group that a smaller one settles, but
    it also decides which side a group leans to.  The first member of a
    group is OVERRULED when more members disagree with it than tolerated,
    and the group then leans to the other side.  A larger tolerance may
    REINSTATE the first member, and with it the group turns over
    (`leansOne_raise`, `leansZero_raise`).

    So an accepted mask stays accepted when the groups that turn over are
    evenly split themselves, and only then (`check_raise_iff`).  All but the
    tolerated members of such a group disagree with its first one, and so
    many are tolerated later, so the two tolerances together cover the
    group: percentages that add up to less than one hundred turn over no
    group (`not_reinstated`). -/

namespace DramBanks.Mask.Validator

/-- The same groups at another percentage. -/
def raise (v : Validator) (percentage : UInt64) : Validator :=
  { v with errorPercentage := percentage }

/-- More members disagree with the first one than tolerated. -/
def overruled (v : Validator) (mask : Mask) (group : List Address) : Bool :=
  decide (v.tolerated group.length < disagreements mask group)

/-- The first member is overruled, and no longer at another percentage. -/
def reinstated (v : Validator) (percentage : UInt64) (mask : Mask) (group : List Address) : Bool :=
  v.overruled mask group && !(v.raise percentage).overruled mask group

variable {v : Validator} {q : UInt64} {mask : Mask} {g : List Address}

theorem overruled_nil (v : Validator) (mask : Mask) : v.overruled mask [] = false := by
  rw [overruled, disagreements, decide_eq_false (Nat.not_lt_zero _)]

/-- A group leans to the parity of its first member unless this one is overruled. -/
theorem leansOne_cons (v : Validator) (mask : Mask) (first : Address) (rest : List Address) :
    v.leansOne mask (first :: rest) = (reads mask first ^^ v.overruled mask (first :: rest)) := by
  rw [leansOne, overruled, List.length_cons]
  by_cases h : disagreements mask (first :: rest) ≤ v.tolerated (rest.length + 1)
  · rw [decide_eq_true h, decide_eq_false (Nat.not_lt.mpr h)]
    simp
  · rw [decide_eq_false h, decide_eq_true (Nat.lt_of_not_le h)]
    simp

/-! ## One group -/

section Raise

variable (hle : v.errorPercentage ≤ q)
include hle

theorem tolerated_le_raise (size : Nat) : v.tolerated size ≤ (v.raise q).tolerated size :=
  Nat.div_le_div_right (Nat.mul_le_mul_left _ (UInt64.le_iff_toNat_le.mp hle))

theorem settled_raise (h : v.settled mask g = true) : (v.raise q).settled mask g = true := by
  have hmore := tolerated_le_raise hle g.length
  rw [settled_iff] at h ⊢
  omega

/-- Who is not overruled stays so. -/
theorem not_overruled_raise (h : v.overruled mask g = false) :
    (v.raise q).overruled mask g = false := by
  have hmore := tolerated_le_raise hle g.length
  rw [overruled, decide_eq_false_iff_not] at h ⊢
  omega

/-- **TURNING OVER**: a group leans to the other side exactly when its first member is
    reinstated. -/
theorem leansOne_raise : (v.raise q).leansOne mask g
    = if v.reinstated q mask g then v.leansZero mask g else v.leansOne mask g := by
  cases g with
  | nil => rw [reinstated, overruled_nil]; rfl
  | cons first rest =>
      rw [leansZero_cons, leansOne_cons, leansOne_cons, reinstated]
      cases hover : v.overruled mask (first :: rest) with
      | false => simp [not_overruled_raise hle hover]
      | true => cases (v.raise q).overruled mask (first :: rest) <;> simp

theorem leansZero_raise : (v.raise q).leansZero mask g
    = if v.reinstated q mask g then v.leansOne mask g else v.leansZero mask g := by
  cases g with
  | nil => rw [reinstated, overruled_nil]; rfl
  | cons first rest =>
      rw [leansZero_cons, leansZero_cons, leansOne_raise hle, leansZero_cons]
      cases v.reinstated q mask (first :: rest) <;> simp

end Raise

/-- Percentages that add up to less than one hundred turn over no settled group. -/
theorem not_reinstated (hsum : v.errorPercentage.toNat + q.toNat < 100)
    (h : v.settled mask g = true) : v.reinstated q mask g = false := by
  by_contra hturned
  rw [Bool.not_eq_false, reinstated, Bool.and_eq_true, Bool.not_eq_true', overruled, overruled,
    decide_eq_true_eq, decide_eq_false_iff_not, Nat.not_lt] at hturned
  obtain ⟨hover, hwithin⟩ := hturned
  have hpos : 0 < g.length := by
    refine List.length_pos_iff.mpr ?_
    rintro rfl
    exact Nat.not_lt_zero _ hover
  -- nearly all members disagree with the first one, and so many are tolerated later
  have hcover : g.length ≤ v.tolerated g.length + (v.raise q).tolerated g.length := by
    rw [settled, Bool.or_eq_true, decide_eq_true_eq, decide_eq_true_eq] at h
    omega
  have hless : g.length * v.errorPercentage.toNat + g.length * q.toNat ≤ g.length * 99 := by
    rw [← Nat.mul_add]
    exact Nat.mul_le_mul_left _ (by omega)
  have hshares : (v.raise q).tolerated g.length = g.length * q.toNat / 100 := rfl
  rw [hshares, tolerated] at hcover
  omega

/-! ## All groups -/

/-- Elements that turn over are no longer counted here but there. -/
theorem countP_turned {α : Type} {l : List α} {turned here there here' : α → Bool}
    (h : ∀ x ∈ l, here' x = if turned x then there x else here x) :
    l.countP here' + l.countP (fun x => turned x && here x)
      = l.countP here + l.countP fun x => turned x && there x := by
  induction l with
  | nil => rfl
  | cons x rest ih =>
      rw [List.forall_mem_cons] at h
      have hrest := ih h.2
      simp only [List.countP_cons, h.1]
      cases turned x with
      | false => simp; omega
      | true => simp; omega

section Balance

variable (hle : v.errorPercentage ≤ q)
include hle

theorem countP_leansOne_raise (mask : Mask) (groups : List (List Address)) :
    groups.countP ((v.raise q).leansOne mask)
        + groups.countP (fun g => v.reinstated q mask g && v.leansOne mask g)
      = groups.countP (v.leansOne mask)
        + groups.countP fun g => v.reinstated q mask g && v.leansZero mask g :=
  countP_turned fun _ _ => leansOne_raise hle

theorem countP_leansZero_raise (mask : Mask) (groups : List (List Address)) :
    groups.countP ((v.raise q).leansZero mask)
        + groups.countP (fun g => v.reinstated q mask g && v.leansZero mask g)
      = groups.countP (v.leansZero mask)
        + groups.countP fun g => v.reinstated q mask g && v.leansOne mask g :=
  countP_turned fun _ _ => leansZero_raise hle

/-- An accepted mask is accepted at a larger percentage when the groups that turn over are evenly
    split. -/
theorem check_raise_iff (hm : v.Measurable) (hm' : (v.raise q).Measurable)
    (h : v.check mask = .ok true) : (v.raise q).check mask = .ok true ↔
      v.groups.countP (fun g => v.reinstated q mask g && v.leansOne mask g)
        = v.groups.countP fun g => v.reinstated q mask g && v.leansZero mask g := by
  obtain ⟨hsettled, hpos, heven, hirreducible⟩ := (check_eq_true_iff hm).mp h
  -- what one side loses, the other one gains
  have hones := countP_leansOne_raise hle mask v.groups
  have hzeroes := countP_leansZero_raise hle mask v.groups
  have hgroups : (v.raise q).groups = v.groups := rfl
  rw [check_eq_true_iff hm', hgroups]
  constructor
  · rintro ⟨-, -, heven', -⟩
    omega
  · intro hturned
    exact ⟨fun g hg => settled_raise hle (hsettled g hg), by omega, by omega, hirreducible⟩

end Balance

/-- **RAISING** the tolerance of an accepted mask, to at most one hundred percent: the mask stays
    accepted exactly when, of the groups whose first member is reinstated, as many lean to one as to
    zero.  It does so whenever the percentages add up to less than one hundred. -/
theorem check_of_raised_tolerance (hle : v.errorPercentage ≤ q) (hq : q ≤ 100)
    (hsize : ∀ g ∈ v.groups, g.length * 100 < 2 ^ 64) (h : v.check mask = .ok true) :
    ∃ verdict, (v.raise q).check mask = .ok verdict
      ∧ (verdict = true ↔
          v.groups.countP (fun g => v.reinstated q mask g && v.leansOne mask g)
            = v.groups.countP fun g => v.reinstated q mask g && v.leansZero mask g)
      ∧ (v.errorPercentage = q ∨ v.errorPercentage.toNat + q.toNat < 100 → verdict = true) := by
  have hm : v.Measurable := measurable_of_percentage (UInt64.le_trans hle hq) hsize
  have hm' : (v.raise q).Measurable := measurable_of_percentage hq hsize
  have hverdict := check_raise_iff hle hm hm' h
  have hcheck := check_eq hm' mask
  rw [hcheck, Except.ok.injEq] at hverdict
  refine ⟨_, hcheck, hverdict, ?_⟩
  rintro (rfl | hsum)
  · exact Except.ok.inj (hcheck.symm.trans h)
  · have hnone : ∀ side : List Address → Bool,
        v.groups.countP (fun g => v.reinstated q mask g && side g) = 0 := by
      intro side
      rw [List.countP_eq_zero]
      intro g hg
      rw [not_reinstated hsum (((check_eq_true_iff hm).mp h).1 g hg)]
      exact Bool.false_ne_true
    exact hverdict.mpr (by rw [hnone, hnone])

/-- Two groups of three that both turn over between 34 and 67 percent. -/
theorem check_of_raised_tolerance_both_turned :
    (34 : UInt64) ≤ 67 ∧ (67 : UInt64) ≤ 100
      ∧ (⟨[[1, 0, 2], [0, 3, 5]], 34⟩ : Validator).check 1 = .ok true
      ∧ (⟨[[1, 0, 2], [0, 3, 5]], 67⟩ : Validator).check 1 = .ok true := by
  have hcheck : (⟨[[1, 0, 2], [0, 3, 5]], 34⟩ : Validator).check 1 = .ok true := by decide +kernel
  obtain ⟨verdict, hraised, hverdict, -⟩ := check_of_raised_tolerance
    (v := ⟨[[1, 0, 2], [0, 3, 5]], 34⟩) (q := 67) (by decide) (by decide) (by decide) hcheck
  have haccepted : verdict = true := hverdict.mpr (by decide +kernel)
  exact ⟨by decide, by decide, hcheck, haccepted ▸ hraised⟩

/-- Of two groups of three, only the first one turns over between 34 and 67 percent, and then both
    lean to one. -/
theorem raised_tolerance_loses_mask :
    (34 : UInt64) ≤ 67 ∧ (67 : UInt64) ≤ 100
      ∧ (∀ g ∈ ([[1, 0, 2], [3, 5, 7]] : List (List Address)), g.length * 100 < 2 ^ 64)
      ∧ (⟨[[1, 0, 2], [3, 5, 7]], 34⟩ : Validator).check 1 = .ok true
      ∧ (⟨[[1, 0, 2], [3, 5, 7]], 67⟩ : Validator).check 1 = .ok false :=
  ⟨by decide, by decide, by decide, by decide +kernel, by decide +kernel⟩

end DramBanks.Mask.Validator
