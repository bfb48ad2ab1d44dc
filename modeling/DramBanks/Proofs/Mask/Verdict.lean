import DramBanks.Mask.Validity
import DramBanks.Proofs.Parity
import Mathlib.Data.List.Basic
/-!
# What the check of a mask decides

    The check counts from the front of every group and gives up early.  A
    group is SETTLED when the members that disagree with its first one are
    within the tolerance, or all but the tolerance are; giving up early
    never changes this (`countErrors?_eq`).

    `check_eq` puts the groups together with the even split.  Below a
    tolerance of one half, a settled group leans to the side of its
    majority, whatever its first member is (`leansOne_iff`). -/

namespace DramBanks.Mask.Validator

/-! ## Counting disagreement -/

/-- The count of disagreeing members, given up or not, depends on the full count only. -/
theorem countErrors?_eq (mask : Mask) (parity : UInt64) (size tolerance : Nat)
    (l : List Address) (errors : Nat) :
    countErrors? mask parity size tolerance l errors l.length =
      let total := errors + l.countP fun a => decide (Bits.parity (a &&& mask) ≠ parity)
      if l ≠ [] ∧ tolerance < total ∧ total < size - tolerance then none else some total := by
  induction l generalizing errors with
  | nil => rfl
  | cons a rest ih =>
      have hle := List.countP_le_length (l := rest)
        (p := fun a => decide (Bits.parity (a &&& mask) ≠ parity))
      have hsum : errors + (a :: rest).countP (fun a => decide (Bits.parity (a &&& mask) ≠ parity))
          = (if Bits.parity (a &&& mask) = parity then errors else errors + 1)
            + rest.countP (fun a => decide (Bits.parity (a &&& mask) ≠ parity)) := by
        rw [List.countP_cons]
        by_cases h : Bits.parity (a &&& mask) = parity
        · simp [h]
        · simp [h]
          omega
      rw [countErrors?, hsum, List.length_cons, Nat.add_sub_cancel]
      generalize (if Bits.parity (a &&& mask) = parity then errors else errors + 1) = now at *
      simp only
      by_cases hgive : tolerance < now ∧ now + rest.length < size - tolerance
      · rw [if_pos hgive, if_pos ⟨List.cons_ne_nil a rest, by omega, by omega⟩]
      · rw [if_neg hgive, ih]
        simp only
        -- giving up later is giving up here, unless the count ends here
        by_cases hrest : rest = []
        · subst hrest
          rw [List.length_nil] at hgive
          have hnow : ¬ (tolerance < now ∧ now < size - tolerance) := hgive
          simp [hnow]
        · simp [hrest]

/-- The members that are read differently from the first one. -/
def disagreements (mask : Mask) : List Address → Nat
  | [] => 0
  | first :: rest => rest.countP fun a => reads mask a != reads mask first

/-- The number of members that may disagree in a group of the given size. -/
def tolerated (v : Validator) (size : Nat) : Nat := size * v.errorPercentage.toNat / 100

/-- Few enough members disagree with the first one, or few enough agree. -/
def settled (v : Validator) (mask : Mask) (group : List Address) : Bool :=
  decide (disagreements mask group ≤ v.tolerated group.length)
    || decide (group.length - v.tolerated group.length ≤ disagreements mask group)

/-- The dominant parity of a settled group is one. -/
def leansOne (v : Validator) (mask : Mask) : List Address → Bool
  | [] => false
  | first :: rest =>
      reads mask first ==
        decide (disagreements mask (first :: rest) ≤ v.tolerated (rest.length + 1))

/-- The dominant parity of a settled group is zero. -/
def leansZero (v : Validator) (mask : Mask) (group : List Address) : Bool :=
  !group.isEmpty && !v.leansOne mask group

theorem leansZero_cons (v : Validator) (mask : Mask) (first : Address) (rest : List Address) :
    v.leansZero mask (first :: rest) = !v.leansOne mask (first :: rest) := by
  rw [leansZero, List.isEmpty_cons, Bool.not_false, Bool.true_and]

/-- The tolerances of all groups can be computed. -/
def Measurable (v : Validator) : Prop :=
  ∀ g ∈ v.groups, v.tolerance g.length = .ok (v.tolerated g.length)

/-- A tolerance can be computed when the size fits with its percentage into a word. -/
theorem tolerance_of_lt {v : Validator} {size : Nat} (hsize : size < 2 ^ 64)
    (h : size * v.errorPercentage.toNat < 2 ^ 64) :
    v.tolerance size = .ok (v.tolerated size) := by
  have hofNat : (UInt64.ofNat size).toNat = size := by
    rw [UInt64.toNat_ofNat']
    exact Nat.mod_eq_of_lt hsize
  have hmul : Word.mul (UInt64.ofNat size) v.errorPercentage
      = .ok (UInt64.ofNat size * v.errorPercentage) :=
    Word.mul_of_lt (by rw [hofNat]; exact h)
  rw [tolerance, hmul]
  show Except.ok ((UInt64.ofNat size * v.errorPercentage).toNat / 100) = _
  rw [UInt64.toNat_mul, hofNat, Nat.mod_eq_of_lt h, tolerated]

/-- Without tolerance, no size is too large. -/
theorem tolerance_of_zero {v : Validator} {size : Nat} (h : v.errorPercentage = 0) :
    v.tolerance size = .ok (v.tolerated size) := by
  have hzero : v.errorPercentage.toNat = 0 := by
    rw [h]
    rfl
  have hmul : Word.mul (UInt64.ofNat size) v.errorPercentage
      = .ok (UInt64.ofNat size * v.errorPercentage) :=
    Word.mul_of_lt (by rw [hzero, Nat.mul_zero]; decide)
  rw [tolerance, hmul, tolerated, hzero, h, UInt64.mul_zero]
  rfl

/-- With a percentage that is one, a hundred times the size has to fit into a word. -/
theorem measurable_of_percentage {v : Validator} (hp : v.errorPercentage ≤ 100)
    (h : ∀ g ∈ v.groups, g.length * 100 < 2 ^ 64) : v.Measurable := by
  intro g hg
  have hlt := h g hg
  have hmul : g.length * v.errorPercentage.toNat ≤ g.length * 100 := Nat.mul_le_mul_left _ hp
  exact tolerance_of_lt (by omega) (Nat.lt_of_le_of_lt hmul hlt)

theorem measurable_of_length {v : Validator} (hp : v.errorPercentage < 50)
    (h : ∀ g ∈ v.groups, g.length * 100 < 2 ^ 64) : v.Measurable := by
  have hnat : v.errorPercentage.toNat < 50 := hp
  refine measurable_of_percentage ?_ h
  show v.errorPercentage.toNat ≤ 100
  omega

/-- A share of less than one half of a group leaves a majority. -/
theorem tolerated_lt {v : Validator} (hp : v.errorPercentage < 50) {size : Nat} (hsize : 0 < size) :
    2 * v.tolerated size < size := by
  have hnat : v.errorPercentage.toNat < 50 := hp
  have hmul : size * v.errorPercentage.toNat ≤ size * 49 := Nat.mul_le_mul_left _ (by omega)
  rw [tolerated]
  omega

theorem dominant?_eq {v : Validator} (mask : Mask) (first : Address) (rest : List Address)
    (h : v.tolerance (rest.length + 1) = .ok (v.tolerated (rest.length + 1))) :
    v.dominant? mask first rest =
      .ok (if v.settled mask (first :: rest) then some (v.leansOne mask (first :: rest))
        else none) := by
  have hcount : rest.countP
      (fun a => decide (Bits.parity (a &&& mask) ≠ Bits.parity (first &&& mask)))
      = disagreements mask (first :: rest) := by
    rw [disagreements]
    refine List.countP_congr ?_
    intro a _
    rw [decide_eq_true_eq, Ne, parity_eq_iff]
    simp
  have hle : disagreements mask (first :: rest) ≤ rest.length := List.countP_le_length
  simp only [dominant?, h, Except.map, countErrors?_eq, Nat.zero_add, hcount]
  rw [settled, leansOne, List.length_cons]
  generalize v.tolerated (rest.length + 1) = t
  generalize disagreements mask (first :: rest) = e at hle
  by_cases hout : rest ≠ [] ∧ t < e ∧ e < rest.length + 1 - t
  · rw [if_pos hout, if_neg (by simp; omega)]
    rfl
  · have hsettled : e ≤ t ∨ rest.length + 1 - t ≤ e := by
      by_cases hnil : rest = []
      · subst hnil
        rw [List.length_nil] at hle
        omega
      · by_contra hnot
        exact hout ⟨hnil, by omega, by omega⟩
    rw [if_neg hout, if_pos (by simpa using hsettled)]
    rfl

/-- The balance of the groups, if all of them are settled. -/
theorem balance?_eq {v : Validator} (mask : Mask) (groups : List (List Address))
    (h : ∀ g ∈ groups, v.tolerance g.length = .ok (v.tolerated g.length)) (ones zeroes : Nat) :
    v.balance? mask groups ones zeroes =
      .ok (if groups.all (v.settled mask) then
          some (ones + groups.countP (v.leansOne mask), zeroes + groups.countP (v.leansZero mask))
        else none) := by
  induction groups generalizing ones zeroes with
  | nil => rfl
  | cons g groups ih =>
      have htail := ih fun g' hg' => h g' (List.mem_cons_of_mem _ hg')
      cases g with
      | nil =>
          rw [balance?, htail, List.all_cons, List.countP_cons, List.countP_cons]
          have hsettled : v.settled mask [] = true := rfl
          have hone : v.leansOne mask [] = false := rfl
          have hzero : v.leansZero mask [] = false := rfl
          simp [hsettled, hone, hzero]
      | cons first rest =>
          have hhead := dominant?_eq mask first rest (h _ (List.mem_cons_self ..))
          rw [balance?, hhead, List.all_cons, List.countP_cons, List.countP_cons]
          cases hsettled : v.settled mask (first :: rest) with
          | false => simp
          | true =>
              -- a settled group counts on one side or on the other, never on both
              rw [leansZero_cons]
              cases v.leansOne mask (first :: rest) with
              | true =>
                  simp only [if_true, htail, Bool.true_and]
                  simp [Nat.add_assoc, Nat.add_comm]
              | false =>
                  simp only [if_true, htail, Bool.true_and]
                  simp [Nat.add_assoc, Nat.add_comm]

/-! ## The check -/

/-- **THE CHECK** accepts a mask exactly when all groups are settled, as many of them lean to
    one as to zero, some of them do, and the mask is irreducible. -/
theorem check_eq {v : Validator} (h : v.Measurable) (mask : Mask) :
    v.check mask = .ok (v.groups.all (v.settled mask)
      && decide (0 < v.groups.countP (v.leansOne mask))
      && v.groups.countP (v.leansOne mask) == v.groups.countP (v.leansZero mask)
      && v.isIrreducible mask) := by
  rw [check, balance?_eq mask v.groups h]
  cases v.groups.all (v.settled mask) with
  | false => rfl
  | true => simp only [if_true, Nat.zero_add, Bool.true_and]

theorem check_eq_true_iff {v : Validator} (h : v.Measurable) {mask : Mask} :
    v.check mask = .ok true ↔
      (∀ g ∈ v.groups, v.settled mask g = true) ∧ 0 < v.groups.countP (v.leansOne mask)
        ∧ v.groups.countP (v.leansOne mask) = v.groups.countP (v.leansZero mask)
        ∧ v.isIrreducible mask = true := by
  rw [check_eq h, Except.ok.injEq]
  simp only [Bool.and_eq_true, decide_eq_true_eq, beq_iff_eq, List.all_eq_true, and_assoc]

/-- Whoever disagrees with the first member is read the other way. -/
theorem exists_reads_not_first {mask : Mask} {first : Address} {rest : List Address}
    (h : 0 < disagreements mask (first :: rest)) :
    ∃ a ∈ first :: rest, reads mask a = !reads mask first := by
  obtain ⟨a, ha, hne⟩ := List.countP_pos_iff.mp h
  exact ⟨a, List.mem_cons_of_mem _ ha, Bool.eq_not.mpr (bne_iff_ne.mp hne)⟩

theorem exists_reads_of_leansOne {v : Validator} {mask : Mask} {g : List Address}
    (h : v.leansOne mask g = true) : ∃ a ∈ g, reads mask a = true := by
  cases g with
  | nil => cases h
  | cons first rest =>
      rw [leansOne, beq_iff_eq] at h
      cases hfirst : reads mask first with
      | true => exact ⟨first, List.mem_cons_self .., hfirst⟩
      | false =>
          -- the first member is overruled, so another one disagrees with it
          rw [hfirst, eq_comm, decide_eq_false_iff_not] at h
          have hpos : 0 < disagreements mask (first :: rest) := by omega
          simpa [hfirst] using exists_reads_not_first hpos

theorem exists_reads_of_leansZero {v : Validator} {mask : Mask} {g : List Address}
    (h : v.leansZero mask g = true) : ∃ a ∈ g, reads mask a = false := by
  cases g with
  | nil => cases h
  | cons first rest =>
      rw [leansZero_cons, Bool.not_eq_true', leansOne, beq_eq_false_iff_ne] at h
      cases hfirst : reads mask first with
      | false => exact ⟨first, List.mem_cons_self .., hfirst⟩
      | true =>
          rw [hfirst, Ne, eq_comm, decide_eq_true_eq] at h
          have hpos : 0 < disagreements mask (first :: rest) := by omega
          simpa [hfirst] using exists_reads_not_first hpos

/-! ## Groups that are read in one way -/

section Uniform

variable {v : Validator} {mask : Mask} {g : List Address} {r : Bool}

theorem disagreements_eq_zero (h : ∀ a ∈ g, reads mask a = r) : disagreements mask g = 0 := by
  cases g with
  | nil => rfl
  | cons first rest =>
      rw [disagreements, List.countP_eq_zero]
      intro a ha
      rw [h a (List.mem_cons_of_mem _ ha), h first (List.mem_cons_self ..)]
      simp

theorem settled_of_uniform (h : ∀ a ∈ g, reads mask a = r) : v.settled mask g = true := by
  rw [settled, disagreements_eq_zero h]
  simp

theorem leansOne_of_uniform (hne : g ≠ []) (h : ∀ a ∈ g, reads mask a = r) :
    v.leansOne mask g = r := by
  cases g with
  | nil => exact absurd rfl hne
  | cons first rest =>
      rw [leansOne, disagreements_eq_zero h, h first (List.mem_cons_self ..)]
      simp

theorem leansZero_of_uniform (hne : g ≠ []) (h : ∀ a ∈ g, reads mask a = r) :
    v.leansZero mask g = !r := by
  rw [leansZero, leansOne_of_uniform hne h]
  cases g with
  | nil => exact absurd rfl hne
  | cons first rest => rfl

end Uniform

/-! ## Majorities -/

section Majority

variable {v : Validator} {mask : Mask} {g g' : List Address}

/-- The members on the other side than the first one. -/
theorem disagreements_cons (first : Address) (rest : List Address) :
    disagreements mask (first :: rest) =
      if reads mask first then (first :: rest).length - (first :: rest).countP (reads mask)
      else (first :: rest).countP (reads mask) := by
  have hall := List.length_eq_countP_add_countP (reads mask) (l := rest)
  rw [disagreements, List.countP_cons, List.length_cons]
  cases hfirst : reads mask first with
  | true =>
      have hother : rest.countP (fun a => reads mask a != true)
          = rest.countP fun a => ¬ reads mask a := by
        refine List.countP_congr fun a _ => ?_
        simp
      rw [hother, if_pos rfl, if_pos rfl]
      omega
  | false =>
      have hother : rest.countP (fun a => reads mask a != false) = rest.countP (reads mask) := by
        refine List.countP_congr fun a _ => ?_
        simp
      rw [hother, if_neg Bool.false_ne_true, if_neg Bool.false_ne_true, Nat.add_zero]

/-- A group is settled when one of the sides is within the tolerance. -/
theorem settled_iff : v.settled mask g = true ↔
    g.countP (reads mask) ≤ v.tolerated g.length
      ∨ g.length ≤ g.countP (reads mask) + v.tolerated g.length := by
  rw [settled, Bool.or_eq_true, decide_eq_true_eq, decide_eq_true_eq]
  have hle := List.countP_le_length (p := reads mask) (l := g)
  cases g with
  | nil => simp [disagreements]
  | cons first rest =>
      rw [disagreements_cons]
      split <;> omega

/-- Below a tolerance of one half, a settled group leans to the side that is beyond it. -/
theorem leansOne_iff (hsettled : v.settled mask g = true)
    (ht : 2 * v.tolerated g.length < g.length) :
    v.leansOne mask g = true ↔ g.length ≤ g.countP (reads mask) + v.tolerated g.length := by
  rw [settled_iff] at hsettled
  have hle := List.countP_le_length (p := reads mask) (l := g)
  cases g with
  | nil => cases ht
  | cons first rest =>
      rw [List.length_cons] at hsettled ht hle
      rw [leansOne, beq_iff_eq, disagreements_cons, List.length_cons]
      cases reads mask first with
      | true =>
          rw [if_pos rfl, eq_comm, decide_eq_true_eq]
          omega
      | false =>
          rw [if_neg Bool.false_ne_true, eq_comm, decide_eq_false_iff_not]
          omega

/-- A group of which one half is read as `true` is not settled below a tolerance of one half. -/
theorem not_settled_of_half (hhalf : 2 * g.countP (reads mask) = g.length)
    (ht : 2 * v.tolerated g.length < g.length) : v.settled mask g = false := by
  rw [← Bool.not_eq_true, settled_iff]
  omega

/-- The order of the members does not matter, although they are counted against the first. -/
theorem settled_perm (h : g.Perm g') : v.settled mask g = v.settled mask g' := by
  rw [Bool.eq_iff_iff, settled_iff, settled_iff, h.countP_eq, h.length_eq]

theorem leansOne_perm (ht : g ≠ [] → 2 * v.tolerated g.length < g.length)
    (hsettled : v.settled mask g = true) (h : g.Perm g') :
    v.leansOne mask g = v.leansOne mask g' := by
  by_cases hne : g = []
  · subst hne
    rw [h.nil_eq]
  · have ht' : 2 * v.tolerated g'.length < g'.length := h.length_eq ▸ ht hne
    rw [Bool.eq_iff_iff, leansOne_iff hsettled (ht hne),
      leansOne_iff (settled_perm h ▸ hsettled) ht', h.countP_eq, h.length_eq]

theorem leansZero_perm (ht : g ≠ [] → 2 * v.tolerated g.length < g.length)
    (hsettled : v.settled mask g = true) (h : g.Perm g') :
    v.leansZero mask g = v.leansZero mask g' := by
  rw [leansZero, leansZero, leansOne_perm ht hsettled h, h.isEmpty_eq]

end Majority

end DramBanks.Mask.Validator
