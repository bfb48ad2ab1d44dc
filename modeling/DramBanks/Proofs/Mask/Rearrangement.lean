import DramBanks.Proofs.BankNumber
import DramBanks.Proofs.Mask.Finds
import DramBanks.Proofs.Mask.Parts
import Mathlib.Data.List.Forall2
import Mathlib.Data.Multiset.Defs
/-!
# Rearranged groupings

    A classifier fills its groups in the order in which it meets the
    addresses.  A grouping is REARRANGED when its groups come in another
    order and the members of each group do too.  Nothing of a derivation
    depends on this order:

    * the check counts the members of a group against the first one, but
      below a tolerance of one half it decides which parity is that of
      the majority (`check_eq_of_rearranged`);
    * the lowest address is looked up with the position of its group, but
      in disjoint groups an address leads out of this group exactly when
      no group holds both (`leaves_iff`).

    So the derived functions are equal (`derive_rearranged`), except that
    the columns of the parities are arranged as the groups are.  Both
    conditions are needed: at a tolerance of one half the first member
    decides (`[[0, 1], [0, 1]]` and `[[1, 0], [0, 1]]` under mask 1), and
    of several groups that hold the lowest address the first one does
    (`[[0], [0, 1]]` and `[[0, 1], [0]]`). -/

namespace DramBanks

/-! ## Arrangements -/

/-- The elements of a list at the given positions, in the order of the positions. -/
def arranged {α : Type} (order : List Nat) (xs : List α) : List α :=
  order.filterMap fun i => xs[i]?

theorem arranged_map {α β : Type} (f : α → β) (order : List Nat) (xs : List α) :
    arranged order (xs.map f) = (arranged order xs).map f := by
  simp only [arranged, List.map_filterMap, List.getElem?_map]

theorem arranged_range {α : Type} (xs : List α) : arranged (List.range xs.length) xs = xs := by
  induction xs with
  | nil => rfl
  | cons x xs ih =>
      rw [List.length_cons, List.range_succ_eq_map, arranged, List.filterMap_cons,
        List.filterMap_map]
      exact congrArg (x :: ·) ih

theorem arranged_perm {α : Type} {order : List Nat} {xs : List α}
    (h : order.Perm (List.range xs.length)) : (arranged order xs).Perm xs := by
  have hperm := h.filterMap fun i => xs[i]?
  rwa [show (List.range xs.length).filterMap (fun i => xs[i]?) = xs from arranged_range xs] at hperm

/-- A permutation of a list without repetition arranges its positions. -/
theorem exists_arranged_of_perm {α : Type} {xs ys : List α} (hnodup : xs.Nodup) (h : ys.Perm xs) :
    ∃ order : List Nat, order.Perm (List.range xs.length) ∧ arranged order xs = ys := by
  classical
  have hpositions : xs.map xs.idxOf = List.range xs.length := by
    refine List.ext_getElem (by rw [List.length_map, List.length_range]) ?_
    intro i hi _
    rw [List.getElem_map, List.getElem_range, hnodup.idxOf_getElem]
  have hget : ∀ y ∈ ys, ((fun i => xs[i]?) ∘ xs.idxOf) y = some y :=
    fun y hy => List.getElem?_idxOf (h.mem_iff.mp hy)
  refine ⟨ys.map xs.idxOf, hpositions ▸ h.map _, ?_⟩
  rw [arranged, List.filterMap_map, List.filterMap_congr hget, List.filterMap_some]

theorem forall₂_perm_iff {xs ys : List (List Address)} :
    List.Forall₂ List.Perm xs ys ↔ xs.map Multiset.ofList = ys.map Multiset.ofList := by
  rw [← List.forall₂_eq_eq_eq, List.forall₂_map_left_iff, List.forall₂_map_right_iff]
  simp only [Multiset.coe_eq_coe]

/-- The grouping `groups'` has the groups of `groups` in the given order, and the members of
    each of them in any order. -/
structure Rearranged (order : List Nat) (groups groups' : List (List Address)) : Prop where
  perm : order.Perm (List.range groups.length)
  members : List.Forall₂ List.Perm (arranged order groups) groups'

namespace Rearranged

variable {order : List Nat} {groups groups' : List (List Address)}
  (h : Rearranged order groups groups')

/-- Lists whose elements agree in what `f` says of them have the same image. -/
theorem map_eq_of_forall₂ {α β : Type} {R : α → α → Prop} {f : α → β} {xs ys : List α}
    (h : List.Forall₂ R xs ys) (hf : ∀ x ∈ xs, ∀ y, R x y → f x = f y) : ys.map f = xs.map f := by
  induction h with
  | nil => rfl
  | cons hxy _ ih =>
      rw [List.forall_mem_cons] at hf
      rw [List.map_cons, List.map_cons, hf.1 _ hxy, ih hf.2]

include h

/-- What does not depend on the order of the members is arranged as the groups are. -/
theorem map_eq {β : Type} {f : List Address → β}
    (hf : ∀ g ∈ groups, ∀ g', g.Perm g' → f g = f g') :
    groups'.map f = arranged order (groups.map f) := by
  rw [arranged_map]
  exact map_eq_of_forall₂ h.members fun g hg => hf g ((arranged_perm h.perm).mem_iff.mp hg)

theorem map_perm {β : Type} {f : List Address → β}
    (hf : ∀ g ∈ groups, ∀ g', g.Perm g' → f g = f g') :
    (groups'.map f).Perm (groups.map f) := by
  rw [h.map_eq hf]
  exact arranged_perm (by rw [List.length_map]; exact h.perm)

theorem countP_eq {f : List Address → Bool}
    (hf : ∀ g ∈ groups, ∀ g', g.Perm g' → f g = f g') : groups'.countP f = groups.countP f := by
  have hcount := (h.map_perm hf).countP_eq id
  rwa [List.countP_map, List.countP_map] at hcount

theorem all_eq {f : List Address → Bool}
    (hf : ∀ g ∈ groups, ∀ g', g.Perm g' → f g = f g') : groups'.all f = groups.all f := by
  have hall := (h.map_perm hf).all_eq (f := id)
  rwa [List.all_map, List.all_map] at hall

theorem length_eq : groups'.length = groups.length := by
  rw [← h.members.length_eq, (arranged_perm h.perm).length_eq]

theorem flatten_perm : groups'.flatten.Perm groups.flatten :=
  (List.Perm.flatten_congr h.members).symm.trans (arranged_perm h.perm).flatten

theorem together_iff {a b : Address} :
    (∃ g ∈ groups', a ∈ g ∧ b ∈ g) ↔ ∃ g ∈ groups, a ∈ g ∧ b ∈ g := by
  have hcount := h.countP_eq (f := fun g => decide (a ∈ g ∧ b ∈ g)) fun g _ g' hperm => by
    simp only [hperm.mem_iff]
  have hpos : ∀ gs : List (List Address), 0 < gs.countP (fun g => decide (a ∈ g ∧ b ∈ g)) ↔
      ∃ g ∈ gs, a ∈ g ∧ b ∈ g := by
    intro gs
    simp only [List.countP_pos_iff, decide_eq_true_eq]
  rw [← hpos, ← hpos, hcount]

theorem disjoint (hdisjoint : groups.Pairwise fun g k => ∀ a ∈ g, a ∉ k) :
    groups'.Pairwise fun g k => ∀ a ∈ g, a ∉ k := by
  -- disjointness is a symmetric relation between the groups as sets
  let disjoint (p q : Address → Prop) : Prop := ∀ a, p a → ¬ q a
  have hsets : (groups'.map fun g a => a ∈ g).Perm (groups.map fun g a => a ∈ g) :=
    h.map_perm fun _ _ _ hperm => funext fun _ => propext hperm.mem_iff
  have hpairwise := hsets.pairwise_iff (R := disjoint) fun hpq a hq hp => hpq a hp hq
  rw [List.pairwise_map, List.pairwise_map] at hpairwise
  exact hpairwise.mpr hdisjoint

end Rearranged

/-! ## The check -/

namespace Mask.Validator

variable {order : List Nat} {groups groups' : List (List Address)} {percentage : UInt64}
  (h : Rearranged order groups groups')

include h

theorem measurable_of_rearranged (hm : Measurable ⟨groups, percentage⟩) :
    Measurable ⟨groups', percentage⟩ := by
  intro g hg
  have hlength : g.length ∈ groups.map List.length :=
    (h.map_perm fun _ _ _ hperm => hperm.length_eq).mem_iff.mp (List.mem_map_of_mem hg)
  obtain ⟨k, hk, hlen⟩ := List.mem_map.mp hlength
  rw [← hlen]
  exact hm k hk

theorem isIrreducible_of_rearranged (mask : Mask) :
    isIrreducible ⟨groups', percentage⟩ mask = isIrreducible ⟨groups, percentage⟩ mask := by
  rw [Bool.eq_iff_iff, isIrreducible_iff, isIrreducible_iff]
  simp only [h.flatten_perm.mem_iff]

/-- **CHECK**: below a tolerance of one half, the order of groups and members does not matter. -/
theorem check_eq_of_rearranged (hp : percentage < 50) (hm : Measurable ⟨groups, percentage⟩)
    (mask : Mask) : check ⟨groups', percentage⟩ mask = check ⟨groups, percentage⟩ mask := by
  let v : Validator := ⟨groups, percentage⟩
  have hsettled : groups'.all (v.settled mask) = groups.all (v.settled mask) :=
    h.all_eq fun _ _ _ hperm => settled_perm hperm
  rw [check_eq hm, check_eq (measurable_of_rearranged h hm), isIrreducible_of_rearranged h]
  show Except.ok (groups'.all (v.settled mask) && decide (0 < groups'.countP (v.leansOne mask))
      && groups'.countP (v.leansOne mask) == groups'.countP (v.leansZero mask) && _)
    = Except.ok (groups.all (v.settled mask) && decide (0 < groups.countP (v.leansOne mask))
      && groups.countP (v.leansOne mask) == groups.countP (v.leansZero mask) && _)
  rw [hsettled]
  -- the majorities matter only when all groups have one
  cases hall : groups.all (v.settled mask) with
  | false => rfl
  | true =>
      rw [List.all_eq_true] at hall
      have ht : ∀ g : List Address, g ≠ [] → 2 * v.tolerated g.length < g.length :=
        fun g hne => tolerated_lt hp (List.length_pos_iff.mpr hne)
      rw [h.countP_eq fun g hg _ hperm => leansOne_perm (ht g) (hall g hg) hperm,
        h.countP_eq fun g hg _ hperm => leansZero_perm (ht g) (hall g hg) hperm]

end Mask.Validator

namespace BankFunction

open Mask

/-! ## Parities -/

theorem dominantParity_perm {mask : Mask} {g g' : List Address} (h : g.Perm g') :
    dominantParity mask g = dominantParity mask g' := by
  rw [dominantParity, dominantParity, h.countP_eq, h.length_eq]

section Parities

variable {order : List Nat} {groups groups' : List (List Address)}
  (h : Rearranged order groups groups')

include h

theorem dominantParities_of_rearranged (mask : Mask) :
    dominantParities groups' mask = arranged order (dominantParities groups mask) :=
  h.map_eq fun _ _ _ hperm => dominantParity_perm hperm

theorem agreeInHalf_of_rearranged (m k : Mask) :
    agreeInHalf (dominantParities groups' m) (dominantParities groups' k)
      = agreeInHalf (dominantParities groups m) (dominantParities groups k) := by
  rw [Bool.eq_iff_iff, agreeInHalf_iff, agreeInHalf_iff, h.length_eq, h.countP_eq]
  intro g _ g' hperm
  rw [dominantParity_perm hperm, dominantParity_perm hperm]

theorem orthogonal_of_rearranged (masks : List Mask) :
    pairwiseHalf (masks.map (dominantParities groups'))
      = pairwiseHalf (masks.map (dominantParities groups)) := by
  rw [Bool.eq_iff_iff, pairwiseHalf_iff, pairwiseHalf_iff, List.pairwise_map, List.pairwise_map]
  simp only [agreeInHalf_of_rearranged h]

end Parities

/-! ## The lowest address -/

/-- The addresses of the groups, each with the position of its group. -/
def positions (groups : List (List Address)) : List (Address × Nat) :=
  groups.zipIdx.flatMap fun g => g.1.map fun a => (a, g.2)

theorem mem_positions {groups : List (List Address)} {a : Address} {i : Nat} :
    (a, i) ∈ positions groups ↔ ∃ g, groups[i]? = some g ∧ a ∈ g := by
  simp only [positions, List.mem_flatMap, List.mem_map, Prod.mk.injEq, Prod.exists,
    List.mem_zipIdx_iff_getElem?]
  constructor
  · rintro ⟨g, j, hg, b, hb, rfl, rfl⟩
    exact ⟨g, hg, hb⟩
  · rintro ⟨g, hg, ha⟩
    exact ⟨g, i, hg, a, ha, rfl, rfl⟩

theorem map_fst_positions (groups : List (List Address)) :
    (positions groups).map Prod.fst = groups.flatten := by
  have hgroup : ∀ g : List Address × Nat, (g.1.map fun a => (a, g.2)).map Prod.fst = g.1 := by
    intro g
    rw [List.map_map]
    exact List.map_id' _
  rw [positions, List.map_flatMap]
  simp only [hgroup]
  rw [List.flatMap_def, List.zipIdx_map_fst]

/-- The lower of two addresses, the first one when they are equal. -/
def lower (best : Option (Address × Nat)) (p : Address × Nat) : Option (Address × Nat) :=
  match best with
  | none => some p
  | some (b, _) => if p.1 < b then some p else best

theorem lowest?_eq (groups : List (List Address)) :
    lowest? groups = (positions groups).foldl lower none := by
  rw [lowest?, positions, List.foldl_flatMap]
  simp only [List.foldl_map]
  rfl

/-- What has been found when the addresses in `seen` have been met. -/
def IsLowest (seen : List (Address × Nat)) : Option (Address × Nat) → Prop
  | none => seen = []
  | some low => low ∈ seen ∧ ∀ p ∈ seen, low.1 ≤ p.1

theorem IsLowest.lower {seen : List (Address × Nat)} {best : Option (Address × Nat)}
    (h : IsLowest seen best) (p : Address × Nat) :
    IsLowest (seen ++ [p]) (BankFunction.lower best p) := by
  cases best with
  | none =>
      rw [show seen = [] from h]
      exact ⟨List.mem_singleton_self p, fun q hq => List.mem_singleton.mp hq ▸ UInt64.le_refl _⟩
  | some low =>
      obtain ⟨hmem, hle⟩ := h
      rw [BankFunction.lower]
      by_cases hlt : p.1 < low.1
      · rw [if_pos hlt]
        refine ⟨List.mem_append.mpr (.inr (List.mem_singleton_self p)), ?_⟩
        intro q hq
        rcases List.mem_append.mp hq with hq | hq
        · exact UInt64.le_trans (UInt64.le_of_lt hlt) (hle q hq)
        · rw [List.mem_singleton.mp hq]
          exact UInt64.le_refl _
      · rw [if_neg hlt]
        refine ⟨List.mem_append.mpr (.inl hmem), ?_⟩
        intro q hq
        rcases List.mem_append.mp hq with hq | hq
        · exact hle q hq
        · rw [List.mem_singleton.mp hq]
          exact UInt64.not_lt.mp hlt

theorem IsLowest.foldl {seen rest : List (Address × Nat)} {best : Option (Address × Nat)}
    (h : IsLowest seen best) : IsLowest (seen ++ rest) (rest.foldl BankFunction.lower best) := by
  induction rest generalizing seen best with
  | nil => rwa [List.append_nil]
  | cons p rest ih =>
      rw [List.append_cons]
      exact ih (h.lower p)

theorem isLowest_lowest? (groups : List (List Address)) :
    IsLowest (positions groups) (lowest? groups) := by
  have hstart : IsLowest [] none := rfl
  rw [lowest?_eq]
  exact hstart.foldl

/-! ## Leaving a group -/

section Leaving

variable {groups : List (List Address)}

theorem leaves_eq_true_iff {home : Nat} {addr : Address} :
    leaves groups home addr = true ↔
      (∀ i, (addr, i) ∉ positions groups) ∨ ∃ i, (addr, i) ∈ positions groups ∧ i ≠ home := by
  have hholders : ∀ i, i ∈ ((groups.zipIdx.filter fun g => g.1.contains addr).map Prod.snd) ↔
      (addr, i) ∈ positions groups := by
    intro i
    simp only [mem_positions, List.mem_map, List.mem_filter, List.mem_zipIdx_iff_getElem?,
      List.contains_iff_mem, Prod.exists]
    constructor
    · rintro ⟨g, j, ⟨hg, ha⟩, rfl⟩
      exact ⟨g, hg, ha⟩
    · rintro ⟨g, hg, ha⟩
      exact ⟨g, i, ⟨hg, ha⟩, rfl⟩
  simp only [leaves, Bool.or_eq_true, List.isEmpty_iff, List.eq_nil_iff_forall_not_mem,
    List.any_eq_true, bne_iff_ne, hholders]

variable (hdisjoint : groups.Pairwise fun g k => ∀ a ∈ g, a ∉ k)

include hdisjoint

/-- An address occurs in one group only. -/
theorem position_unique {a : Address} {i j : Nat} (hi : (a, i) ∈ positions groups)
    (hj : (a, j) ∈ positions groups) : i = j := by
  obtain ⟨g, hg, hag⟩ := mem_positions.mp hi
  obtain ⟨k, hk, hak⟩ := mem_positions.mp hj
  obtain ⟨hilt, rfl⟩ := List.getElem?_eq_some_iff.mp hg
  obtain ⟨hjlt, rfl⟩ := List.getElem?_eq_some_iff.mp hk
  rw [List.pairwise_iff_getElem] at hdisjoint
  rcases Nat.lt_trichotomy i j with hlt | heq | hgt
  · exact absurd hak (hdisjoint i j hilt hjlt hlt a hag)
  · exact heq
  · exact absurd hag (hdisjoint j i hjlt hilt hgt a hak)

/-- **LEAVING**: in disjoint groups, an address leads out of the group of another one when no
    group holds both. -/
theorem leaves_iff {low addr : Address} {home : Nat} (hhome : (low, home) ∈ positions groups) :
    leaves groups home addr = true ↔ ¬ ∃ g ∈ groups, low ∈ g ∧ addr ∈ g := by
  have htogether : (addr, home) ∈ positions groups ↔ ∃ g ∈ groups, low ∈ g ∧ addr ∈ g := by
    constructor
    · intro haddr
      obtain ⟨g, hg, hlow⟩ := mem_positions.mp hhome
      obtain ⟨k, hk, ha⟩ := mem_positions.mp haddr
      cases hg.symm.trans hk
      exact ⟨g, List.mem_of_getElem? hg, hlow, ha⟩
    · rintro ⟨g, hg, hlow, ha⟩
      obtain ⟨i, hi⟩ := List.mem_iff_getElem?.mp hg
      have heq := position_unique hdisjoint hhome (mem_positions.mpr ⟨g, hi, hlow⟩)
      exact heq ▸ mem_positions.mpr ⟨g, hi, ha⟩
  rw [← htogether, leaves_eq_true_iff]
  constructor
  · rintro (hnone | ⟨i, hi, hne⟩) haddr
    · exact hnone home haddr
    · exact hne (position_unique hdisjoint hi haddr)
  · intro hout
    by_cases hnone : ∀ i, (addr, i) ∉ positions groups
    · exact .inl hnone
    · push Not at hnone
      obtain ⟨i, hi⟩ := hnone
      exact .inr ⟨i, hi, fun heq => hout (heq ▸ hi)⟩

end Leaving

/-! ## The derivation -/

section Derivation

variable {order : List Nat} {groups groups' : List (List Address)}
  (h : Rearranged order groups groups')
  (hdisjoint : groups.Pairwise fun g k => ∀ a ∈ g, a ∉ k)

include h

/-- The lowest address is that of both groupings, although its position may be another. -/
theorem lowest_of_rearranged {low low' : Address × Nat} (hlow : lowest? groups = some low)
    (hlow' : lowest? groups' = some low') : low'.1 = low.1 := by
  have hmem : ∀ a, a ∈ (positions groups').map Prod.fst ↔ a ∈ (positions groups).map Prod.fst := by
    intro a
    rw [map_fst_positions, map_fst_positions, h.flatten_perm.mem_iff]
  obtain ⟨hin, hle⟩ : IsLowest (positions groups) (some low) := hlow ▸ isLowest_lowest? groups
  obtain ⟨hin', hle'⟩ : IsLowest (positions groups') (some low') := hlow' ▸ isLowest_lowest? groups'
  obtain ⟨p, hp, hpeq⟩ := List.mem_map.mp ((hmem _).mp (List.mem_map_of_mem hin'))
  obtain ⟨q, hq, hqeq⟩ := List.mem_map.mp ((hmem _).mpr (List.mem_map_of_mem hin))
  exact UInt64.le_antisymm (hqeq ▸ hle' q hq) (hpeq ▸ hle p hp)

theorem lowest?_eq_none_of_rearranged : lowest? groups' = none ↔ lowest? groups = none := by
  have hnone : ∀ gs, lowest? gs = none ↔ gs.flatten = [] := by
    intro gs
    have hlowest := isLowest_lowest? gs
    rw [← map_fst_positions, List.map_eq_nil_iff]
    cases hgs : lowest? gs with
    | none =>
        rw [hgs] at hlowest
        exact ⟨fun _ => hlowest, fun _ => rfl⟩
    | some low =>
        rw [hgs] at hlowest
        exact ⟨nofun, fun hnil => absurd (hnil ▸ hlowest.1) List.not_mem_nil⟩
  rw [hnone, hnone]
  constructor
  · intro hnil
    exact (hnil ▸ h.flatten_perm).nil_eq.symm
  · intro hnil
    exact (hnil ▸ h.flatten_perm).eq_nil

include hdisjoint

theorem relevantBitsFrom_of_rearranged (skip : Nat) :
    relevantBitsFrom skip groups' = relevantBitsFrom skip groups := by
  have hnone := lowest?_eq_none_of_rearranged h
  cases hlow : lowest? groups with
  | none => rw [relevantBitsFrom, relevantBitsFrom, hlow, hnone.mpr hlow]
  | some low =>
      cases hlow' : lowest? groups' with
      | none => cases hlow.symm.trans (hnone.mp hlow')
      | some low' =>
          have hsame := lowest_of_rearranged h hlow hlow'
          have hin := (hlow ▸ isLowest_lowest? groups : IsLowest _ (some low)).1
          have hin' := (hlow' ▸ isLowest_lowest? groups' : IsLowest _ (some low')).1
          have hleaves : ∀ addr, leaves groups' low'.2 addr = leaves groups low.2 addr := by
            intro addr
            rw [Bool.eq_iff_iff, leaves_iff hdisjoint hin,
              leaves_iff (h.disjoint hdisjoint) hin', h.together_iff, hsame]
          simp only [relevantBitsFrom, hlow, hlow', hsame, hleaves]

theorem ofMasks_rearranged (blockSize : UInt64) (masks : List Mask) :
    ofMasks groups' blockSize masks = { ofMasks groups blockSize masks with
      parities := (ofMasks groups blockSize masks).parities.map (arranged order) } := by
  have hparities : masks.map (dominantParities groups')
      = (masks.map (dominantParities groups)).map (arranged order) := by
    rw [List.map_map]
    exact List.map_congr_left fun m _ => dominantParities_of_rearranged h m
  rw [ofMasks, ofMasks, orthogonal_of_rearranged h, hparities,
    relevantBitsFrom_of_rearranged h hdisjoint, h.length_eq]

/-- **REARRANGEMENT**: the function that is derived from disjoint groups below a tolerance of one
    half does not depend on the order of the groups and of their members, but for the columns of
    the parities, which are in the order of the groups. -/
theorem derive_rearranged {percentage : UInt64} (hp : percentage < 50)
    (hsize : ∀ g ∈ groups, g.length * 100 < 2 ^ 64) (blockSize : UInt64)
    (maxBits threads : Nat) :
    ∃ f f', derive groups blockSize percentage maxBits threads = .ok f
      ∧ derive groups' blockSize percentage maxBits threads = .ok f'
      ∧ f'.isComplete = f.isComplete
      ∧ f'.masks = f.masks
      ∧ f'.bankCount = f.bankCount
      ∧ f'.orthogonal = f.orthogonal
      ∧ f'.relevantBits = f.relevantBits
      ∧ f'.parities = f.parities.map (arranged order) := by
  have hmeasurable : Validator.Measurable ⟨groups, percentage⟩ :=
    Validator.measurable_of_length hp hsize
  -- the two searches accept the same candidates, and the basis of what they find is one
  have hcheck := Validator.check_eq hmeasurable
  have hcheck' := fun m => (Validator.check_eq_of_rearranged h hp hmeasurable m).trans (hcheck m)
  let candidates : Candidates := ⟨skippedBits blockSize, maxBits⟩
  obtain ⟨found, hsearch, hfound⟩ :=
    search_perm (c := candidates) (fun m _ => hcheck m) threads
  obtain ⟨found', hsearch', hfound'⟩ :=
    search_perm (c := candidates) (fun m _ => hcheck' m) threads
  have hbasis : basis found' = basis found := basis_perm (hfound'.trans hfound.symm)
  have hfunction := ofMasks_rearranged h hdisjoint blockSize (basis found)
  refine ⟨ofMasks groups blockSize (basis found), ofMasks groups' blockSize (basis found),
    ?_, ?_, ?_⟩
  · rw [derive, hsearch, Except.map]
  · rw [derive, hsearch', Except.map, hbasis]
  · rw [hfunction]
    exact ⟨rfl, rfl, rfl, rfl, rfl, rfl⟩

end Derivation

/-- Four groups in another order, all but one of them with their members swapped. -/
theorem derive_rearranged_four_groups :
    ∃ f f', derive [[0, 4], [1], [6, 2], [3, 7]] 1 49 2 1 = .ok f
      ∧ derive [[2, 6], [4, 0], [7, 3], [1]] 1 49 2 1 = .ok f'
      ∧ f'.isComplete = f.isComplete
      ∧ f'.masks = f.masks
      ∧ f'.bankCount = f.bankCount
      ∧ f'.orthogonal = f.orthogonal
      ∧ f'.relevantBits = f.relevantBits
      ∧ f'.parities = f.parities.map (arranged [2, 0, 3, 1]) := by
  have hrearranged : Rearranged [2, 0, 3, 1] [[0, 4], [1], [6, 2], [3, 7]]
      [[2, 6], [4, 0], [7, 3], [1]] :=
    ⟨by decide, .cons (by decide) (.cons (by decide) (.cons (by decide) (.cons (by decide) .nil)))⟩
  exact derive_rearranged hrearranged (by simp) (by decide) (by decide) 1 2 1

end BankFunction

end DramBanks
