import DramBanks.Proofs.Classifier.Lengths
/-!
# What a switch can do

    Whatever the probe answers, a switch of the block size that is carried
    out does one of two things to every group, at its place.  Towards
    smaller blocks the group is EXTENDED: its members stay as they are, and
    some of the addresses inside the old blocks come behind them
    (`Extends`).  Towards larger blocks it is THINNED: the members stay that
    are the start of a whole block of members, in order (`thinned`).
    `setBlockSize_cases` says this of any two sizes.  A switch only ends in a
    fault where a member is near the end of the word (`setBlockSize_error`).

    Between powers of two it always is carried out (`exists_setBlockSize`),
    as a block that is aligned to such a size ends inside the word. -/

namespace DramBanks

/-- Related lists are related through a third one. -/
theorem forall₂_trans {α β γ : Type} {R : α → β → Prop} {S : β → γ → Prop} {T : α → γ → Prop}
    (hRS : ∀ x y z, R x y → S y z → T x z) {xs : List α} {ys : List β} {zs : List γ}
    (h : List.Forall₂ R xs ys) (h' : List.Forall₂ S ys zs) : List.Forall₂ T xs zs := by
  induction h generalizing zs with
  | nil =>
      cases h'
      exact List.Forall₂.nil
  | cons hxy _ ih =>
      cases h' with
      | cons hyz hrest => exact List.Forall₂.cons (hRS _ _ _ hxy hyz) (ih hrest)

theorem forall₂_imp_of_mem {α γ : Type} {R S : α → γ → Prop} {xs : List α} {ys : List γ}
    (h : List.Forall₂ R xs ys) (himp : ∀ x ∈ xs, ∀ y ∈ ys, R x y → S x y) :
    List.Forall₂ S xs ys := by
  induction h with
  | nil => exact List.Forall₂.nil
  | cons hxy _ ih =>
      refine List.Forall₂.cons (himp _ (List.mem_cons_self ..) _ (List.mem_cons_self ..) hxy) ?_
      exact ih fun x hx y hy => himp x (List.mem_cons_of_mem _ hx) y (List.mem_cons_of_mem _ hy)

namespace Classifier

variable {σ : Type} {b : Bench σ} {c c' : Classifier σ} {old new size : UInt64} {f : Fault}

/-! ## Smaller blocks -/

/-- A group with some new addresses behind its members, in their order. -/
def Extends (new : List Address) (g g' : Group) : Prop :=
  ∃ added, added.Sublist new ∧ g'.members = g.members ++ added

theorem Extends.refl (new : List Address) (g : Group) : Extends new g g :=
  ⟨[], List.nil_sublist new, (List.append_nil g.members).symm⟩

/-- **STEP**: an address that may not open a group is appended to one group, or to none. -/
theorem extends_classify (b : Bench σ) (c : Classifier σ) (addr : Address) :
    List.Forall₂ (Extends [addr]) c.groups (c.classify b false addr).2.groups := by
  rcases classify_cases b false c addr with ⟨i, g, s, hget, -, -, hgroups⟩ | ⟨-, -, hgroups⟩
  · rw [hgroups]
    exact forall₂_modify_push (Extends.refl [addr])
      hget ⟨[addr], List.Sublist.refl [addr], Group.members_push g addr⟩
  · rw [hgroups]
    exact List.forall₂_same.mpr fun g _ => Extends.refl [addr] g

/-- **RUN**: addresses that may not open groups are appended to groups, as far as they find one. -/
theorem extends_classifyAll (b : Bench σ) (addrs : List Address) (misses : Nat)
    (c : Classifier σ) :
    List.Forall₂ (Extends addrs) c.groups (classifyAll b false addrs misses c).2.groups := by
  induction addrs generalizing misses c with
  | nil => exact List.forall₂_same.mpr fun g _ => Extends.refl [] g
  | cons addr rest ih =>
      rw [classifyAll_cons]
      refine forall₂_trans ?_ (extends_classify b c addr) (ih _ _)
      rintro g g' g'' ⟨first, hfirst, heq⟩ ⟨more, hmore, heq'⟩
      refine ⟨first ++ more, hfirst.append hmore, ?_⟩
      rw [heq', heq, List.append_assoc]

/-- What is in an extended group has been in it, or is new. -/
theorem mem_of_extends {added : List Address} {groups groups' : List Group}
    (h : List.Forall₂ (Extends added) groups groups') {x : Address}
    (hx : x ∈ allMembers groups') : x ∈ allMembers groups ∨ x ∈ added := by
  induction h with
  | nil => cases hx
  | @cons g g' rest rest' hg _ ih =>
      obtain ⟨more, hmore, heq⟩ := hg
      rw [allMembers, List.flatMap_cons, heq, List.mem_append, List.mem_append] at hx
      rw [allMembers, List.flatMap_cons, List.mem_append, or_assoc]
      rcases hx with (hx | hx) | hx
      · exact Or.inl hx
      · exact Or.inr (Or.inr (hmore.subset hx))
      · exact Or.inr (ih hx)

/-- The addresses inside the blocks that begin at a member of a group. -/
def interior (groups : List Group) (old new : UInt64) : List Address :=
  (alignedMembers groups old).flatMap (insideBlock old new)

/-- What is inside the blocks lies on a boundary of the smaller size, in the block of a member but
    not at its start. -/
theorem mem_interior_iff (hpower : ∃ k, old.toNat = 2 ^ k) (hdvd : new.toNat ∣ old.toNat)
    {groups : List Group} {x : Address} :
    x ∈ interior groups old new ↔ ∃ a ∈ allMembers groups, old.toNat ∣ a.toNat
      ∧ new.toNat ∣ x.toNat ∧ a / old = x / old ∧ x ≠ a := by
  have hpos := pos_of_power hpower
  have hnewpos := Nat.pos_of_dvd_of_pos hdvd hpos
  have hinside : ∀ a : Address, old.toNat ∣ a.toNat → (x ∈ insideBlock old new a ↔
      new.toNat ∣ x.toNat ∧ a / old = x / old ∧ x ≠ a) := by
    intro a ha
    have hend := add_size_le hpower ha
    have hroom : a.toNat + old.toNat / new.toNat * new.toNat ≤ 2 ^ 64 := by
      rw [Nat.div_mul_cancel hdvd]
      exact hend
    have hascends := pairwise_progression hroom hnewpos
    have hmem := mem_progression_block (a := x) hpower ha hdvd
    rw [← cons_insideBlock hpos hdvd] at hascends hmem
    rw [List.mem_cons] at hmem
    constructor
    · intro hx
      obtain ⟨hstep, hblock⟩ := hmem.mp (Or.inr hx)
      have hbehind := List.rel_of_pairwise_cons hascends hx
      refine ⟨hstep, hblock, ?_⟩
      rintro rfl
      omega
    · rintro ⟨hstep, hblock, hne⟩
      exact (hmem.mpr ⟨hstep, hblock⟩).resolve_left hne
  rw [interior, alignedMembers_eq, List.mem_flatMap]
  refine exists_congr fun a => ?_
  rw [List.mem_filter, mod_eq_zero_iff, and_assoc]
  exact and_congr_right fun _ => and_congr_right fun ha => hinside a ha

/-- Members on boundaries, with what is inside their blocks, are what is cut from them. -/
theorem interior_append_perm_cut (hpos : 0 < old.toNat) (hdvd : new.toNat ∣ old.toNat)
    {groups : List Group} (haligned : ∀ a ∈ allMembers groups, old.toNat ∣ a.toNat) :
    (interior groups old new ++ allMembers groups).Perm (cut old new (allMembers groups)) := by
  have hrefined := refined_perm_cut hpos hdvd haligned
  rwa [refined, ← alignedMembers_eq] at hrefined

theorem lt_of_mem_interior (hpos : 0 < old.toNat) {groups : List Group} {x : Address}
    (hx : x ∈ interior groups old new) :
    ∃ a ∈ allMembers groups, x.toNat < a.toNat + old.toNat := by
  rw [interior, alignedMembers_eq] at hx
  obtain ⟨a, ha, hxa⟩ := List.mem_flatMap.mp hx
  obtain ⟨i, hi, rfl⟩ := List.mem_map.mp hxa
  refine ⟨a, (List.mem_filter.mp ha).1, ?_⟩
  have hle : (i + 1) * new.toNat ≤ old.toNat - 1 :=
    Nat.le_trans (Nat.mul_le_mul_right _ (List.mem_range.mp hi)) (Nat.div_mul_le_self _ _)
  have hoffset : (UInt64.ofNat (i + 1) * new).toNat ≤ (i + 1) * new.toNat := by
    rw [UInt64.toNat_mul, UInt64.toNat_ofNat', Nat.mod_mul_mod]
    exact Nat.mod_le _ _
  have hsum : (a + UInt64.ofNat (i + 1) * new).toNat
      ≤ a.toNat + (UInt64.ofNat (i + 1) * new).toNat := by
    rw [UInt64.toNat_add]
    exact Nat.mod_le _ _
  omega

theorem insideBlocks_ok {starts addrs : List Address}
    (hrun : insideBlocks old new starts = .ok addrs) :
    addrs = starts.flatMap (insideBlock old new) := by
  rw [insideBlocks] at hrun
  split at hrun
  · exact (Except.ok.inj hrun).symm
  · cases hrun

theorem insideBlocks_error {starts : List Address}
    (hrun : insideBlocks old new starts = .error f) :
    f = .sumOverflow ∧ ∃ a ∈ starts, 2 ^ 64 ≤ a.toNat + old.toNat := by
  rw [insideBlocks] at hrun
  split at hrun
  · cases hrun
  · next hnot =>
      cases hrun
      rw [List.all_eq_true] at hnot
      push Not at hnot
      obtain ⟨a, ha, hge⟩ := hnot
      have hle : insideCount old new * new.toNat ≤ old.toNat - 1 := Nat.div_mul_le_self _ _
      have hend : 2 ^ 64 ≤ a.toNat + insideCount old new * new.toNat :=
        Nat.not_lt.mp fun hlt => hge (decide_eq_true hlt)
      exact ⟨rfl, a, ha, by omega⟩

theorem expand_ok (hrun : c.expand b old new = .ok c') :
    c' = (classifyAll b false (interior c.groups old new) 0 c).2 := by
  obtain ⟨addrs, haddrs, heq⟩ := exists_of_map_eq_ok hrun
  rw [interior, ← insideBlocks_ok haddrs]
  exact heq.symm

/-! ## Larger blocks -/

/-- The address is the start of a block of `new` bytes, and all its pieces of `old` bytes are
    members. -/
def Whole (members : List Address) (old new : Nat) (a : Address) : Prop :=
  new ∣ a.toNat ∧ ∀ i < new / old, Occupied members (a.toNat + i * old)

instance (members : List Address) (old new : Nat) (a : Address) :
    Decidable (Whole members old new a) :=
  inferInstanceAs (Decidable (_ ∧ _))

/-- The group with the starts of whole blocks of the new size, in order. -/
def thinned (old new : UInt64) (g : Group) : Group :=
  .ofMembers (sorted (g.members.filter fun a => Whole g.members old.toNat new.toNat a)) new

theorem occupied_of_mem {members : List Address} {a : Address} (ha : a ∈ members) :
    Occupied members a.toNat := ⟨a, ha, rfl⟩

theorem mem_of_occupied {members : List Address} {a : Address} (h : Occupied members a.toNat) :
    a ∈ members := by
  obtain ⟨x, hx, heq⟩ := h
  rwa [← UInt64.toNat_inj.mp heq]

section Members

variable {members : List Address} {step : UInt64} {count : Nat} {a : Address}

theorem successorsIn_ok {v : Bool}
    (hrun : successorsIn (Std.HashSet.ofList members) step count a = .ok v) :
    v = true ↔ ∀ i < count, Occupied members (a.toNat + (i + 1) * step.toNat) := by
  induction count generalizing a with
  | zero =>
      cases hrun
      exact iff_of_true rfl fun i hi => absurd hi (Nat.not_lt_zero i)
  | succ count ih =>
      rw [successorsIn] at hrun
      split at hrun
      · cases hrun
      · next x hnext =>
          have hnat := Word.toNat_of_add hnext
          have hfirst : a.toNat + (0 + 1) * step.toNat = x.toNat := by
            rw [hnat, Nat.zero_add, Nat.one_mul]
          have hlater : ∀ i, a.toNat + (i + 1 + 1) * step.toNat
              = x.toNat + (i + 1) * step.toNat := by
            intro i
            rw [hnat, Nat.succ_mul (i + 1)]
            omega
          simp only [Std.HashSet.contains_ofList] at hrun
          split at hrun
          · next hmem =>
              rw [ih hrun, Nat.forall_lt_succ_left', hfirst]
              simp only [hlater]
              exact (and_iff_right (occupied_of_mem (List.contains_iff_mem.mp hmem))).symm
          · next hmem =>
              cases hrun
              refine iff_of_false Bool.false_ne_true fun hall => hmem ?_
              have hoccupied := hall 0 (Nat.succ_pos count)
              rw [hfirst] at hoccupied
              exact List.contains_iff_mem.mpr (mem_of_occupied hoccupied)

theorem successorsIn_error (ha : a ∈ members)
    (hrun : successorsIn (Std.HashSet.ofList members) step count a = .error f) :
    f = .sumOverflow ∧ ∃ m ∈ members, 2 ^ 64 ≤ m.toNat + step.toNat := by
  induction count generalizing a with
  | zero => cases hrun
  | succ count ih =>
      rw [successorsIn] at hrun
      split at hrun
      · next hadd =>
          cases hrun
          obtain ⟨rfl, hge⟩ := Word.add_eq_error_iff.mp hadd
          exact ⟨rfl, a, ha, hge⟩
      · simp only [Std.HashSet.contains_ofList] at hrun
        split at hrun
        · next hmem => exact ih (List.contains_iff_mem.mp hmem) hrun
        · cases hrun

/-- A member is the start of a whole block if it is aligned and its successors are members. -/
theorem whole_iff (ha : a ∈ members) (haligned : (a % new == 0) = true) :
    Whole members old.toNat new.toNat a
      ↔ ∀ i < (new / old).toNat - 1, Occupied members (a.toNat + (i + 1) * old.toNat) := by
  rw [Whole, and_iff_right (mod_eq_zero_iff.mp haligned), UInt64.toNat_div]
  constructor
  · intro h i hi
    exact h (i + 1) (by omega)
  · intro h i hi
    cases i with
    | zero =>
        rw [Nat.zero_mul, Nat.add_zero]
        exact occupied_of_mem ha
    | succ i => exact h i (by omega)

theorem wholeBlocks_ok {addrs kept result : List Address} (hsub : addrs ⊆ members)
    (hrun : wholeBlocks (Std.HashSet.ofList members) old new addrs kept = .ok result) :
    result = kept.reverse ++ addrs.filter fun a => Whole members old.toNat new.toNat a := by
  induction addrs generalizing kept with
  | nil =>
      cases hrun
      rw [List.filter_nil, List.append_nil]
  | cons a rest ih =>
      obtain ⟨ha, hrest⟩ := List.cons_subset.mp hsub
      rw [wholeBlocks] at hrun
      split at hrun
      · next haligned =>
          have hwhole : Whole members old.toNat new.toNat a ↔ _ := whole_iff ha haligned
          split at hrun
          · cases hrun
          · next hsuccessors =>
              have hall := hwhole.mpr ((successorsIn_ok hsuccessors).mp rfl)
              rw [ih hrest hrun, List.filter_cons_of_pos (by simp [hall]),
                List.reverse_cons, List.append_assoc]
              rfl
          · next hsuccessors =>
              have hnot : ¬ Whole members old.toNat new.toNat a := by
                intro hall
                exact Bool.false_ne_true ((successorsIn_ok hsuccessors).mpr (hwhole.mp hall))
              rw [ih hrest hrun, List.filter_cons_of_neg (by simp [hnot])]
      · next haligned =>
          have hnot : ¬ Whole members old.toNat new.toNat a :=
            fun hall => haligned (mod_eq_zero_iff.mpr hall.1)
          rw [ih hrest hrun, List.filter_cons_of_neg (by simp [hnot])]

theorem wholeBlocks_error {addrs kept : List Address} (hsub : addrs ⊆ members)
    (hrun : wholeBlocks (Std.HashSet.ofList members) old new addrs kept = .error f) :
    f = .sumOverflow ∧ ∃ m ∈ members, 2 ^ 64 ≤ m.toNat + old.toNat := by
  induction addrs generalizing kept with
  | nil => cases hrun
  | cons a rest ih =>
      obtain ⟨ha, hrest⟩ := List.cons_subset.mp hsub
      rw [wholeBlocks] at hrun
      split at hrun
      · split at hrun
        · next hsuccessors =>
            cases hrun
            exact successorsIn_error ha hsuccessors
        · exact ih hrest hrun
        · exact ih hrest hrun
      · exact ih hrest hrun

end Members

theorem simplifyGroup_ok {g g' : Group} (hrun : simplifyGroup old new g = .ok g') :
    { g' with blockSize := new } = thinned old new g := by
  obtain ⟨kept, hkept, rfl⟩ := exists_of_map_eq_ok hrun
  have hwhole := wholeBlocks_ok (List.Subset.refl g.members) hkept
  rw [List.reverse_nil, List.nil_append] at hwhole
  rw [hwhole]
  rfl

theorem simplifyGroups_ok {groups groups' : List Group}
    (hrun : simplifyGroups old new groups = .ok groups') :
    (groups'.map fun g => { g with blockSize := new }) = groups.map (thinned old new) := by
  have hall := forall₂_of_simplifyGroups hrun
  clear hrun
  induction hall with
  | nil => rfl
  | cons hg _ ih => exact congrArg₂ List.cons (simplifyGroup_ok hg) ih

theorem simplifyGroups_error {groups : List Group}
    (hrun : simplifyGroups old new groups = .error f) :
    f = .sumOverflow ∧ NearEnd old groups := by
  induction groups with
  | nil => cases hrun
  | cons g rest ih =>
      rw [simplifyGroups] at hrun
      split at hrun
      · cases hrun
      · next hg =>
          cases hrun
          obtain ⟨rfl, m, hm, hge⟩ :=
            wholeBlocks_error (List.Subset.refl g.members) (eq_error_of_map hg)
          exact ⟨rfl, m, List.mem_append_left _ hm, hge⟩
      · next hrest _ =>
          cases hrun
          obtain ⟨rfl, m, hm, hge⟩ := ih hrest
          exact ⟨rfl, m, List.mem_append_right _ hm, hge⟩

/-! ## Switching -/

/-- **CASES**: a switch that is carried out classifies what is inside the blocks, or thins the
    groups, or only takes note of the size that is there already. -/
theorem setBlockSize_cases (hsize : size ≠ 0) (hrun : c.setBlockSize b size = .ok c') :
    c'.blockSize = size ∧ (∀ g ∈ c'.groups, g.blockSize = size)
      ∧ (size < c.blockSize ∧ c'.groups =
          (classifyAll b false (interior c.groups c.blockSize size) 0 c).2.groups.map
            (fun g => { g with blockSize := size })
        ∨ size = c.blockSize ∧ c'.groups = c.groups.map (fun g => { g with blockSize := size })
        ∨ c.blockSize < size ∧ c'.groups = c.groups.map (thinned c.blockSize size)) := by
  rw [setBlockSize, if_neg hsize] at hrun
  obtain ⟨c₁, hcut, rfl⟩ := exists_of_map_eq_ok hrun
  have hnoted : ∀ g ∈ (commit size c₁).groups, g.blockSize = size := by
    rw [groups_commit]
    intro g hg
    obtain ⟨k, -, rfl⟩ := List.mem_map.mp hg
    rfl
  refine ⟨blockSize_commit size c₁, hnoted, ?_⟩
  rw [groups_commit]
  rw [cutTo] at hcut
  split at hcut
  · next hlt =>
      rw [expand_ok hcut]
      exact Or.inl ⟨hlt, rfl⟩
  · next hge =>
      split at hcut
      · next hgt =>
          refine Or.inr (Or.inr ⟨hgt, ?_⟩)
          rw [simplify] at hcut
          split at hcut
          · cases hcut
          · obtain ⟨groups, hgroups, rfl⟩ := exists_of_map_eq_ok hcut
            exact simplifyGroups_ok hgroups
      · next hle =>
          cases hcut
          have hsame : size = c.blockSize :=
            UInt64.le_antisymm (UInt64.not_lt.mp hle) (UInt64.not_lt.mp hge)
          exact Or.inr (Or.inl ⟨hsame, rfl⟩)

section Cases

variable (hsize : size ≠ 0) (hrun : c.setBlockSize b size = .ok c')
include hsize hrun

theorem groups_of_shrink (hlt : size < c.blockSize) :
    c'.groups = (classifyAll b false (interior c.groups c.blockSize size) 0 c).2.groups.map
      fun g => { g with blockSize := size } := by
  obtain ⟨-, -, ⟨-, hgroups⟩ | ⟨heq, -⟩ | ⟨hgt, -⟩⟩ := setBlockSize_cases hsize hrun
  · exact hgroups
  · exact absurd (heq ▸ hlt) (UInt64.lt_irrefl _)
  · exact absurd hgt (UInt64.lt_asymm hlt)

theorem extends_of_shrink (hlt : size < c.blockSize) :
    List.Forall₂ (Extends (interior c.groups c.blockSize size)) c.groups c'.groups := by
  rw [groups_of_shrink hsize hrun hlt, List.forall₂_map_right_iff]
  exact extends_classifyAll b _ 0 c

theorem groups_of_grow (hlt : c.blockSize < size) :
    c'.groups = c.groups.map (thinned c.blockSize size) := by
  obtain ⟨-, -, ⟨hgt, -⟩ | ⟨heq, -⟩ | ⟨-, hgroups⟩⟩ := setBlockSize_cases hsize hrun
  · exact absurd hgt (UInt64.lt_asymm hlt)
  · exact absurd (heq ▸ hlt) (UInt64.lt_irrefl _)
  · exact hgroups

end Cases

/-- Without noise, what is inside the blocks all joins a group, if its banks are known. -/
theorem PartitionByBank.perm_of_shrink {β : Type} {bank : Address → β} (hb : b.NoiseFree bank)
    (h : PartitionByBank bank c.groups) (hsize : size ≠ 0) (hrun : c.setBlockSize b size = .ok c')
    (hlt : size < c.blockSize) (hknown : ∀ x ∈ interior c.groups c.blockSize size,
      ∃ a ∈ allMembers c.groups, bank a = bank x) :
    (allMembers c'.groups).Perm (interior c.groups c.blockSize size ++ allMembers c.groups) := by
  rw [groups_of_shrink hsize hrun hlt, allMembers, List.flatMap_map]
  exact h.perm_classifyAll_known hb false hknown 0

/-- A switch only fails for a member near the end of the word. -/
theorem setBlockSize_error (hsize : c.blockSize ≠ 0) (hrun : c.setBlockSize b size = .error f) :
    f = .sumOverflow ∧ NearEnd c.blockSize c.groups := by
  rw [setBlockSize] at hrun
  split at hrun
  · cases hrun
  · have hcut := eq_error_of_map hrun
    rw [cutTo] at hcut
    split at hcut
    · obtain ⟨rfl, a, ha, hge⟩ := insideBlocks_error (eq_error_of_map hcut)
      rw [alignedMembers_eq] at ha
      exact ⟨rfl, a, (List.mem_filter.mp ha).1, hge⟩
    · split at hcut
      · rw [simplify, if_neg hsize] at hcut
        exact simplifyGroups_error (eq_error_of_map hcut)
      · cases hcut

theorem exists_expand (hpower : ∃ k, c.blockSize.toNat = 2 ^ k) (new : UInt64) :
    ∃ c', c.expand b c.blockSize new = .ok c' := by
  have hroom : ∀ a ∈ alignedMembers c.groups c.blockSize,
      a.toNat + c.blockSize.toNat ≤ 2 ^ 64 := by
    intro a ha
    obtain ⟨g, -, hmem⟩ := List.mem_flatMap.mp ha
    exact add_size_le hpower (mod_eq_zero_iff.mp (List.mem_filter.mp hmem).2)
  rw [expand, insideBlocks_eq (pos_of_power hpower) hroom]
  exact ⟨_, rfl⟩

theorem dvd_of_power_le (hold : ∃ k, old.toNat = 2 ^ k) (hnew : ∃ k, new.toNat = 2 ^ k)
    (hle : old ≤ new) : old.toNat ∣ new.toNat := by
  obtain ⟨i, hi⟩ := hold
  obtain ⟨j, hj⟩ := hnew
  rw [UInt64.le_iff_toNat_le, hi, hj] at hle
  rw [hi, hj]
  exact Nat.pow_dvd_pow 2 ((Nat.pow_le_pow_iff_right Nat.one_lt_two).mp hle)

/-- Between powers of two, every switch is carried out. -/
theorem exists_setBlockSize (b : Bench σ) (hold : ∃ k, c.blockSize.toNat = 2 ^ k)
    (hnew : ∃ k, size.toNat = 2 ^ k) :
    ∃ c', c.setBlockSize b size = .ok c' ∧ c'.blockSize = size := by
  have hcut : ∃ c', c.cutTo b size = .ok c' := by
    rw [cutTo]
    split
    · exact exists_expand hold size
    · split
      · next hlt =>
          exact ⟨_, simplify_eq hnew (dvd_of_power_le hold hnew (UInt64.le_of_lt hlt))⟩
      · exact ⟨c, rfl⟩
  obtain ⟨c', hrun⟩ := hcut
  rw [setBlockSize, if_neg (toNat_pos_iff.mp (pos_of_power hnew)), hrun]
  exact ⟨commit size c', rfl, blockSize_commit size c'⟩

end Classifier

end DramBanks
