import DramBanks.Proofs.Classifier.Outcomes
import DramBanks.Proofs.Classifier.Region
/-!
# Shrinking and growing back

    Shrinking the blocks adds addresses behind the members of the groups,
    all of them off the boundaries of the old blocks.  Growing back looks at
    the boundaries only, so what is left of a group comes from its old
    members, whatever the probe answered in between.

    Without noise, and with banks that are constant on the old blocks,
    everything inside the block of a member has joined the group of this
    member.  So every block is whole when it grows back, and the shrinking
    is undone. -/

namespace DramBanks.Classifier

variable {σ : Type} {b : Bench σ} {c c₁ c₂ : Classifier σ} {old new : UInt64}

/-- What is inside the blocks is off their boundaries. -/
theorem not_dvd_of_mem_interior (hpower : ∃ k, old.toNat = 2 ^ k) (hdvd : new.toNat ∣ old.toNat)
    {groups : List Group} {x : Address} (hx : x ∈ interior groups old new) :
    ¬ old.toNat ∣ x.toNat := by
  obtain ⟨a, -, ha, -, hblock, hne⟩ := (mem_interior_iff hpower hdvd).mp hx
  intro haligned
  refine hne (UInt64.toNat_inj.mp ?_)
  rw [← UInt64.toNat_inj, UInt64.toNat_div, UInt64.toNat_div] at hblock
  rw [← Nat.div_mul_cancel haligned, ← hblock, Nat.div_mul_cancel ha]

/-- Of an extended group, growing keeps old members only, if the new ones are off the boundaries. -/
theorem members_thinned_of_extends {added : List Address} {g g₁ : Group}
    (h : Extends added g g₁) (hoff : ∀ x ∈ added, ¬ old.toNat ∣ x.toNat) :
    (thinned new old g₁).members
      = sorted (g.members.filter fun a => Whole g₁.members new.toNat old.toNat a) := by
  obtain ⟨more, hmore, heq⟩ := h
  have hnone : (more.filter fun a => Whole g₁.members new.toNat old.toNat a) = [] := by
    rw [List.filter_eq_nil_iff]
    intro x hx hwhole
    exact hoff x (hmore.subset hx) (of_decide_eq_true hwhole).1
  show sorted (g₁.members.filter fun a => Whole g₁.members new.toNat old.toNat a) = _
  conv_lhs => rw [heq, List.filter_append, ← heq, hnone, List.append_nil]

section Back

variable (hold : ∃ k, c.blockSize.toNat = 2 ^ k) (hnew : ∃ k, new.toNat = 2 ^ k)
  (hlt : new < c.blockSize) (hset₁ : c.setBlockSize b new = .ok c₁)
include hold hnew hlt hset₁

/-- Every block of a member is whole after shrinking, if banks are constant on the blocks. -/
theorem whole_of_shrink {β : Type} {bank : Address → β} (hb : b.NoiseFree bank)
    (hconstant : ∀ a x, a / c.blockSize = x / c.blockSize → bank a = bank x)
    (h : PartitionByBank bank c.groups) {g g₁ : Group} (hg : g ∈ c.groups) (hg₁ : g₁ ∈ c₁.groups)
    (hsub : g.members ⊆ g₁.members) {a : Address} (ha : a ∈ g.members)
    (haligned : c.blockSize.toNat ∣ a.toNat) :
    Whole g₁.members new.toNat c.blockSize.toNat a := by
  have hdvd := dvd_of_power_le hnew hold (UInt64.le_of_lt hlt)
  have hnonzero : new ≠ 0 := toNat_pos_iff.mp (pos_of_power hnew)
  have hknown : ∀ x ∈ interior c.groups c.blockSize new,
      ∃ a ∈ allMembers c.groups, bank a = bank x := by
    intro x hx
    obtain ⟨a, ha, -, -, hblock, -⟩ := (mem_interior_iff hold hdvd).mp hx
    exact ⟨a, ha, hconstant a x hblock⟩
  have hperm := h.perm_of_shrink hb hnonzero hset₁ hlt hknown
  have hpart₁ := h.setBlockSize hb hset₁
  refine ⟨haligned, ?_⟩
  intro i hi
  have hend := add_size_le hold haligned
  have hoffset : (i + 1) * new.toNat ≤ c.blockSize.toNat := by
    rw [← Nat.div_mul_cancel hdvd]
    exact Nat.mul_le_mul_right _ hi
  have hnat : (a + UInt64.ofNat i * new).toNat = a.toNat + i * new.toNat := by
    refine toNat_add_mul ?_
    rw [Nat.succ_mul] at hoffset
    have hpos := pos_of_power hnew
    omega
  have hpiece : a + UInt64.ofNat i * new ∈ progression a new (c.blockSize.toNat / new.toNat) :=
    List.mem_map_of_mem (List.mem_range.mpr hi)
  obtain ⟨hstep, hblock⟩ := (mem_progression_block hold haligned hdvd).mp hpiece
  rw [← hnat]
  by_cases hfirst : a + UInt64.ofNat i * new = a
  · rw [hfirst]
    exact occupied_of_mem (hsub ha)
  · -- the piece has been added, to the only group of its bank
    have hinside : a + UInt64.ofNat i * new ∈ interior c.groups c.blockSize new :=
      (mem_interior_iff hold hdvd).mpr
        ⟨a, mem_allMembers.mpr ⟨g, hg, ha⟩, haligned, hstep, hblock, hfirst⟩
    have hmem := hperm.mem_iff.mpr (List.mem_append_left _ hinside)
    exact occupied_of_mem
      (hpart₁.mem_of_bank_eq hg₁ (hsub ha) hmem (hconstant _ _ hblock))

end Back

/-- **UNDOING**: for powers of two, shrinking the blocks keeps the members of every group at its
    front, and growing back right after it leaves some of the old members of every group, in
    order and on the boundaries of the blocks, whatever the probe answers.  If all members were
    on boundaries, and the groups were a partition by bank, without noise and with banks that
    are constant on the blocks, all members are left. -/
theorem setBlockSize_undone (hold : ∃ k, c.blockSize.toNat = 2 ^ k)
    (hnew : ∃ k, new.toNat = 2 ^ k) (hlt : new < c.blockSize) :
    ∃ c₁ c₂, c.setBlockSize b new = .ok c₁ ∧ c₁.blockSize = new
      ∧ c₁.setBlockSize b c.blockSize = .ok c₂ ∧ c₂.blockSize = c.blockSize
      ∧ List.Forall₂ (fun g g₁ => g.members <+: g₁.members) c.groups c₁.groups
      ∧ List.Forall₂ (fun g g₂ => g₂.members.Pairwise (· ≤ ·)
          ∧ g₂.members.Subperm (g.members.filter fun a => c.blockSize.toNat ∣ a.toNat))
          c.groups c₂.groups
      ∧ ∀ {β : Type} (bank : Address → β), b.NoiseFree bank → PartitionByBank bank c.groups →
          (∀ a x, a / c.blockSize = x / c.blockSize → bank a = bank x) →
          (∀ a ∈ allMembers c.groups, c.blockSize.toNat ∣ a.toNat) →
          c₂.groups.map Group.members = c.groups.map fun g => sorted g.members := by
  have hdvd := dvd_of_power_le hnew hold (UInt64.le_of_lt hlt)
  have hnonzero : new ≠ 0 := toNat_pos_iff.mp (pos_of_power hnew)
  have hnonzero₂ : c.blockSize ≠ 0 := toNat_pos_iff.mp (pos_of_power hold)
  obtain ⟨c₁, hset₁, hsize₁⟩ := exists_setBlockSize b hold hnew
  obtain ⟨c₂, hset₂, hsize₂⟩ := exists_setBlockSize b (hsize₁.symm ▸ hnew) hold
  have hgroups₂ := groups_of_grow hnonzero₂ hset₂ (hsize₁.symm ▸ hlt)
  rw [hsize₁] at hgroups₂
  have hextends := extends_of_shrink hnonzero hset₁ hlt
  -- what is left of a group are the starts of whole blocks among its old members
  have hoff : ∀ x ∈ interior c.groups c.blockSize new, ¬ c.blockSize.toNat ∣ x.toNat :=
    fun x hx => not_dvd_of_mem_interior hold hdvd hx
  refine ⟨c₁, c₂, hset₁, hsize₁, hset₂, hsize₂, ?_, ?_, ?_⟩
  · refine hextends.imp ?_
    rintro g g₁ ⟨added, -, heq⟩
    exact ⟨added, heq.symm⟩
  · rw [hgroups₂, List.forall₂_map_right_iff]
    refine hextends.imp ?_
    intro g g₁ hext
    rw [members_thinned_of_extends hext hoff]
    refine ⟨pairwise_sorted _, (List.mergeSort_perm _ _).subperm.trans ?_⟩
    refine (List.monotone_filter_right g.members ?_).subperm
    intro a hwhole
    exact decide_eq_true (of_decide_eq_true hwhole).1
  · intro β bank hb hpart hconstant haligned
    rw [hgroups₂, List.map_map, ← List.forall₂_eq_eq_eq, List.forall₂_map_left_iff,
      List.forall₂_map_right_iff]
    refine (forall₂_imp_of_mem hextends ?_).flip
    intro g hg g₁ hg₁ hext
    have hsub : g.members ⊆ g₁.members := by
      obtain ⟨added, -, heq⟩ := hext
      rw [heq]
      exact List.subset_append_left g.members added
    show (thinned new c.blockSize g₁).members = sorted g.members
    rw [members_thinned_of_extends hext hoff, List.filter_eq_self.mpr]
    intro a ha
    exact decide_eq_true
      (whole_of_shrink hold hnew hlt hset₁ hb hconstant hpart hg hg₁ hsub ha
        (haligned a (mem_allMembers.mpr ⟨g, hg, ha⟩)))

/-- Two banks of blocks of 8 KB, and a group that has lost its members. -/
def twoBanks : Classifier Nat :=
  ⟨[.ofMembers [32768, 0] 8192, .ofMembers [] 8192, .ofMembers [8192] 8192], 8192, 0, []⟩

theorem setBlockSize_undone_two_banks :
    ∃ c₁ c₂, twoBanks.setBlockSize (Bench.simulated {} [8192]) 2048 = .ok c₁
      ∧ c₁.setBlockSize (Bench.simulated {} [8192]) 8192 = .ok c₂
      ∧ List.Forall₂ (fun g g₁ => g.members <+: g₁.members) twoBanks.groups c₁.groups
      ∧ c₂.groups.map Group.members = [[0, 32768], [], [8192]] := by
  have hms : ∀ m ∈ [8192], Mask.Within 13 64 m := List.forall_mem_singleton.mpr (by decide)
  have hsize : twoBanks.blockSize.toNat = 2 ^ 13 := by decide
  have hconstant := parities_eq_of_div_eq hms hsize
  have hpart : PartitionByBank (parities [8192]) twoBanks.groups := by decide
  have hnew : ∃ k, (2048 : UInt64).toNat = 2 ^ k := ⟨11, by decide⟩
  obtain ⟨c₁, c₂, hset₁, -, hset₂, -, hfront, -, hundone⟩ :=
    setBlockSize_undone (b := Bench.simulated {} [8192]) (c := twoBanks) ⟨13, by decide⟩ hnew
      (by decide)
  refine ⟨c₁, c₂, hset₁, hset₂, hfront, ?_⟩
  rw [hundone (parities [8192]) (Bench.noiseFree_simulated (by decide) _) hpart hconstant
    (forall_mem_of_all (by decide))]
  have hswapped : sorted [32768, 0] = [0, 32768] :=
    (sorted_eq_of_perm (List.Perm.swap ..)).trans (List.mergeSort_of_pairwise (by decide))
  show [sorted [32768, 0], sorted [], sorted [8192]] = _
  rw [hswapped, sorted, sorted, List.mergeSort_nil, List.mergeSort_singleton]

end DramBanks.Classifier
