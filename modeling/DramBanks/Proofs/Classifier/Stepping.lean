import DramBanks.Proofs.Classifier.Outcomes
/-!
# Steps and jumps

    Doubling or halving the block size up to a target does what a single
    switch to the target does.

    Upwards this holds of the groups as they are, whatever the probe
    answers.  A block is whole if its halves are, so thinning a thinned
    group is thinning it once (`thinned_thinned`), and a classifier that
    has `Grown` grows on.

    Downwards every step classifies against the groups that the step before
    has left.  Without noise the groups keep their banks, and together they
    hold the cut of the first members (`Spread`).  Both are said of the size
    that is reached and not of the way to it, and a partition by bank is
    known from its banks and its members. -/

namespace DramBanks.Classifier

variable {σ β : Type} {b : Bench σ} {bank : Address → β} {c c₁ c₂ : Classifier σ}
  {old mid new size : UInt64}

/-! ## Doublings -/

theorem occupied_thinned {g : Group} {n : Nat} (hmid : old.toNat ≤ mid.toNat)
    (hpos : 0 < old.toNat) : Occupied (thinned old mid g).members n
      ↔ mid.toNat ∣ n ∧ ∀ i < mid.toNat / old.toNat, Occupied g.members (n + i * old.toNat) := by
  have hfirst : 0 < mid.toNat / old.toNat := Nat.div_pos hmid hpos
  constructor
  · rintro ⟨a, ha, rfl⟩
    exact of_decide_eq_true (List.mem_filter.mp (mem_sorted.mp ha)).2
  · rintro ⟨hdvd, hpieces⟩
    obtain ⟨a, ha, heq⟩ := hpieces 0 hfirst
    rw [Nat.zero_mul, Nat.add_zero] at heq
    subst heq
    exact ⟨a, mem_sorted.mpr (List.mem_filter.mpr ⟨ha, decide_eq_true ⟨hdvd, hpieces⟩⟩), rfl⟩

/-- A block is whole exactly if its parts are. -/
theorem whole_thinned (hpos : 0 < old.toNat) (hold : old.toNat ∣ mid.toNat)
    (hnew : mid.toNat ∣ new.toNat) (hnewpos : 0 < new.toNat) {g : Group} {a : Address} :
    Whole (thinned old mid g).members mid.toNat new.toNat a
      ↔ Whole g.members old.toNat new.toNat a := by
  obtain ⟨p, hp⟩ := hold
  obtain ⟨q, hq⟩ := hnew
  have hmidpos : 0 < mid.toNat := Nat.pos_of_mul_pos_right (hq ▸ hnewpos)
  have hppos : 0 < p := Nat.pos_of_mul_pos_left (hp ▸ hmidpos)
  have hparts : mid.toNat / old.toNat = p := by rw [hp, Nat.mul_div_cancel_left p hpos]
  have hblocks : new.toNat / mid.toNat = q := by rw [hq, Nat.mul_div_cancel_left q hmidpos]
  have hall : new.toNat / old.toNat = p * q := by
    rw [hq, hp, Nat.mul_assoc, Nat.mul_div_cancel_left _ hpos]
  have hle : old.toNat ≤ mid.toNat := hp ▸ Nat.le_mul_of_pos_right _ hppos
  rw [Whole, Whole]
  refine and_congr_right ?_
  intro haligned
  simp only [occupied_thinned hle hpos, hparts, hblocks, hall]
  constructor
  · intro h k hk
    -- the piece `k` is the piece `k % p` of the part `k / p`
    have hpiece := (h (k / p) (Nat.div_lt_of_lt_mul hk)).2 (k % p) (Nat.mod_lt k hppos)
    have hplace : k / p * mid.toNat + k % p * old.toNat = k * old.toNat := by
      conv_rhs => rw [← Nat.div_add_mod k p]
      rw [hp, Nat.add_mul, Nat.mul_comm p, Nat.mul_assoc, Nat.mul_comm p]
    rwa [Nat.add_assoc, hplace] at hpiece
  · intro h j hj
    refine ⟨Nat.dvd_add (Nat.dvd_trans (Dvd.intro q hq.symm) haligned) (Nat.dvd_mul_left _ _), ?_⟩
    intro i hi
    have hpiece : j * p + i < p * q := by
      have hrow : (j + 1) * p ≤ q * p := Nat.mul_le_mul_right p hj
      rw [Nat.succ_mul] at hrow
      rw [Nat.mul_comm p q]
      omega
    have hplace : j * mid.toNat + i * old.toNat = (j * p + i) * old.toNat := by
      rw [hp, Nat.add_mul, Nat.mul_comm old.toNat, Nat.mul_assoc]
    rw [Nat.add_assoc, hplace]
    exact h _ hpiece

/-- Thinning in two steps is thinning in one. -/
theorem thinned_thinned (hpos : 0 < old.toNat) (hold : old.toNat ∣ mid.toNat)
    (hnew : mid.toNat ∣ new.toNat) (hnewpos : 0 < new.toNat) (g : Group) :
    thinned mid new (thinned old mid g) = thinned old new g := by
  have hthinner : ∀ a, Whole g.members old.toNat new.toNat a →
      Whole g.members old.toNat mid.toNat a := by
    intro a ha
    refine ⟨Nat.dvd_trans hnew ha.1, ?_⟩
    intro i hi
    exact ha.2 i (Nat.lt_of_lt_of_le hi (Nat.div_le_div_right (Nat.le_of_dvd hnewpos hnew)))
  have hperm : (((thinned old mid g).members).filter fun a =>
        Whole (thinned old mid g).members mid.toNat new.toNat a).Perm
      (g.members.filter fun a => Whole g.members old.toNat new.toNat a) := by
    simp only [whole_thinned hpos hold hnew hnewpos]
    refine ((List.mergeSort_perm _ _).filter _).trans (List.Perm.of_eq ?_)
    rw [List.filter_filter]
    refine List.filter_congr ?_
    intro a _
    rw [← Bool.decide_and]
    exact decide_eq_decide.mpr (and_iff_left_of_imp (hthinner a))
  rw [thinned, sorted_eq_of_perm hperm, ← thinned]

/-- From `c` on, the groups have been thinned to larger blocks, or nothing has happened yet. -/
def Grown (c c' : Classifier σ) : Prop :=
  c'.blockSize = c.blockSize ∧ c'.groups = c.groups
    ∨ c.blockSize < c'.blockSize ∧ c'.groups = c.groups.map (thinned c.blockSize c'.blockSize)

theorem Grown.refl (c : Classifier σ) : Grown c c := Or.inl ⟨rfl, rfl⟩

/-- **STEP**: what has grown grows on. -/
theorem Grown.setBlockSize (h : Grown c c₁) (hpower : ∃ k, c.blockSize.toNat = 2 ^ k)
    (hpower₁ : ∃ k, c₁.blockSize.toNat = 2 ^ k) (hsize : ∃ k, size.toNat = 2 ^ k)
    (hlt : c₁.blockSize < size) (hrun : c₁.setBlockSize b size = .ok c₂) : Grown c c₂ := by
  have hpos := pos_of_power hpower
  have hsizepos := pos_of_power hsize
  have hnonzero : size ≠ 0 := toNat_pos_iff.mp hsizepos
  have hsame := (setBlockSize_cases hnonzero hrun).1
  have hgroups := groups_of_grow hnonzero hrun hlt
  have hnew := dvd_of_power_le hpower₁ hsize (UInt64.le_of_lt hlt)
  refine Or.inr ?_
  rw [hsame, hgroups]
  rcases h with ⟨hkept, hold⟩ | ⟨hgrown, hold⟩
  · rw [← hkept, hold]
    exact ⟨hlt, rfl⟩
  · have hdvd := dvd_of_power_le hpower hpower₁ (UInt64.le_of_lt hgrown)
    refine ⟨UInt64.lt_trans hgrown hlt, ?_⟩
    rw [hold, List.map_map]
    exact List.map_congr_left fun g _ => thinned_thinned hpos hdvd hnew hsizepos g

/-- What has grown to some larger size has the same groups, whatever the way. -/
theorem Grown.groups_eq (h₁ : Grown c c₁) (h₂ : Grown c c₂) (hlt : c.blockSize < c₁.blockSize)
    (hsame : c₂.blockSize = c₁.blockSize) : c₁.groups = c₂.groups := by
  have hgrown : ∀ {c' : Classifier σ}, Grown c c' → c.blockSize < c'.blockSize →
      c'.groups = c.groups.map (thinned c.blockSize c'.blockSize) := by
    rintro c' (⟨hkept, -⟩ | ⟨-, hgroups⟩) hlt
    · exact absurd (hkept ▸ hlt) (UInt64.lt_irrefl _)
    · exact hgroups
  rw [hgrown h₁ hlt, hgrown h₂ (hsame.symm ▸ hlt), hsame]

/-! ## Halvings -/

/-- The groups have addresses of the same banks. -/
def SameBanks (bank : Address → β) (g g' : Group) : Prop :=
  ∀ k, (∃ a ∈ g.members, bank a = k) ↔ ∃ a ∈ g'.members, bank a = k

theorem SameBanks.refl (g : Group) : SameBanks bank g g := fun _ => Iff.rfl

theorem SameBanks.keepsBanks {g g' : Group} (h : SameBanks bank g g') : KeepsBanks bank g g' :=
  fun a ha => (h (bank a)).mpr ⟨a, ha, rfl⟩

section Banks

variable (hb : b.NoiseFree bank) (h : PartitionByBank bank c.groups)
include hb h

/-- **STEP**: without noise, an address joins a group that has its bank already. -/
theorem PartitionByBank.sameBanks_classify (addr : Address) :
    List.Forall₂ (SameBanks bank) c.groups (c.classify b false addr).2.groups := by
  rcases classify_cases b false c addr with ⟨i, g, s, hget, hscore, -, hgroups⟩ | ⟨-, -, hgroups⟩
  · rw [hgroups]
    refine forall₂_modify_push SameBanks.refl hget ?_
    have hbank := (Group.score_iff hb (h.pure g (List.mem_of_getElem? hget)) addr s).mp hscore
    intro k
    simp only [mem_members_push, or_and_right, exists_or, exists_eq_left]
    refine (or_iff_left_of_imp ?_).symm
    rintro rfl
    exact hbank
  · rw [hgroups]
    exact List.forall₂_same.mpr fun g _ => SameBanks.refl g

/-- **RUN**: so do addresses in turn. -/
theorem PartitionByBank.sameBanks_classifyAll (addrs : List Address) (misses : Nat) :
    List.Forall₂ (SameBanks bank) c.groups
      (Classifier.classifyAll b false addrs misses c).2.groups := by
  induction addrs generalizing misses c with
  | nil => exact List.forall₂_same.mpr fun g _ => SameBanks.refl g
  | cons addr rest ih =>
      have hstep := PartitionByBank.classify hb (n := 0) (Nat.zero_le _) h false addr
      rw [classifyAll_cons]
      refine forall₂_trans ?_ (h.sameBanks_classify hb addr) (ih hstep _)
      intro g g' g'' hg hg' k
      exact (hg k).trans (hg' k)

end Banks

/-- Groups with the same banks have the same members, if both are partitions of the same
    addresses. -/
theorem PartitionByBank.perm_of_sameBanks {groups groups' : List Group}
    (h : PartitionByBank bank groups) (h' : PartitionByBank bank groups')
    (hperm : (allMembers groups).Perm (allMembers groups')) {g g' : Group} (hg : g ∈ groups)
    (hg' : g' ∈ groups') (hsame : SameBanks bank g g') : g.members.Perm g'.members := by
  classical
  have hfilter := filter_sharing h hg
    (p := fun a => ∃ x ∈ g.members, bank x = bank a) fun a => decide_eq_true_iff
  have hfilter' := filter_sharing h' hg'
    (p := fun a => ∃ x ∈ g.members, bank x = bank a)
    fun a => decide_eq_true_iff.trans (hsame (bank a))
  rw [← hfilter, ← hfilter']
  exact hperm.filter _

/-- From `c` on, the groups have kept their banks and spread over the blocks of their members. -/
structure Spread (bank : Address → β) (c c' : Classifier σ) : Prop where
  dvd : c'.blockSize.toNat ∣ c.blockSize.toNat
  banks : List.Forall₂ (SameBanks bank) c.groups c'.groups
  perm : (allMembers c'.groups).Perm (cut c.blockSize c'.blockSize (allMembers c.groups))

theorem Spread.refl (hpos : 0 < c.blockSize.toNat) : Spread bank c c := by
  refine ⟨Nat.dvd_refl _, List.forall₂_same.mpr fun g _ => SameBanks.refl g, ?_⟩
  rw [cut_self hpos]

theorem Spread.partition (h : Spread bank c c₁) (hpart : PartitionByBank bank c.groups) :
    PartitionByBank bank c₁.groups :=
  hpart.of_keepsBanks (h.banks.imp fun _ _ hsame => hsame.keepsBanks)

/-- **STEP**: without noise, what has spread spreads on, as long as the banks inside the blocks
    are known. -/
theorem Spread.setBlockSize (h : Spread bank c c₁) (hb : b.NoiseFree bank)
    (hpart : PartitionByBank bank c.groups) (hpower : ∃ k, c.blockSize.toNat = 2 ^ k)
    (haligned : ∀ a ∈ allMembers c.groups, c.blockSize.toNat ∣ a.toNat)
    (hsize : ∃ k, size.toNat = 2 ^ k) (hlt : size < c₁.blockSize)
    (hknown : ∀ x ∈ cut c.blockSize size (allMembers c.groups),
      ∃ a ∈ allMembers c.groups, bank a = bank x)
    (hrun : c₁.setBlockSize b size = .ok c₂) : Spread bank c c₂ := by
  have hpower₁ := power_of_dvd hpower h.dvd
  have hpos₁ := pos_of_power hpower₁
  have hdvd := dvd_of_power_le hsize hpower₁ (UInt64.le_of_lt hlt)
  have hnonzero : size ≠ 0 := toNat_pos_iff.mp (pos_of_power hsize)
  have hsame := (setBlockSize_cases hnonzero hrun).1
  have hpart₁ := h.partition hpart
  have haligned₁ : ∀ a ∈ allMembers c₁.groups, c₁.blockSize.toNat ∣ a.toNat := by
    intro a ha
    exact ((mem_cut_iff hpower haligned h.dvd).mp (h.perm.mem_iff.mp ha)).1
  -- together the new and the old members are cut from the members at the start
  have hcut : (interior c₁.groups c₁.blockSize size ++ allMembers c₁.groups).Perm
      (cut c.blockSize size (allMembers c.groups)) := by
    rw [← cut_cut hpos₁ h.dvd hdvd]
    exact (interior_append_perm_cut hpos₁ hdvd haligned₁).trans (h.perm.flatMap_right _)
  have hknown₁ : ∀ x ∈ interior c₁.groups c₁.blockSize size,
      ∃ a ∈ allMembers c₁.groups, bank a = bank x := by
    intro x hx
    obtain ⟨a, ha, hbank⟩ := hknown x (hcut.mem_iff.mp (List.mem_append_left _ hx))
    have hmem : a ∈ cut c.blockSize c₁.blockSize (allMembers c.groups) :=
      (mem_cut_iff hpower haligned h.dvd).mpr
        ⟨Nat.dvd_trans h.dvd (haligned a ha), a, ha, rfl⟩
    exact ⟨a, h.perm.mem_iff.mpr hmem, hbank⟩
  refine ⟨hsame.symm ▸ Nat.dvd_trans hdvd h.dvd, ?_, ?_⟩
  · rw [groups_of_shrink hnonzero hrun hlt, List.forall₂_map_right_iff]
    refine forall₂_trans ?_ h.banks (hpart₁.sameBanks_classifyAll hb _ 0)
    intro g g' g'' hg hg' k
    exact (hg k).trans (hg' k)
  · rw [hsame]
    exact (hpart₁.perm_of_shrink hb hnonzero hrun hlt hknown₁).trans hcut

/-- What has spread to the same size has the same members, whatever the way. -/
theorem Spread.perm_members (h₁ : Spread bank c c₁) (h₂ : Spread bank c c₂)
    (hpart : PartitionByBank bank c.groups) (hsame : c₂.blockSize = c₁.blockSize) :
    List.Forall₂ (fun g g' => g.members.Perm g'.members) c₁.groups c₂.groups := by
  have hperm : (allMembers c₁.groups).Perm (allMembers c₂.groups) := by
    refine h₁.perm.trans ?_
    rw [← hsame]
    exact h₂.perm.symm
  have hbanks : List.Forall₂ (SameBanks bank) c₁.groups c₂.groups := by
    refine forall₂_trans ?_ h₁.banks.flip h₂.banks
    intro g₁ g g₂ hg₁ hg₂ k
    exact (hg₁ k).symm.trans (hg₂ k)
  refine forall₂_imp_of_mem hbanks ?_
  intro g₁ hg₁ g₂ hg₂ hbanks
  exact (h₁.partition hpart).perm_of_sameBanks (h₂.partition hpart) hperm hg₁ hg₂ hbanks

/-! ## Steps -/

section Steps

variable {target : UInt64} (hold : ∃ k, c.blockSize.toNat = 2 ^ k)
  (htarget : ∃ k, target.toNat = 2 ^ k)
include hold htarget

/-- Whatever the probe answers, the target is reached, with what the steps towards it keep. -/
theorem exists_steps {P : Classifier σ → Prop}
    (hstep : ∀ {c₁ c₂ : Classifier σ} {next : UInt64}, P c₁ → (∃ k, c₁.blockSize.toNat = 2 ^ k) →
      (∃ k, next.toNat = 2 ^ k) →
      (c₁.blockSize < next ∧ next ≤ target ∨ next < c₁.blockSize ∧ target ≤ next) →
      c₁.setBlockSize b next = .ok c₂ → c₂.blockSize = next → P c₂) (h : P c) :
    ∃ c₁, c.setBlockSizeInSteps b target = .ok (target, c₁) ∧ c₁.blockSize = target ∧ P c₁ := by
  obtain ⟨i, hi⟩ := hold
  obtain ⟨t, ht⟩ := htarget
  refine exists_setBlockSizeInSteps hi ht ?_ h
  intro c₁ next i' j h₁ hi' hj hcloser
  obtain ⟨c₂, hset, hsame⟩ := exists_setBlockSize b ⟨i', hi'⟩ ⟨j, hj⟩
  refine ⟨c₂, hset, hsame, hstep h₁ ⟨i', hi'⟩ ⟨j, hj⟩ ?_ hset hsame⟩
  rw [UInt64.lt_iff_toNat_lt, UInt64.le_iff_toNat_le, UInt64.lt_iff_toNat_lt,
    UInt64.le_iff_toNat_le, hi', hj, ht]
  rcases hcloser with ⟨hup, rfl⟩ | ⟨hdown, rfl⟩
  · exact Or.inl ⟨Nat.pow_lt_pow_succ Nat.one_lt_two, Nat.pow_le_pow_right Nat.two_pos hup⟩
  · exact Or.inr ⟨Nat.pow_lt_pow_succ Nat.one_lt_two,
      Nat.pow_le_pow_right Nat.two_pos (Nat.le_of_lt_succ hdown)⟩

/-- **RUN**: doublings up to a target are carried out, and thin the groups. -/
theorem exists_grown (b : Bench σ) (hlt : c.blockSize < target) :
    ∃ c₁, c.setBlockSizeInSteps b target = .ok (target, c₁) ∧ Grown c c₁ := by
  have hstart : c.blockSize ≤ target ∧ Grown c c := ⟨UInt64.le_of_lt hlt, Grown.refl c⟩
  have hsteps : ∃ c₁, c.setBlockSizeInSteps b target = .ok (target, c₁) ∧ c₁.blockSize = target
      ∧ c₁.blockSize ≤ target ∧ Grown c c₁ := by
    refine exists_steps hold htarget ?_ hstart
    rintro c₁ c₂ next ⟨hle, hgrown⟩ hpower₁ hnext hcloser hset hsame
    rcases hcloser with ⟨hup, hbelow⟩ | ⟨hdown, habove⟩
    · exact ⟨hsame.symm ▸ hbelow, hgrown.setBlockSize hold hpower₁ hnext hup hset⟩
    · exact absurd (UInt64.lt_of_lt_of_le hdown (UInt64.le_trans hle habove))
        (UInt64.lt_irrefl next)
  obtain ⟨c₁, hrun, -, -, hgrown⟩ := hsteps
  exact ⟨c₁, hrun, hgrown⟩

/-- **RUN**: without noise, halvings down to a target are carried out, and spread the groups. -/
theorem exists_spread (hb : b.NoiseFree bank) (hpart : PartitionByBank bank c.groups)
    (haligned : ∀ a ∈ allMembers c.groups, c.blockSize.toNat ∣ a.toNat)
    (hknown : ∀ x ∈ cut c.blockSize target (allMembers c.groups),
      ∃ a ∈ allMembers c.groups, bank a = bank x) (hlt : target < c.blockSize) :
    ∃ c₁, c.setBlockSizeInSteps b target = .ok (target, c₁) ∧ Spread bank c c₁ := by
  have hstart : target ≤ c.blockSize ∧ Spread bank c c :=
    ⟨UInt64.le_of_lt hlt, Spread.refl (pos_of_power hold)⟩
  have hsteps : ∃ c₁, c.setBlockSizeInSteps b target = .ok (target, c₁) ∧ c₁.blockSize = target
      ∧ target ≤ c₁.blockSize ∧ Spread bank c c₁ := by
    refine exists_steps hold htarget ?_ hstart
    rintro c₁ c₂ next ⟨hle, hspread⟩ hpower₁ hnext hcloser hset hsame
    rcases hcloser with ⟨hup, hbelow⟩ | ⟨hdown, habove⟩
    · exact absurd (UInt64.lt_of_lt_of_le hup (UInt64.le_trans hbelow hle))
        (UInt64.lt_irrefl c₁.blockSize)
    · -- what is cut on the way is cut at the target as well
      have hfiner := dvd_of_power_le htarget hnext habove
      have hcoarse := dvd_of_power_le hnext hpower₁ (UInt64.le_of_lt hdown)
      have hdvd := Nat.dvd_trans hcoarse hspread.dvd
      have hknown' : ∀ x ∈ cut c.blockSize next (allMembers c.groups),
          ∃ a ∈ allMembers c.groups, bank a = bank x := by
        intro x hx
        obtain ⟨hpiece, hblock⟩ := (mem_cut_iff hold haligned hdvd).mp hx
        exact hknown x ((mem_cut_iff hold haligned (Nat.dvd_trans hfiner hdvd)).mpr
          ⟨Nat.dvd_trans hfiner hpiece, hblock⟩)
      exact ⟨hsame.symm ▸ habove,
        hspread.setBlockSize hb hpart hold haligned hnext hdown hknown' hset⟩
  obtain ⟨c₁, hrun, -, -, hspread⟩ := hsteps
  exact ⟨c₁, hrun, hspread⟩

end Steps

/-- **STEPS AND JUMPS**: between powers of two, doubling or halving up to a target ends there.  On
    the way to larger blocks the groups are those of a single switch, whatever the probe answers.
    On the way to smaller ones every group has the members that it has after a single switch, if
    there is no noise, the groups are a partition by bank of addresses on boundaries, and every
    address inside the blocks has the bank of some member. -/
theorem setBlockSizeInSteps_eq_switch {target : UInt64} (hold : ∃ k, c.blockSize.toNat = 2 ^ k)
    (htarget : ∃ k, target.toNat = 2 ^ k) :
    ∃ c₁ c₂, c.setBlockSizeInSteps b target = .ok (target, c₁) ∧ c₁.blockSize = target
      ∧ c.setBlockSize b target = .ok c₂
      ∧ (c.blockSize < target → c₁.groups = c₂.groups)
      ∧ ∀ {β : Type} (bank : Address → β), target < c.blockSize → b.NoiseFree bank →
          PartitionByBank bank c.groups →
          (∀ a ∈ allMembers c.groups, c.blockSize.toNat ∣ a.toNat) →
          (∀ x ∈ interior c.groups c.blockSize target,
            ∃ a ∈ allMembers c.groups, bank a = bank x) →
          List.Forall₂ (fun g₁ g₂ => g₁.members.Perm g₂.members) c₁.groups c₂.groups := by
  obtain ⟨c₁, hrun, hsame, -⟩ := exists_steps (b := b) (P := fun _ => True) hold htarget
    (fun _ _ _ _ _ _ => trivial) trivial
  obtain ⟨c₂, hset, hset₂⟩ := exists_setBlockSize b hold htarget
  have hsame₂ := hset₂.trans hsame.symm
  refine ⟨c₁, c₂, hrun, hsame, hset, ?_, ?_⟩
  · intro hup
    obtain ⟨c₁', hrun', hgrown⟩ := exists_grown hold htarget b hup
    cases hrun.symm.trans hrun'
    have hjump := (Grown.refl c).setBlockSize hold hold htarget hup hset
    exact hgrown.groups_eq hjump (hsame.symm ▸ hup) hsame₂
  · intro β bank hdown hb hpart haligned hknown
    have hpos := pos_of_power hold
    have hdvd := dvd_of_power_le htarget hold (UInt64.le_of_lt hdown)
    have hknown' : ∀ x ∈ cut c.blockSize target (allMembers c.groups),
        ∃ a ∈ allMembers c.groups, bank a = bank x := by
      intro x hx
      rw [← (interior_append_perm_cut hpos hdvd haligned).mem_iff, List.mem_append] at hx
      rcases hx with hx | hx
      · exact hknown x hx
      · exact ⟨x, hx, rfl⟩
    obtain ⟨c₁', hrun', hspread⟩ :=
      exists_spread hold htarget hb hpart haligned hknown' hdown
    cases hrun.symm.trans hrun'
    have hjump := (Spread.refl hpos).setBlockSize hb hpart hold haligned htarget hdown hknown' hset
    exact hspread.perm_members hjump hpart hsame₂

/-- Blocks of 16 KB that start in two banks and change between these inside. -/
def fourBlocks : Classifier Nat :=
  ⟨[.ofMembers [0, 32768, 16384] 16384, .ofMembers [65536] 16384], 16384, 0, []⟩

theorem setBlockSizeInSteps_four_blocks :
    (∃ c₁ c₂, fourBlocks.setBlockSizeInSteps (Bench.simulated {} [0x12000]) 2048 = .ok (2048, c₁)
      ∧ fourBlocks.setBlockSize (Bench.simulated {} [0x12000]) 2048 = .ok c₂
      ∧ List.Forall₂ (fun g₁ g₂ => g₁.members.Perm g₂.members) c₁.groups c₂.groups)
    ∧ ∃ c₁ c₂, fourBlocks.setBlockSizeInSteps (Bench.simulated {} [0x12000]) 65536 = .ok (65536, c₁)
      ∧ fourBlocks.setBlockSize (Bench.simulated {} [0x12000]) 65536 = .ok c₂
      ∧ c₁.groups = c₂.groups := by
  have hold : ∃ k, fourBlocks.blockSize.toNat = 2 ^ k := ⟨14, by decide⟩
  have hpart : PartitionByBank (parities [0x12000]) fourBlocks.groups := by decide
  have hknown : ∀ x ∈ interior fourBlocks.groups fourBlocks.blockSize 2048,
      ∃ a ∈ allMembers fourBlocks.groups, parities [0x12000] a = parities [0x12000] x :=
    forall_mem_of_all (by decide +kernel)
  constructor
  · have htarget : ∃ k, (2048 : UInt64).toNat = 2 ^ k := ⟨11, by decide⟩
    obtain ⟨c₁, c₂, hrun, -, hset, -, hdown⟩ :=
      setBlockSizeInSteps_eq_switch (b := Bench.simulated {} [0x12000]) hold htarget
    exact ⟨c₁, c₂, hrun, hset, hdown (parities [0x12000]) (by decide)
      (Bench.noiseFree_simulated (by decide) _) hpart
      (forall_mem_of_all (by decide)) hknown⟩
  · have htarget : ∃ k, (65536 : UInt64).toNat = 2 ^ k := ⟨16, by decide⟩
    obtain ⟨c₁, c₂, hrun, -, hset, hup, -⟩ :=
      setBlockSizeInSteps_eq_switch (b := Bench.simulated {} [0x12000]) hold htarget
    exact ⟨c₁, c₂, hrun, hset, hup (by decide)⟩

end DramBanks.Classifier
