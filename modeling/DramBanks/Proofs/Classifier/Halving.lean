import DramBanks.Proofs.Classifier.Outcomes
/-!
# Detection, whatever the probe answers

    Detection is some HALVINGS in a row, each after a guess of the current
    size, and the guess behind the last one (`detectFrom_ok`).  A halving
    sorts the groups and extends them (`Halving`), so after all of them
    every group still has its members (`Halved`).

    The last guess is a number of blocks.  If it is none, or one at the
    minimum, the size stays; otherwise whole blocks of that many pieces are
    left (`Stops.cases`).

    Above a minimum of at least one there is always a half to try, so
    detection ends.  It only ends in a fault where a member is near the end
    of the word; members added on the way are not nearer to it, as the size
    is halved with them (`Halved.room`). -/

namespace DramBanks.Classifier

variable {σ : Type} {b : Bench σ} {c c' k : Classifier σ} {n : Nat} {f : Fault}

/-! ## Halvings -/

/-- One halving: the guess is the current size, which is above the minimum. -/
def Halving (b : Bench σ) (c c' : Classifier σ) : Prop :=
  ∃ c₁, c.guessBlockSize = .ok (c.blockSize, c₁) ∧ b.settings.minimumBlockSize < c.blockSize
    ∧ c₁.setBlockSize b (c.blockSize / 2) = .ok c'

/-- Some number of halvings in a row. -/
inductive Halved (b : Bench σ) : Nat → Classifier σ → Classifier σ → Prop where
  | refl (c : Classifier σ) : Halved b 0 c c
  | step {n : Nat} {c c₁ k : Classifier σ} (hstep : Halving b c c₁) (hrest : Halved b n c₁ k) :
      Halved b (n + 1) c k

section Minimum

variable (hminimum : 1 ≤ b.settings.minimumBlockSize)
include hminimum

theorem half_ne_zero {size : UInt64} (hlarge : b.settings.minimumBlockSize < size) :
    size / 2 ≠ 0 := by
  rw [UInt64.le_iff_toNat_le] at hminimum
  rw [UInt64.lt_iff_toNat_lt] at hlarge
  have hone : (1 : UInt64).toNat = 1 := rfl
  have hhalf : (size / 2).toNat = size.toNat / 2 := UInt64.toNat_div size 2
  exact toNat_pos_iff.mp (by omega)

namespace Halving

variable (h : Halving b c c')
include h

/-- **STEP**: a halving extends the sorted groups with addresses inside their blocks. -/
theorem spec : c'.blockSize = c.blockSize / 2 ∧ 0 < c'.blockSize.toNat
    ∧ (∀ g ∈ c'.groups, g.blockSize = c'.blockSize)
    ∧ List.Forall₂ (Extends (interior (c.groups.map sortGroup) c.blockSize (c.blockSize / 2)))
        (c.groups.map sortGroup) c'.groups := by
  obtain ⟨c₁, hguess, hlarge, hset⟩ := h
  obtain ⟨lengths, -, -, rfl⟩ := guessBlockSize_ok hguess
  have hnonzero := half_ne_zero hminimum hlarge
  have hlt : c.blockSize / 2 < c.blockSize := by
    have hpos := toNat_pos_iff.mpr hnonzero
    rw [UInt64.lt_iff_toNat_lt]
    rw [UInt64.toNat_div] at hpos ⊢
    exact Nat.div_lt_self (Nat.pos_of_div_pos hpos) (by decide)
  obtain ⟨hsame, hnoted, -⟩ := setBlockSize_cases hnonzero hset
  refine ⟨hsame, ?_, ?_, extends_of_shrink hnonzero hset hlt⟩
  · rw [hsame]
    exact toNat_pos_iff.mpr hnonzero
  · rw [hsame]
    exact hnoted

theorem subperm : List.Forall₂ (fun g g' => g.members.Subperm g'.members) c.groups c'.groups := by
  obtain ⟨-, -, -, hextends⟩ := h.spec hminimum
  rw [List.forall₂_map_left_iff] at hextends
  refine hextends.imp ?_
  rintro g g' ⟨added, -, heq⟩
  rw [heq]
  exact (List.mergeSort_perm _ _).symm.subperm.trans (List.sublist_append_left _ _).subperm

/-- A new member is inside a block, and the size is halved. -/
theorem room : ∀ x ∈ allMembers c'.groups, ∃ a ∈ allMembers c.groups,
    x.toNat + 2 * c'.blockSize.toNat ≤ a.toNat + 2 * c.blockSize.toNat := by
  obtain ⟨hsame, hpos, -, hextends⟩ := h.spec hminimum
  have hhalf : c'.blockSize.toNat = c.blockSize.toNat / 2 := by
    rw [hsame]
    exact UInt64.toNat_div c.blockSize 2
  intro x hx
  rcases mem_of_extends hextends hx with hx | hx
  · exact ⟨x, (perm_allMembers_sortGroup c.groups).mem_iff.mp hx, by omega⟩
  · obtain ⟨a, ha, hlt⟩ := lt_of_mem_interior (by omega) hx
    exact ⟨a, (perm_allMembers_sortGroup c.groups).mem_iff.mp ha, by omega⟩

end Halving

namespace Halved

variable (h : Halved b n c k)
include h

/-- **RUN**: every halving halves the size, and the last one leaves a size. -/
theorem blockSize (hpos : 0 < c.blockSize.toNat) :
    k.blockSize.toNat = c.blockSize.toNat / 2 ^ n ∧ 0 < k.blockSize.toNat := by
  induction h with
  | refl c => exact ⟨(Nat.div_one _).symm, hpos⟩
  | @step n c c₁ k hstep _ ih =>
      obtain ⟨hsame, hpos₁, -, -⟩ := hstep.spec hminimum
      obtain ⟨hsize, hposk⟩ := ih hpos₁
      have hhalf : (c.blockSize / 2).toNat = c.blockSize.toNat / 2 := UInt64.toNat_div _ 2
      refine ⟨?_, hposk⟩
      rw [hsize, hsame, hhalf, Nat.div_div_eq_div_mul, Nat.pow_succ, Nat.mul_comm 2]

/-- **RUN**: every group keeps its members, at its place. -/
theorem subperm : List.Forall₂ (fun g m => g.members.Subperm m.members) c.groups k.groups := by
  induction h with
  | refl c => exact List.forall₂_same.mpr fun g _ => List.Subperm.refl g.members
  | step hstep _ ih =>
      exact forall₂_trans (fun _ _ _ hg hm => hg.trans hm) (hstep.subperm hminimum) ih

theorem noted (hnoted : ∀ g ∈ c.groups, g.blockSize = c.blockSize) :
    ∀ g ∈ k.groups, g.blockSize = k.blockSize := by
  induction h with
  | refl c => exact hnoted
  | step hstep _ ih => exact ih (hstep.spec hminimum).2.2.1

/-- **RUN**: no member gets nearer to the end of the word than a block of the first size. -/
theorem room : ∀ x ∈ allMembers k.groups, ∃ a ∈ allMembers c.groups,
    x.toNat + 2 * k.blockSize.toNat ≤ a.toNat + 2 * c.blockSize.toNat := by
  induction h with
  | refl c => exact fun x hx => ⟨x, hx, Nat.le_refl _⟩
  | step hstep _ ih =>
      intro x hx
      obtain ⟨y, hy, hxy⟩ := ih x hx
      obtain ⟨a, ha, hya⟩ := hstep.room hminimum y hy
      exact ⟨a, ha, Nat.le_trans hxy hya⟩

end Halved

end Minimum

/-! ## The last guess -/

/-- The guess is another size, or the size is not above the minimum, and the guess is taken. -/
def Stops (b : Bench σ) (k c' : Classifier σ) : Prop :=
  ∃ guess k₁, k.guessBlockSize = .ok (guess, k₁)
    ∧ ¬ (guess = k.blockSize ∧ b.settings.minimumBlockSize < k.blockSize)
    ∧ k₁.commitGuess b guess = .ok c'

/-- **CASES**: the size stays as there is nothing to guess from or the minimum is reached, or
    the groups are thinned to as many pieces as some run has. -/
theorem Stops.cases (h : Stops b k c') (hminimum : 1 ≤ b.settings.minimumBlockSize)
    (hpos : 0 < k.blockSize.toNat) :
    c'.blockSize = k.blockSize ∧ c'.groups = k.groups.map sortGroup
        ∧ (allMembers k.groups = [] ∨ k.blockSize ≤ b.settings.minimumBlockSize)
      ∨ ∃ lengths length, allRuns k.blockSize (k.groups.map sortGroup) = .ok lengths
          ∧ length ∈ lengths ∧ 2 ≤ length
          ∧ c'.blockSize.toNat = k.blockSize.toNat * length
          ∧ c'.groups = (k.groups.map sortGroup).map (thinned k.blockSize c'.blockSize) := by
  obtain ⟨guess, k₁, hguess, hstop, hcommit⟩ := h
  have hcases := guessBlockSize_cases hpos hguess
  obtain ⟨-, -, -, rfl⟩ := guessBlockSize_ok hguess
  rw [commitGuess] at hcommit
  rcases hcases with ⟨rfl, hnone⟩ | ⟨lengths, length, hruns, hmem, hlength, hnat⟩
  · rw [if_pos rfl] at hcommit
    cases hcommit
    refine Or.inl ⟨rfl, rfl, hnone.imp_right ?_⟩
    intro hone
    rwa [hone]
  · have hnonzero : guess ≠ 0 := toNat_pos_iff.mp (hnat ▸ Nat.mul_pos hpos hlength)
    rw [if_neg hnonzero] at hcommit
    split at hcommit
    · next heq =>
        cases hcommit
        exact Or.inl ⟨rfl, rfl, Or.inr (UInt64.not_lt.mp fun hlt => hstop ⟨heq, hlt⟩)⟩
    · next hne =>
        have hlong : 2 ≤ length := by
          by_contra hshort
          obtain rfl : length = 1 := by omega
          exact hne (UInt64.toNat_inj.mp (hnat.trans (Nat.mul_one _)))
        have hgrown : k.blockSize < guess := by
          rw [UInt64.lt_iff_toNat_lt, hnat]
          exact (Nat.lt_mul_iff_one_lt_right hpos).mpr hlong
        have hsame := (setBlockSize_cases hnonzero hcommit).1
        rw [hsame]
        exact Or.inr ⟨lengths, length, hruns, hmem, hlong, hnat,
          groups_of_grow hnonzero hcommit hgrown⟩

section Stops

variable (h : Stops b k c') (hminimum : 1 ≤ b.settings.minimumBlockSize)
  (hpos : 0 < k.blockSize.toNat)
include h hminimum hpos

theorem Stops.noted (hnoted : ∀ g ∈ k.groups, g.blockSize = k.blockSize) :
    ∀ g ∈ c'.groups, g.blockSize = c'.blockSize := by
  rcases h.cases hminimum hpos with ⟨hsame, hgroups, -⟩ | ⟨-, -, -, -, -, -, hgroups⟩
  · rw [hgroups, List.forall_mem_map, hsame]
    exact hnoted
  · rw [hgroups, List.forall_mem_map]
    exact fun g _ => rfl

/-- What is left of a group are members of it. -/
theorem Stops.subperm :
    List.Forall₂ (fun m g' => g'.members.Subperm m.members) k.groups c'.groups := by
  have hsorted : ∀ g : Group, (sortGroup g).members.Perm g.members :=
    fun g => List.mergeSort_perm _ _
  rcases h.cases hminimum hpos with ⟨-, hgroups, -⟩ | ⟨-, -, -, -, -, -, hgroups⟩
  · rw [hgroups, List.forall₂_map_right_iff, List.forall₂_same]
    exact fun g _ => (hsorted g).subperm
  · rw [hgroups, List.map_map, List.forall₂_map_right_iff, List.forall₂_same]
    intro g _
    refine (List.mergeSort_perm _ _).subperm.trans ?_
    exact List.filter_sublist.subperm.trans (hsorted g).subperm

end Stops

/-! ## Detection -/

/-- Detection that is carried out is some halvings and the guess behind them. -/
theorem detectFrom_ok (hminimum : 1 ≤ b.settings.minimumBlockSize) {size : UInt64}
    (hsize : c.blockSize = size) (hrun : c.detectFrom b size = .ok c') :
    ∃ n k, Halved b n c k ∧ Stops b k c' := by
  fun_induction detectFrom b size c with
  | case1 => cases hrun
  | case2 => cases hrun
  | case3 => cases hrun
  | case4 size c guess c₁ hg hcond hhalf c₂ hs ih =>
      subst hsize
      have hstep : Halving b c c₂ := ⟨c₁, hcond.1 ▸ hg, hcond.2, hs⟩
      obtain ⟨n, k, hhalved, hstops⟩ := ih (hstep.spec hminimum).1 hrun
      exact ⟨n + 1, k, Halved.step hstep hhalved, hstops⟩
  | case5 size c guess c₁ hg hcond =>
      subst hsize
      exact ⟨0, c, Halved.refl c, guess, c₁, hg, hcond, hrun⟩

/-- Halvings and the guess behind them make up a detection. -/
theorem Halved.detectFrom (hminimum : 1 ≤ b.settings.minimumBlockSize) (h : Halved b n c k)
    (hstops : Stops b k c') : c.detectFrom b c.blockSize = .ok c' := by
  induction h with
  | refl c =>
      obtain ⟨guess, c₁, hguess, hstop, hcommit⟩ := hstops
      rw [Classifier.detectFrom, hguess]
      exact (dif_neg hstop).trans hcommit
  | @step n c c₁ k hstep _ ih =>
      obtain ⟨hsame, -, -, -⟩ := hstep.spec hminimum
      obtain ⟨c₂, hguess, hlarge, hset⟩ := hstep
      rw [Classifier.detectFrom, hguess]
      refine (dif_pos ⟨rfl, hlarge⟩).trans ((if_neg (half_ne_zero hminimum hlarge)).trans ?_)
      rw [hset, ← hsame]
      exact ih hstops

/-- Guessed groups are sorted, which brings no member nearer to the end of the word. -/
theorem setBlockSize_error_of_guess {guess size : UInt64} {c₁ : Classifier σ}
    (hpos : 0 < c.blockSize.toNat) (hguess : c.guessBlockSize = .ok (guess, c₁))
    (hset : c₁.setBlockSize b size = .error f) :
    f = .sumOverflow ∧ NearEnd c.blockSize c.groups := by
  obtain ⟨-, -, -, rfl⟩ := guessBlockSize_ok hguess
  obtain ⟨hf, hnear⟩ := setBlockSize_error
    (c := { c with groups := c.groups.map sortGroup }) (toNat_pos_iff.mp hpos) hset
  exact ⟨hf, nearEnd_sortGroup.mp hnear⟩

/-- Detection only fails for a member that is near the end of the word after some halvings. -/
theorem detectFrom_error (hminimum : 1 ≤ b.settings.minimumBlockSize) {size : UInt64}
    (hsize : c.blockSize = size) (hpos : 0 < size.toNat) (hrun : c.detectFrom b size = .error f) :
    (f = .sumOverflow ∨ f = .productOverflow)
      ∧ ∃ n k, Halved b n c k ∧ NearEnd k.blockSize k.groups := by
  fun_induction detectFrom b size c with
  | case1 size c e hg =>
      cases hrun
      obtain ⟨hf, hnear⟩ := guessBlockSize_error hg
      exact ⟨hf, 0, c, Halved.refl c, hnear⟩
  | case2 size c guess c₁ hg hcond hhalf => exact absurd hhalf (half_ne_zero hminimum hcond.2)
  | case3 size c guess c₁ hg hcond hhalf e hs =>
      cases hrun
      obtain ⟨hf, hnear⟩ := setBlockSize_error_of_guess (hsize ▸ hpos) hg hs
      exact ⟨Or.inl hf, 0, c, Halved.refl c, hnear⟩
  | case4 size c guess c₁ hg hcond hhalf c₂ hs ih =>
      subst hsize
      have hstep : Halving b c c₂ := ⟨c₁, hcond.1 ▸ hg, hcond.2, hs⟩
      obtain ⟨hsame, hpos₂, -, -⟩ := hstep.spec hminimum
      obtain ⟨hf, n, k, hhalved, hnear⟩ := ih hsame (hsame ▸ hpos₂) hrun
      exact ⟨hf, n + 1, k, Halved.step hstep hhalved, hnear⟩
  | case5 size c guess c₁ hg hcond =>
      rw [commitGuess] at hrun
      split at hrun
      · cases hrun
      · split at hrun
        · cases hrun
        · obtain ⟨hf, hnear⟩ := setBlockSize_error_of_guess (hsize ▸ hpos) hg hrun
          exact ⟨Or.inl hf, 0, c, Halved.refl c, hnear⟩

section Settles

variable (hminimum : 1 ≤ b.settings.minimumBlockSize) (hsize : 1 ≤ c.blockSize)
include hminimum hsize

/-- Detection only fails for a member with less than two blocks of room behind it. -/
theorem detectBlockSize_error (hrun : c.detectBlockSize b = .error f) :
    (f = .sumOverflow ∨ f = .productOverflow)
      ∧ ∃ a ∈ allMembers c.groups, 2 ^ 64 < a.toNat + 2 * c.blockSize.toNat := by
  have hpos : 0 < c.blockSize.toNat := UInt64.le_iff_toNat_le.mp hsize
  obtain ⟨hf, n, k, hhalved, x, hx, hge⟩ :=
    detectFrom_error hminimum rfl hpos (eq_error_of_map hrun)
  obtain ⟨-, hposk⟩ := hhalved.blockSize hminimum hpos
  obtain ⟨a, ha, hle⟩ := hhalved.room hminimum x hx
  exact ⟨hf, a, ha, by omega⟩

/-- **DETECTION**: above a minimum of at least one, whatever the probe answers, detection from some
    block size is carried out or leaves the word, which it does not if there is room for two
    blocks behind every member.  If it is carried out, it ends after `n` halvings that leave a
    size.  Every group keeps its members through these, at its place, and ends with some of the
    members that it has then.  The size stays where the halvings have left it, and there are no
    members or it is not above the minimum; or it becomes that of at least two blocks, the length
    of some run, and the members that are left are on its boundaries and the starts of so many
    blocks of their group. -/
theorem detectBlockSize_settles :
    (∀ f, c.detectBlockSize b = .error f → f = .sumOverflow ∨ f = .productOverflow)
    ∧ ((∀ a ∈ allMembers c.groups, a.toNat + 2 * c.blockSize.toNat ≤ 2 ^ 64) →
        ∃ size c', c.detectBlockSize b = .ok (size, c'))
    ∧ ∀ size c', c.detectBlockSize b = .ok (size, c') →
        size = c'.blockSize
        ∧ ((∀ g ∈ c.groups, g.blockSize = c.blockSize) → ∀ g ∈ c'.groups, g.blockSize = c'.blockSize)
        ∧ ∃ n k, Halved b n c k ∧ k.blockSize.toNat = c.blockSize.toNat / 2 ^ n
          ∧ 1 ≤ k.blockSize.toNat
          ∧ List.Forall₂ (fun g m => g.members.Subperm m.members) c.groups k.groups
          ∧ List.Forall₂ (fun m g' => g'.members.Subperm m.members) k.groups c'.groups
          ∧ (c'.blockSize = k.blockSize
                ∧ (allMembers c'.groups = [] ∨ k.blockSize ≤ b.settings.minimumBlockSize)
              ∨ ∃ lengths length, allRuns k.blockSize (k.groups.map sortGroup) = .ok lengths
                  ∧ length ∈ lengths ∧ 2 ≤ length
                  ∧ c'.blockSize.toNat = k.blockSize.toNat * length
                  ∧ List.Forall₂ (fun m g' => ∀ a ∈ g'.members, c'.blockSize.toNat ∣ a.toNat
                      ∧ ∀ i < length, Occupied m.members (a.toNat + i * k.blockSize.toNat))
                    k.groups c'.groups) := by
  have hpos : 0 < c.blockSize.toNat := UInt64.le_iff_toNat_le.mp hsize
  refine ⟨?_, ?_, ?_⟩
  · intro f hrun
    exact (detectBlockSize_error hminimum hsize hrun).1
  · intro hroom
    cases hrun : c.detectBlockSize b with
    | error f =>
        obtain ⟨-, a, ha, hgt⟩ := detectBlockSize_error hminimum hsize hrun
        exact absurd (hroom a ha) (Nat.not_le.mpr hgt)
    | ok result => exact ⟨result.1, result.2, rfl⟩
  · intro size c' hrun
    obtain ⟨c'', hdetect, heq⟩ := exists_of_map_eq_ok hrun
    cases heq
    obtain ⟨n, k, hhalved, hstops⟩ := detectFrom_ok hminimum rfl hdetect
    obtain ⟨hhalf, hposk⟩ := hhalved.blockSize hminimum hpos
    refine ⟨rfl, ?_, n, k, hhalved, hhalf, hposk, hhalved.subperm hminimum, ?_, ?_⟩
    · exact fun hnoted => hstops.noted hminimum hposk (hhalved.noted hminimum hnoted)
    · exact hstops.subperm hminimum hposk
    · rcases hstops.cases hminimum hposk with ⟨hsame, hgroups, hwhy⟩ |
        ⟨lengths, length, hruns, hmem, hlong, hlength, hgroups⟩
      · refine Or.inl ⟨hsame, hwhy.imp_left ?_⟩
        intro hnil
        rw [hgroups, ← List.perm_nil, ← hnil]
        exact perm_allMembers_sortGroup k.groups
      · refine Or.inr ⟨lengths, length, hruns, hmem, hlong, hlength, ?_⟩
        rw [hgroups, List.map_map, List.forall₂_map_right_iff, List.forall₂_same]
        intro g _ a ha
        obtain ⟨hdvd, hpieces⟩ := of_decide_eq_true (List.mem_filter.mp (mem_sorted.mp ha)).2
        rw [hlength, Nat.mul_div_cancel_left _ hposk] at hpieces
        refine ⟨hdvd, ?_⟩
        intro i hi
        obtain ⟨x, hx, heq⟩ := hpieces i hi
        exact ⟨x, mem_sorted.mp hx, heq⟩

end Settles

/-- Three pages in two groups, from which a single page is guessed. -/
def threePages : Classifier Nat :=
  ⟨[.ofMembers [4096, 0] 4096, .ofMembers [8192] 4096], 4096, 0, []⟩

theorem detectBlockSize_settles_three_pages :
    ∃ size c' n k, threePages.detectBlockSize (Bench.simulated {} [8192]) = .ok (size, c')
      ∧ Halved (Bench.simulated {} [8192]) n threePages k
      ∧ k.blockSize.toNat = 4096 / 2 ^ n ∧ 1 ≤ k.blockSize.toNat
      ∧ List.Forall₂ (fun g m => g.members.Subperm m.members) threePages.groups k.groups
      ∧ ∀ g ∈ c'.groups, g.blockSize = c'.blockSize := by
  obtain ⟨-, hends, hok⟩ := detectBlockSize_settles (b := Bench.simulated {} [8192])
    (c := threePages) (by decide) (by decide)
  obtain ⟨size, c', hrun⟩ := hends (forall_mem_of_all (by decide +kernel))
  obtain ⟨-, hnoted, n, k, hhalved, hhalf, hpos, hkept, -⟩ := hok size c' hrun
  exact ⟨size, c', n, k, hrun, hhalved, hhalf, hpos, hkept, hnoted (by decide)⟩

end DramBanks.Classifier
