import DramBanks.Classifier.BlockSize
import DramBanks.Proofs.Classifier.Partition
import Mathlib.Algebra.Group.Nat.Defs
/-!
# Switching block sizes

    Detection and stepping are loops around three things: a guess, a switch
    of the block size, and a warning.  What these keep, the loops keep
    (`detectFrom_keeps`, `stepTo_keeps`).

    A guess sorts members and a switch to larger blocks takes members away
    (`subset_of_simplify`); a switch to smaller blocks adds addresses to
    groups that are there.  All of them keep a partition by bank when there
    is no noise. -/

namespace DramBanks

/-- What a computation was mapped from, if it was carried out. -/
theorem exists_of_map_eq_ok {ε α γ : Type} {f : α → γ} {x : Except ε α} {y : γ}
    (h : x.map f = .ok y) : ∃ a, x = .ok a ∧ f a = y := by
  cases x with
  | error e => cases h
  | ok a => exact ⟨a, rfl, Except.ok.inj h⟩

/-- What a computation was mapped from ended in the same fault. -/
theorem eq_error_of_map {ε α γ : Type} {f : α → γ} {x : Except ε α} {e : ε}
    (h : x.map f = .error e) : x = .error e := by
  cases x with
  | error e =>
      cases h
      rfl
  | ok a => cases h

/-- A composed computation was carried out, if both of its parts were. -/
theorem exists_of_bind_eq_ok {ε α γ : Type} {f : α → Except ε γ} {x : Except ε α} {y : γ}
    (h : x.bind f = .ok y) : ∃ a, x = .ok a ∧ f a = .ok y := by
  cases x with
  | error e => cases h
  | ok a => exact ⟨a, rfl, h⟩

namespace Classifier

variable {σ β : Type} {b : Bench σ} {bank : Address → β} {c c' : Classifier σ}

/-! ## Loops -/

section Loops

variable {P : Classifier σ → Prop}
  (hset : ∀ {c c' size}, setBlockSize b size c = .ok c' → P c → P c')
  (hguess : ∀ {c c' size}, guessBlockSize c = .ok (size, c') → P c → P c')
  (hwarn : ∀ {c} (w : Warning), P c → P (c.warn w))

include hset hwarn in
theorem commitGuess_keeps {guess : UInt64} (hrun : c.commitGuess b guess = .ok c') (h : P c) :
    P c' := by
  rw [commitGuess] at hrun
  split at hrun
  · cases hrun
    exact hwarn _ h
  · split at hrun
    · cases hrun
      exact hwarn _ h
    · exact hset hrun h

include hset hguess hwarn in
/-- What a guess, a switch and a warning keep, detection keeps. -/
theorem detectFrom_keeps {size : UInt64} (hrun : detectFrom b size c = .ok c') (h : P c) :
    P c' := by
  fun_induction detectFrom b size c with
  | case1 => cases hrun
  | case2 => cases hrun
  | case3 => cases hrun
  | case4 size c guess c₁ hg hcond hhalf c₂ hs ih => exact ih hrun (hset hs (hguess hg h))
  | case5 size c guess c₁ hg hcond => exact commitGuess_keeps hset hwarn hrun (hguess hg h)

include hset in
/-- What a switch keeps, stepping keeps. -/
theorem stepTo_keeps {target : UInt64} {left : Nat} (hrun : stepTo b target left c = .ok c')
    (h : P c) : P c' := by
  fun_induction stepTo b target left c with
  | case1 =>
      cases hrun
      exact h
  | case2 => cases hrun
  | case3 =>
      cases hrun
      exact h
  | case4 => cases hrun
  | case5 left c hne c₁ hs ih =>
      obtain ⟨next, -, hset₁⟩ := exists_of_bind_eq_ok hs
      exact ih hrun (hset hset₁ h)

include hset hguess hwarn

theorem detectBlockSize_keeps {size : UInt64} (hrun : c.detectBlockSize b = .ok (size, c'))
    (h : P c) : P c' := by
  obtain ⟨c₁, hdetect, heq⟩ := exists_of_map_eq_ok hrun
  cases heq
  exact detectFrom_keeps hset hguess hwarn hdetect h

theorem setBlockSizeInSteps_keeps {target size : UInt64}
    (hrun : c.setBlockSizeInSteps b target = .ok (size, c')) (h : P c) : P c' := by
  rw [setBlockSizeInSteps] at hrun
  split at hrun
  · cases hrun
    exact h
  · split at hrun
    · obtain ⟨c₁, hstep, heq⟩ := exists_of_map_eq_ok hrun
      cases heq
      exact stepTo_keeps hset hstep h
    · exact detectBlockSize_keeps hset hguess hwarn hrun (hwarn _ h)

end Loops

/-! ## Larger blocks -/

theorem subset_of_wholeBlocks {members : Std.HashSet Address} {old new : UInt64}
    {addrs kept result : List Address}
    (hrun : wholeBlocks members old new addrs kept = .ok result) :
    ∀ a ∈ result, a ∈ kept ∨ a ∈ addrs := by
  induction addrs generalizing kept with
  | nil =>
      cases hrun
      intro a ha
      exact Or.inl (List.mem_reverse.mp ha)
  | cons x rest ih =>
      -- `x` is kept or not, and the rest is looked at in either case
      have hkeep : wholeBlocks members old new rest (x :: kept) = .ok result →
          ∀ a ∈ result, a ∈ kept ∨ a ∈ x :: rest := by
        intro h a ha
        rcases ih h a ha with hmem | hmem
        · rcases List.mem_cons.mp hmem with rfl | hmem
          · exact Or.inr (List.mem_cons_self ..)
          · exact Or.inl hmem
        · exact Or.inr (List.mem_cons_of_mem _ hmem)
      have hdrop : wholeBlocks members old new rest kept = .ok result →
          ∀ a ∈ result, a ∈ kept ∨ a ∈ x :: rest := by
        intro h a ha
        rcases ih h a ha with hmem | hmem
        · exact Or.inl hmem
        · exact Or.inr (List.mem_cons_of_mem _ hmem)
      rw [wholeBlocks] at hrun
      split at hrun
      · split at hrun
        · cases hrun
        · exact hkeep hrun
        · exact hdrop hrun
      · exact hdrop hrun

theorem mem_sorted {addrs : List Address} {a : Address} : a ∈ sorted addrs ↔ a ∈ addrs :=
  List.mem_mergeSort

theorem subset_of_simplifyGroup {old new : UInt64} {g g' : Group}
    (hrun : simplifyGroup old new g = .ok g') : g'.members ⊆ g.members := by
  obtain ⟨kept, hkept, rfl⟩ := exists_of_map_eq_ok hrun
  intro a ha
  rw [Group.members_ofMembers, mem_sorted] at ha
  rcases subset_of_wholeBlocks hkept a ha with hnil | hmem
  · cases hnil
  · exact hmem

/-- Groups are brought to the new size one by one. -/
theorem forall₂_of_simplifyGroups {old new : UInt64} {groups groups' : List Group}
    (hrun : simplifyGroups old new groups = .ok groups') :
    List.Forall₂ (fun g g' => simplifyGroup old new g = .ok g') groups groups' := by
  induction groups generalizing groups' with
  | nil =>
      cases hrun
      exact List.Forall₂.nil
  | cons g rest ih =>
      rw [simplifyGroups] at hrun
      split at hrun
      · next hg hrest =>
          cases hrun
          exact List.Forall₂.cons hg (ih hrest)
      · cases hrun
      · cases hrun

/-- Whole blocks of the new size are members of the group they were members of. -/
theorem subset_of_simplifyGroups {old new : UInt64} {groups groups' : List Group}
    (hrun : simplifyGroups old new groups = .ok groups') :
    List.Forall₂ (fun g g' => g'.members ⊆ g.members) groups groups' :=
  (forall₂_of_simplifyGroups hrun).imp fun _ _ hg => subset_of_simplifyGroup hg

/-! ## Guesses -/

/-- A guess sorts the members of every group, and multiplies the block size by the mode of the
    lengths of all runs. -/
theorem guessBlockSize_ok {size : UInt64} (hrun : c.guessBlockSize = .ok (size, c')) :
    ∃ lengths, allRuns c.blockSize (c.groups.map sortGroup) = .ok lengths
      ∧ Word.mul (UInt64.ofNat (mode lengths)) c.blockSize = .ok size
      ∧ c' = { c with groups := c.groups.map sortGroup } := by
  rw [guessBlockSize] at hrun
  split at hrun
  · cases hrun
  · next lengths hruns =>
      obtain ⟨guess, hguess, heq⟩ := exists_of_map_eq_ok hrun
      cases heq
      exact ⟨lengths, hruns, hguess, rfl⟩

theorem guessBlockSize_of_lengths {lengths : List Nat}
    (hruns : allRuns c.blockSize (c.groups.map sortGroup) = .ok lengths)
    (hroom : mode lengths * c.blockSize.toNat < 2 ^ 64) :
    c.guessBlockSize = .ok (UInt64.ofNat (mode lengths) * c.blockSize,
      { c with groups := c.groups.map sortGroup }) := by
  have hproduct : Word.mul (UInt64.ofNat (mode lengths)) c.blockSize
      = .ok (UInt64.ofNat (mode lengths) * c.blockSize) := by
    refine Word.mul_of_lt (Nat.lt_of_le_of_lt (Nat.mul_le_mul_right _ ?_) hroom)
    rw [UInt64.toNat_ofNat']
    exact Nat.mod_le _ _
  rw [guessBlockSize]
  simp only [hruns, hproduct]
  rfl

/-! ## Partitions -/

namespace PartitionByBank

theorem simplify {old new : UInt64} (hrun : c.simplify old new = .ok c')
    (h : PartitionByBank bank c.groups) : PartitionByBank bank c'.groups := by
  rw [Classifier.simplify] at hrun
  split at hrun
  · cases hrun
  · obtain ⟨groups, hgroups, rfl⟩ := exists_of_map_eq_ok hrun
    exact h.of_subset (subset_of_simplifyGroups hgroups)

theorem expand (hb : b.NoiseFree bank) {old new : UInt64} (hrun : c.expand b old new = .ok c')
    (h : PartitionByBank bank c.groups) : PartitionByBank bank c'.groups := by
  obtain ⟨addrs, -, rfl⟩ := exists_of_map_eq_ok hrun
  exact (PartitionByBank.classifyAll hb (n := 0) (Nat.zero_le _) h false addrs 0).1

theorem cutTo (hb : b.NoiseFree bank) {size : UInt64} (hrun : c.cutTo b size = .ok c')
    (h : PartitionByBank bank c.groups) : PartitionByBank bank c'.groups := by
  rw [Classifier.cutTo] at hrun
  split at hrun
  · exact h.expand hb hrun
  · split at hrun
    · exact h.simplify hrun
    · cases hrun
      exact h

/-- Every group may be replaced by one with the same members. -/
theorem map {f : Group → Group} (hf : ∀ g, (f g).members ⊆ g.members) {groups : List Group}
    (h : PartitionByBank bank groups) : PartitionByBank bank (groups.map f) := by
  refine h.of_subset ?_
  rw [List.forall₂_map_right_iff, List.forall₂_same]
  exact fun g _ => hf g

theorem warn (w : Warning) (h : PartitionByBank bank c.groups) :
    PartitionByBank bank (c.warn w).groups := h

theorem commit (size : UInt64) (h : PartitionByBank bank c.groups) :
    PartitionByBank bank (c.commit size).groups := by
  have hmap := h.map (f := fun g => { g with blockSize := size }) fun _ _ ha => ha
  rw [Classifier.commit]
  split
  · exact hmap
  · exact hmap

theorem setBlockSize (hb : b.NoiseFree bank) {size : UInt64}
    (hrun : c.setBlockSize b size = .ok c') (h : PartitionByBank bank c.groups) :
    PartitionByBank bank c'.groups := by
  rw [Classifier.setBlockSize] at hrun
  split at hrun
  · cases hrun
    exact h
  · obtain ⟨c₁, hcut, rfl⟩ := exists_of_map_eq_ok hrun
    exact (h.cutTo hb hcut).commit size

theorem guessBlockSize {size : UInt64} (hrun : c.guessBlockSize = .ok (size, c'))
    (h : PartitionByBank bank c.groups) : PartitionByBank bank c'.groups := by
  obtain ⟨lengths, -, -, rfl⟩ := guessBlockSize_ok hrun
  exact h.map (f := sortGroup) fun g a ha => mem_sorted.mp ha

end PartitionByBank

end Classifier

end DramBanks
