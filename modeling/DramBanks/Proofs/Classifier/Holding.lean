import DramBanks.Proofs.Classifier.Session
import Mathlib.Data.List.Pairwise
/-!
# Groupings without noise

    Without noise, groups HOLD a list of addresses when they are a partition
    by bank of it without empty groups.  Adding addresses to what is held,
    in groups of their own or only to banks that are known, and regrouping
    in any number of rounds lead to groups that hold what they should. -/

namespace DramBanks.Classifier

variable {σ β : Type} {b : Bench σ} {bank : Address → β} {c c' : Classifier σ}
  {addrs : List Address} {groups : List Group}

/-- The groups hold the given addresses: one group for every bank among them, with all
    addresses of the bank. -/
structure Holds (bank : Address → β) (addrs : List Address) (groups : List Group) : Prop where
  partition : PartitionByBank bank groups
  filled : ∀ g ∈ groups, g.members ≠ []
  perm : (allMembers groups).Perm addrs

theorem Holds.nil : Holds bank [] ([] : List Group) :=
  ⟨PartitionByBank.nil, fun _ hg => absurd hg List.not_mem_nil, List.Perm.refl _⟩

theorem Holds.of_perm {addrs' : List Address} (h : Holds bank addrs groups)
    (hperm : addrs.Perm addrs') : Holds bank addrs' groups :=
  ⟨h.partition, h.filled, h.perm.trans hperm⟩

/-- Addresses of one bank are held by one group. -/
theorem PartitionByBank.mem_of_bank_eq (h : PartitionByBank bank groups) {g : Group}
    (hg : g ∈ groups) {a x : Address} (ha : a ∈ g.members) (hx : x ∈ allMembers groups) (heq : bank a = bank x) :
    x ∈ g.members := by
  obtain ⟨k, hk, hxk⟩ := mem_allMembers.mp hx
  by_cases hgk : g = k
  · rwa [hgk]
  · have hsymm : Std.Symm (Apart bank : Group → Group → Prop) := ⟨fun _ _ hab => hab.symm⟩
    exact absurd heq (h.apart.forall hg hk hgk a ha x hxk)

section Known

variable (hb : b.NoiseFree bank)
include hb

/-- An address of a known bank joins a group, whether or not new groups are allowed. -/
theorem PartitionByBank.perm_classify_known (h : PartitionByBank bank c.groups) (allowNew : Bool)
    {addr : Address} (hknown : ∃ a ∈ allMembers c.groups, bank a = bank addr) :
    (allMembers (c.classify b allowNew addr).2.groups).Perm (addr :: allMembers c.groups) := by
  rcases classify_cases b allowNew c addr with ⟨i, g, s, hget, -, -, hgroups⟩ | ⟨hmiss, -, -⟩
  · rw [hgroups]
    exact perm_allMembers_modify hget addr
  · -- a group with members of the bank would have been found
    obtain ⟨a, ha, hbank⟩ := hknown
    obtain ⟨g, hg, hag⟩ := mem_allMembers.mp ha
    obtain ⟨s, hs⟩ := hmiss g hg
    exact absurd ((Group.score_iff hb (h.pure g hg) addr s).mpr ⟨a, hag, hbank⟩) hs

/-- Addresses of known banks all join a group. -/
theorem PartitionByBank.perm_classifyAll_known (h : PartitionByBank bank c.groups)
    (allowNew : Bool) {new : List Address}
    (hknown : ∀ x ∈ new, ∃ a ∈ allMembers c.groups, bank a = bank x) (misses : Nat) :
    (allMembers (Classifier.classifyAll b allowNew new misses c).2.groups).Perm
      (new ++ allMembers c.groups) := by
  induction new generalizing misses c with
  | nil => exact List.Perm.refl _
  | cons x rest ih =>
      rw [List.forall_mem_cons] at hknown
      have hstep := h.perm_classify_known hb allowNew hknown.1
      have hpart := PartitionByBank.classify hb (n := 0) (Nat.zero_le _) h allowNew x
      refine (ih hpart ?_ _).trans ((hstep.append_left rest).trans List.perm_middle)
      intro y hy
      obtain ⟨a, ha, hbank⟩ := hknown.2 y hy
      exact ⟨a, hstep.mem_iff.mpr (List.mem_cons_of_mem x ha), hbank⟩

end Known

namespace Holds

variable (h : Holds bank addrs c.groups)

/-- A group holds all addresses of the banks of its members. -/
theorem mem_members_iff (h : Holds bank addrs groups) {g : Group} (hg : g ∈ groups) {a : Address}
    (ha : a ∈ g.members) {x : Address} : x ∈ g.members ↔ x ∈ addrs ∧ bank a = bank x := by
  constructor
  · intro hx
    exact ⟨h.perm.mem_iff.mp (mem_allMembers.mpr ⟨g, hg, hx⟩), h.partition.pure g hg a ha x hx⟩
  · rintro ⟨hx, heq⟩
    exact h.partition.mem_of_bank_eq hg ha (h.perm.mem_iff.mpr hx) heq

/-- There is one group for every bank, with the addresses of this bank. -/
theorem exists_banks [DecidableEq β] (h : Holds bank addrs groups) :
    ∃ banks : List β, banks.Nodup ∧ (∀ x, x ∈ banks ↔ ∃ a ∈ addrs, bank a = x)
      ∧ List.Forall₂ (fun x g => g.members.Perm (addrs.filter fun a => bank a = x))
          banks groups := by
  refine ⟨groups.map (bankOfGroup bank), nodup_banks h.partition h.filled, ?_, ?_⟩
  · intro x
    rw [mem_banks h.partition h.filled]
    simp only [h.perm.mem_iff]
  · rw [List.forall₂_map_left_iff, List.forall₂_same]
    intro g hg
    rw [← filter_bankOfGroup h.partition hg (h.filled g hg)]
    exact h.perm.filter _

/-! ## Adding addresses -/

include h

/-- A step that may open groups. -/
theorem classifyAll (hb : b.NoiseFree bank) (new : List Address) (misses : Nat) :
    Holds bank (new ++ addrs) (Classifier.classifyAll b true new misses c).2.groups := by
  have hbuilt : Rebuilt bank 0 c.groups := ⟨Nat.zero_le _, h.partition, h.filled⟩
  have hnext := hbuilt.classifyAll hb new misses
  refine ⟨hnext.partition, hnext.filled, ?_⟩
  exact (perm_classifyAll b new misses c).trans (h.perm.append_left new)

omit h in
/-- An address of a known bank joins its group. -/
theorem classify_known (hb : b.NoiseFree bank) (h : Holds bank addrs c.groups) (allowNew : Bool)
    {addr : Address} (hknown : ∃ a ∈ addrs, bank a = bank addr) :
    Holds bank (addr :: addrs) (c.classify b allowNew addr).2.groups := by
  simp only [← h.perm.mem_iff] at hknown
  refine ⟨PartitionByBank.classify hb (n := 0) (Nat.zero_le _) h.partition allowNew addr,
    filled_classify (b := b) (n := 0) (Nat.zero_le _) h.filled allowNew addr, ?_⟩
  exact (h.partition.perm_classify_known hb allowNew hknown).trans (h.perm.cons addr)

omit h in
theorem classifyAll_known (hb : b.NoiseFree bank) (h : Holds bank addrs c.groups) (allowNew : Bool)
    {new : List Address} (hknown : ∀ x ∈ new, ∃ a ∈ addrs, bank a = bank x) (misses : Nat) :
    Holds bank (new ++ addrs) (Classifier.classifyAll b allowNew new misses c).2.groups := by
  induction new generalizing misses c addrs with
  | nil => exact h
  | cons x rest ih =>
      have hstep := classify_known hb h allowNew (hknown x (List.mem_cons_self ..))
      have hrest : ∀ y ∈ rest, ∃ a ∈ x :: addrs, bank a = bank y := by
        intro y hy
        obtain ⟨a, ha, hbank⟩ := hknown y (List.mem_cons_of_mem _ hy)
        exact ⟨a, List.mem_cons_of_mem _ ha, hbank⟩
      exact (ih hstep hrest _).of_perm List.perm_middle

/-! ## Regrouping -/

theorem regroup (hb : b.NoiseFree bank) : Holds bank addrs (c.regroup b).groups :=
  ⟨partition_regroup hb c, filled_regroup hb c, (perm_regroup b c).trans h.perm⟩

theorem regroupRounds (hb : b.NoiseFree bank) (left done : Nat) :
    Holds bank addrs (Classifier.regroupRounds b left done c).2.groups :=
  regroupRounds_keeps (P := fun c => Holds bank addrs c.groups) (fun _ h => h.regroup hb) left done h

end Holds

@[simp] theorem blockSize_regroup (b : Bench σ) (c : Classifier σ) :
    (c.regroup b).blockSize = c.blockSize := by
  refine regroup_keeps (P := fun c' => c'.blockSize = c.blockSize) ?_ rfl
  intro c' h
  rw [regroupFirst]
  split
  · exact h
  · exact (blockSize_classifyAll b true _ 0 _).trans h

theorem blockSize_regroupRounds (b : Bench σ) (left done : Nat) (c : Classifier σ) :
    (regroupRounds b left done c).2.blockSize = c.blockSize :=
  regroupRounds_keeps (P := fun c' => c'.blockSize = c.blockSize)
    (fun c' h => (blockSize_regroup b c').trans h) left done rfl

theorem classifyAll_cons (b : Bench σ) (allowNew : Bool) (addr : Address) (rest : List Address)
    (misses : Nat) (c : Classifier σ) :
    classifyAll b allowNew (addr :: rest) misses c
      = classifyAll b allowNew rest (if (c.classify b allowNew addr).1 then misses else misses + 1)
          (c.classify b allowNew addr).2 := rfl

/-- Every miss opens a group. -/
theorem misses_classifyAll (b : Bench σ) (addrs : List Address) (misses : Nat) (c : Classifier σ) :
    (classifyAll b true addrs misses c).1 + c.groups.length
      = misses + (classifyAll b true addrs misses c).2.groups.length := by
  induction addrs generalizing misses c with
  | nil => rfl
  | cons addr rest ih =>
      have hstep : (if (c.classify b true addr).1 then misses else misses + 1) + c.groups.length
          = misses + (c.classify b true addr).2.groups.length := by
        rcases classify_cases b true c addr with ⟨i, g, s, -, -, hfound, hgroups⟩ |
          ⟨-, hfound, hgroups⟩
        · rw [hfound, hgroups, List.length_modify]
          rfl
        · rw [hfound, hgroups, if_pos rfl, List.length_append]
          simp only [Bool.false_eq_true, if_false, List.length_singleton]
          omega
      have hrest := ih (if (c.classify b true addr).1 then misses else misses + 1)
        (c.classify b true addr).2
      rw [classifyAll_cons]
      omega

end DramBanks.Classifier
