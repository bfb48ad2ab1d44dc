import DramBanks.Proofs.Classifier.NoiseFree
import Mathlib.Data.List.Forall2
/-!
# Partitions by bank

    Groups are a PARTITION BY BANK when every group is pure and no two
    groups hold addresses of one bank.  Empty groups may stand among them:
    they score 0, so nothing ever joins them.

    Without noise, adding an address keeps such a partition.  The step is
    stated for the groups from some position on (`PartitionByBank.classify`),
    since the groups in front of it may be of any kind: an address that
    joins one of those leaves the others as they are. -/

namespace DramBanks.Classifier

variable {σ β : Type} {b : Bench σ} {bank : Address → β} {groups : List Group}

/-- Two groups hold no addresses of one bank. -/
def Apart (bank : Address → β) (g h : Group) : Prop :=
  ∀ a ∈ g.members, ∀ a' ∈ h.members, bank a ≠ bank a'

/-- The addresses of every group share a bank that no other group has addresses of. -/
structure PartitionByBank (bank : Address → β) (groups : List Group) : Prop where
  pure : ∀ g ∈ groups, g.Pure bank
  apart : groups.Pairwise (Apart bank)

section Decidable

variable [DecidableEq β] (bank : Address → β)

-- The general instances for addresses try all words, so these name the walk along a list.

omit [DecidableEq β] in
theorem forall_mem_of_all {addrs : List Address} {p : Address → Prop} [DecidablePred p]
    (h : (addrs.all fun a => decide (p a)) = true) : ∀ a ∈ addrs, p a :=
  fun a ha => of_decide_eq_true (List.all_eq_true.mp h a ha)

instance (g : Group) : Decidable (g.Pure bank) :=
  @List.decidableBAll Address (fun a => ∀ a' ∈ g.members, bank a = bank a')
    (fun a => List.decidableBAll (fun a' => bank a = bank a') g.members) g.members

instance (g h : Group) : Decidable (Apart bank g h) :=
  @List.decidableBAll Address (fun a => ∀ a' ∈ h.members, bank a ≠ bank a')
    (fun a => List.decidableBAll (fun a' => bank a ≠ bank a') h.members) g.members

instance (groups : List Group) : Decidable (PartitionByBank bank groups) :=
  decidable_of_iff ((∀ g ∈ groups, g.Pure bank) ∧ groups.Pairwise (Apart bank))
    ⟨fun h => ⟨h.1, h.2⟩, fun h => ⟨h.pure, h.apart⟩⟩

end Decidable

theorem Apart.symm {g h : Group} (hgh : Apart bank g h) : Apart bank h g :=
  fun a ha a' ha' heq => hgh a' ha' a ha heq.symm

/-- A change of a group brings in no bank that had no members before. -/
def KeepsBanks (bank : Address → β) (g g' : Group) : Prop :=
  ∀ a ∈ g'.members, ∃ x ∈ g.members, bank x = bank a

theorem KeepsBanks.refl (g : Group) : KeepsBanks bank g g :=
  fun a ha => ⟨a, ha, rfl⟩

/-- Every member of a changed group has its bank from a group that was there. -/
theorem exists_of_keepsBanks {groups' : List Group}
    (hkeeps : List.Forall₂ (KeepsBanks bank) groups groups') {g' : Group} (hg' : g' ∈ groups')
    {a : Address} (ha : a ∈ g'.members) : ∃ g ∈ groups, ∃ x ∈ g.members, bank x = bank a := by
  induction hkeeps with
  | nil => cases hg'
  | cons hg _ ih =>
      rcases List.mem_cons.mp hg' with rfl | hg'
      · exact ⟨_, List.mem_cons_self .., hg a ha⟩
      · obtain ⟨k, hk, hbank⟩ := ih hg'
        exact ⟨k, List.mem_cons_of_mem _ hk, hbank⟩

/-! ## One more member -/

/-- Changing a group that is there changes nothing in front of it and behind it. -/
theorem exists_split {i : Nat} {g : Group} (hget : groups[i]? = some g) (addr : Address) :
    ∃ front back, groups = front ++ g :: back
      ∧ groups.modify i (·.push addr) = front ++ g.push addr :: back := by
  obtain ⟨hi, hg⟩ := List.getElem?_eq_some_iff.mp hget
  obtain ⟨front, g', back, hsplit, hlen, hmodify⟩ := List.exists_of_modify (·.push addr) hi
  have hg' : g' = g := by
    subst hlen
    rw [hsplit, List.getElem?_append_right (Nat.le_refl _), Nat.sub_self] at hget
    exact Option.some.inj hget
  exact ⟨front, back, hg' ▸ hsplit, hg' ▸ hmodify⟩

/-- If adding a member relates a group to itself, so it does for all groups when one is changed. -/
theorem forall₂_modify_push {R : Group → Group → Prop} (hrefl : ∀ g, R g g) {i : Nat} {g : Group}
    (hget : groups[i]? = some g) {addr : Address} (hpush : R g (g.push addr)) :
    List.Forall₂ R groups (groups.modify i (·.push addr)) := by
  obtain ⟨front, back, hsplit, hmodify⟩ := exists_split hget addr
  have hsame : ∀ gs : List Group, List.Forall₂ R gs gs :=
    fun gs => List.forall₂_same.mpr fun g _ => hrefl g
  rw [hmodify, hsplit]
  exact List.rel_append (hsame front) (List.Forall₂.cons hpush (hsame back))

theorem mem_members_push {g : Group} {addr x : Address} :
    x ∈ (g.push addr).members ↔ x ∈ g.members ∨ x = addr := by
  rw [Group.members_push, List.mem_append, List.mem_singleton]

namespace PartitionByBank

theorem nil : PartitionByBank bank [] :=
  ⟨fun _ hg => absurd hg List.not_mem_nil, List.Pairwise.nil⟩

theorem cons_iff {g : Group} : PartitionByBank bank (g :: groups) ↔
    g.Pure bank ∧ (∀ h ∈ groups, Apart bank g h) ∧ PartitionByBank bank groups := by
  constructor
  · rintro ⟨hpure, hapart⟩
    rw [List.forall_mem_cons] at hpure
    rw [List.pairwise_cons] at hapart
    exact ⟨hpure.1, hapart.1, hpure.2, hapart.2⟩
  · rintro ⟨hg, hgh, hpure, hapart⟩
    exact ⟨List.forall_mem_cons.mpr ⟨hg, hpure⟩, List.pairwise_cons.mpr ⟨hgh, hapart⟩⟩

/-- Changes of groups that bring in no banks keep a partition. -/
theorem of_keepsBanks {groups' : List Group} (h : PartitionByBank bank groups)
    (hkeeps : List.Forall₂ (KeepsBanks bank) groups groups') : PartitionByBank bank groups' := by
  induction hkeeps with
  | nil => exact nil
  | @cons g g' groups groups' hg hrest ih =>
      obtain ⟨hpure, hapart, hpart⟩ := cons_iff.mp h
      refine cons_iff.mpr ⟨?_, ?_, ih hpart⟩
      · intro a ha a' ha'
        obtain ⟨x, hx, hxa⟩ := hg a ha
        obtain ⟨x', hx', hxa'⟩ := hg a' ha'
        rw [← hxa, ← hxa']
        exact hpure x hx x' hx'
      · intro k' hk' a ha a' ha'
        obtain ⟨x, hx, hxa⟩ := hg a ha
        obtain ⟨k, hk, y, hy, hya⟩ := exists_of_keepsBanks hrest hk' ha'
        rw [← hxa, ← hya]
        exact hapart k hk x hx y hy

/-- Taking members away, or changing their order, keeps a partition. -/
theorem of_subset {groups' : List Group} (h : PartitionByBank bank groups)
    (hsub : List.Forall₂ (fun g g' => g'.members ⊆ g.members) groups groups') :
    PartitionByBank bank groups' :=
  h.of_keepsBanks (hsub.imp fun _ _ hmem a ha => ⟨a, hmem ha, rfl⟩)

/-- An address may join the group of its bank. -/
theorem modify_push (h : PartitionByBank bank groups) {i : Nat} {g : Group}
    (hget : groups[i]? = some g) {addr : Address} (hbank : ∃ a ∈ g.members, bank a = bank addr) :
    PartitionByBank bank (groups.modify i (·.push addr)) := by
  refine h.of_keepsBanks (forall₂_modify_push KeepsBanks.refl hget ?_)
  intro x hx
  rcases mem_members_push.mp hx with hx | rfl
  · exact ⟨x, hx, rfl⟩
  · exact hbank

/-- An address of a new bank may open a group. -/
theorem append_ofMembers (h : PartitionByBank bank groups) {addr : Address} (size : UInt64)
    (hnew : ∀ g ∈ groups, ∀ a ∈ g.members, bank a ≠ bank addr) :
    PartitionByBank bank (groups ++ [.ofMembers [addr] size]) := by
  refine ⟨?_, List.pairwise_append.mpr ⟨h.apart, List.pairwise_singleton _ _, ?_⟩⟩
  · intro g hg
    rcases List.mem_append.mp hg with hg | hg
    · exact h.pure g hg
    · obtain rfl := List.mem_singleton.mp hg
      intro a ha a' ha'
      rw [Group.members_ofMembers, List.mem_singleton] at ha ha'
      rw [ha, ha']
  · intro g hg k hk a ha a' ha'
    obtain rfl := List.mem_singleton.mp hk
    rw [Group.members_ofMembers, List.mem_singleton] at ha'
    rw [ha']
    exact hnew g hg a ha

end PartitionByBank

/-! ## Adding an address -/

variable {c : Classifier σ}

/-- **STEP**: adding an address keeps the groups from a position on a partition, whatever
    stands in front of them. -/
theorem PartitionByBank.classify (hb : b.NoiseFree bank) {n : Nat} (hn : n ≤ c.groups.length)
    (h : PartitionByBank bank (c.groups.drop n)) (allowNew : Bool) (addr : Address) :
    PartitionByBank bank ((c.classify b allowNew addr).2.groups.drop n) := by
  rcases classify_cases b allowNew c addr with ⟨i, g, s, hget, hscore, -, hgroups⟩ |
    ⟨hmiss, -, hgroups⟩
  · rw [hgroups]
    by_cases hi : i < n
    · rw [List.drop_modify_of_lt _ _ _ _ hi]
      exact h
    · have hget' : (c.groups.drop n)[i - n]? = some g := by
        rw [List.getElem?_drop, Nat.add_sub_cancel' (Nat.le_of_not_lt hi)]
        exact hget
      rw [List.drop_modify_of_ge _ _ _ _ (Nat.le_of_not_lt hi)]
      refine h.modify_push hget' ?_
      exact (Group.score_iff hb (h.pure g (List.mem_of_getElem? hget')) addr s).mp hscore
  · rw [hgroups]
    cases allowNew with
    | false => exact h
    | true =>
        rw [if_pos rfl, List.drop_append_of_le_length hn]
        refine h.append_ofMembers _ ?_
        intro g hg a ha heq
        obtain ⟨s, hs⟩ := hmiss g (List.mem_of_mem_drop hg)
        exact hs ((Group.score_iff hb (h.pure g hg) addr s).mpr ⟨a, ha, heq⟩)

theorem length_le_classify {n : Nat} (hn : n ≤ c.groups.length) (allowNew : Bool)
    (addr : Address) : n ≤ (c.classify b allowNew addr).2.groups.length := by
  rcases classify_cases b allowNew c addr with ⟨i, g, s, -, -, -, hgroups⟩ | ⟨-, -, hgroups⟩
  · rw [hgroups, List.length_modify]
    exact hn
  · rw [hgroups]
    cases allowNew with
    | false => exact hn
    | true =>
        rw [if_pos rfl, List.length_append]
        exact Nat.le_add_right_of_le hn

/-- Adding addresses in turn keeps a partition as well. -/
theorem PartitionByBank.classifyAll (hb : b.NoiseFree bank) {n : Nat} (hn : n ≤ c.groups.length)
    (h : PartitionByBank bank (c.groups.drop n)) (allowNew : Bool) (addrs : List Address)
    (misses : Nat) :
    PartitionByBank bank ((Classifier.classifyAll b allowNew addrs misses c).2.groups.drop n)
      ∧ n ≤ (Classifier.classifyAll b allowNew addrs misses c).2.groups.length := by
  induction addrs generalizing misses c with
  | nil => exact ⟨h, hn⟩
  | cons addr rest ih =>
      exact ih (length_le_classify hn allowNew addr) (h.classify hb hn allowNew addr) _

/-- A group is found exactly when one holds an address of the same bank. -/
theorem found_iff (hb : b.NoiseFree bank) (h : PartitionByBank bank c.groups) (allowNew : Bool)
    (addr : Address) :
    (c.classify b allowNew addr).1 = true ↔
      ∃ g ∈ c.groups, ∃ a ∈ g.members, bank a = bank addr := by
  rcases classify_cases b allowNew c addr with ⟨i, g, s, hget, hscore, hfound, -⟩ |
    ⟨hmiss, hfound, -⟩
  · have hg := List.mem_of_getElem? hget
    refine iff_of_true hfound ⟨g, hg, ?_⟩
    exact (Group.score_iff hb (h.pure g hg) addr s).mp hscore
  · refine iff_of_false (by rw [hfound]; exact Bool.false_ne_true) ?_
    rintro ⟨g, hg, hbank⟩
    obtain ⟨s, hs⟩ := hmiss g hg
    exact hs ((Group.score_iff hb (h.pure g hg) addr s).mpr hbank)

end DramBanks.Classifier
