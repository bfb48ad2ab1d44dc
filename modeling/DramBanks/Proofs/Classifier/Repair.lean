import DramBanks.Classifier.Regroup
import DramBanks.Proofs.Classifier.Partition
import Mathlib.Algebra.Group.Nat.Defs
import Mathlib.Data.List.Perm.Basic
import Mathlib.Logic.Function.Iterate
/-!
# Regrouping repairs any grouping

    A pass starts with groups of any kind: mixed, split, repeated or empty.
    It takes as many groups from the front as there were, so what stands
    behind the groups that are still to come was built in this pass.  That
    part is a partition by bank without empty groups (`Rebuilt`); an
    address that goes to a group still to come is classified again when
    that group is taken apart.

    No address is lost on the way (`perm_regroup`), so after the pass there
    is one group for every bank, with all addresses of this bank
    (`regroup_repairs`), and more passes cannot change their number. -/

namespace DramBanks.Classifier

variable {σ β : Type} {b : Bench σ} {bank : Address → β} {c : Classifier σ} {groups : List Group}

/-! ## Passes and rounds -/

/-- What taking the first group apart keeps, a pass keeps. -/
theorem regroup_keeps {P : Classifier σ → Prop} (hfirst : ∀ c, P c → P (c.regroupFirst b))
    (h : P c) : P (c.regroup b) := by
  have htimes : ∀ n c, P c → P (regroupTimes b n c) := by
    intro n
    induction n with
    | zero => exact fun _ h => h
    | succ n ih => exact fun c h => ih _ (hfirst c h)
  exact htimes _ c h

/-- Regrouping until the bank count is plausible, or in vain, is a number of passes. -/
theorem exists_rounds (b : Bench σ) (left done : Nat) (c : Classifier σ) :
    ∃ n ≤ left, (left ≠ 0 → n ≠ 0) ∧ (regroupRounds b left done c).2 = (regroup b)^[n] c := by
  induction left generalizing done c with
  | zero => exact ⟨0, Nat.le_refl 0, id, rfl⟩
  | succ left ih =>
      rw [regroupRounds]
      split
      · exact ⟨1, Nat.le_add_left 1 left, fun _ => Nat.one_ne_zero, rfl⟩
      · obtain ⟨n, hn, -, hrounds⟩ := ih (done + 1) (c.regroup b)
        exact ⟨n + 1, Nat.succ_le_succ hn, fun _ => Nat.succ_ne_zero n, hrounds⟩

/-- What a pass keeps, all rounds keep. -/
theorem regroupRounds_keeps {P : Classifier σ → Prop} (hpass : ∀ c, P c → P (c.regroup b))
    (left done : Nat) (h : P c) : P (regroupRounds b left done c).2 := by
  obtain ⟨n, -, -, hrounds⟩ := exists_rounds b left done c
  rw [hrounds]
  exact Function.Iterate.rec P h hpass n

/-! ## No address is lost -/

/-- All addresses of the groups. -/
def allMembers (groups : List Group) : List Address := groups.flatMap Group.members

/-- Groups with the same members, in any order, have the same addresses. -/
theorem perm_allMembers_map {f : Group → Group} (hf : ∀ g, (f g).members.Perm g.members) :
    (allMembers (groups.map f)).Perm (allMembers groups) := by
  rw [allMembers, List.flatMap_map]
  exact List.Perm.flatMap_left _ fun g _ => hf g

theorem perm_allMembers_modify {i : Nat} {g : Group} (hget : groups[i]? = some g)
    (addr : Address) :
    (allMembers (groups.modify i (·.push addr))).Perm (addr :: allMembers groups) := by
  obtain ⟨front, back, hsplit, hmodify⟩ := exists_split hget addr
  rw [hmodify, hsplit, allMembers, allMembers, List.flatMap_append, List.flatMap_append,
    List.flatMap_cons, List.flatMap_cons, Group.members_push]
  have hmiddle : (front.flatMap Group.members ++ g.members
        ++ addr :: back.flatMap Group.members).Perm
      (addr :: (front.flatMap Group.members ++ g.members ++ back.flatMap Group.members)) :=
    List.perm_middle
  simpa only [List.append_assoc, List.singleton_append] using hmiddle

theorem perm_classify (b : Bench σ) (c : Classifier σ) (addr : Address) :
    (allMembers (c.classify b true addr).2.groups).Perm (addr :: allMembers c.groups) := by
  rcases classify_cases b true c addr with ⟨i, g, s, hget, -, -, hgroups⟩ | ⟨-, -, hgroups⟩
  · rw [hgroups]
    exact perm_allMembers_modify hget addr
  · rw [hgroups, if_pos rfl, allMembers, List.flatMap_append]
    exact List.perm_append_singleton addr _

theorem perm_classifyAll (b : Bench σ) (addrs : List Address) (misses : Nat)
    (c : Classifier σ) :
    (allMembers (classifyAll b true addrs misses c).2.groups).Perm
      (addrs ++ allMembers c.groups) := by
  induction addrs generalizing misses c with
  | nil => exact List.Perm.refl _
  | cons addr rest ih =>
      have hstep := (perm_classify b c addr).append_left rest
      exact ((ih _ _).trans hstep).trans List.perm_middle

theorem perm_regroupFirst (b : Bench σ) (c : Classifier σ) :
    (allMembers (c.regroupFirst b).groups).Perm (allMembers c.groups) := by
  rw [regroupFirst]
  split
  · exact List.Perm.refl _
  · next g rest hgroups =>
      rw [hgroups]
      exact perm_classifyAll b g.members 0 _

/-- A pass loses no address and adds none. -/
theorem perm_regroup (b : Bench σ) (c : Classifier σ) :
    (allMembers (c.regroup b).groups).Perm (allMembers c.groups) :=
  regroup_keeps (P := fun c' => (allMembers c'.groups).Perm (allMembers c.groups))
    (fun c' h => (perm_regroupFirst b c').trans h) (List.Perm.refl _)

/-! ## The groups of this pass -/

/-- The groups behind those that are still to come have been built in this pass. -/
structure Rebuilt (bank : Address → β) (left : Nat) (groups : List Group) : Prop where
  le : left ≤ groups.length
  partition : PartitionByBank bank (groups.drop left)
  filled : ∀ g ∈ groups.drop left, g.members ≠ []

theorem filled_classify {n : Nat} (hn : n ≤ c.groups.length)
    (h : ∀ g ∈ c.groups.drop n, g.members ≠ []) (allowNew : Bool) (addr : Address) :
    ∀ g ∈ (c.classify b allowNew addr).2.groups.drop n, g.members ≠ [] := by
  rcases classify_cases b allowNew c addr with ⟨i, g, s, hget, -, -, hgroups⟩ | ⟨-, -, hgroups⟩
  · rw [hgroups]
    intro k hk hnil
    obtain ⟨j, hj⟩ := List.mem_iff_getElem?.mp hk
    rw [List.getElem?_drop, List.getElem?_modify] at hj
    obtain ⟨g', hg', hkg'⟩ := Option.map_eq_some_iff.mp hj
    have hmem : g' ∈ c.groups.drop n := by
      refine List.mem_iff_getElem?.mpr ⟨j, ?_⟩
      rw [List.getElem?_drop]
      exact hg'
    -- `k` is `g'`, with one more member or not
    refine h g' hmem ?_
    split at hkg'
    · rw [← hkg', Group.members_push] at hnil
      exact (List.append_eq_nil_iff.mp hnil).1
    · rw [hkg']
      exact hnil
  · rw [hgroups]
    cases allowNew with
    | false => exact h
    | true =>
        rw [if_pos rfl, List.drop_append_of_le_length hn]
        intro g hg
        rcases List.mem_append.mp hg with hg | hg
        · exact h g hg
        · obtain rfl := List.mem_singleton.mp hg
          exact List.cons_ne_nil _ _

theorem Rebuilt.classify (hb : b.NoiseFree bank) {left : Nat} (h : Rebuilt bank left c.groups)
    (addr : Address) : Rebuilt bank left (c.classify b true addr).2.groups :=
  ⟨length_le_classify h.le true addr, h.partition.classify hb h.le true addr,
    filled_classify h.le h.filled true addr⟩

section Passes

variable {P : Nat → List Group → Prop}
  (hclassify : ∀ left (c : Classifier σ) addr,
    P left c.groups → P left (c.classify b true addr).2.groups)
  (hfirst : ∀ left g rest, P (left + 1) (g :: rest) → P left rest)
  (hcome : ∀ left, ¬ P (left + 1) [])

include hclassify in
theorem classifyAll_builds {left : Nat} (h : P left c.groups) (addrs : List Address)
    (misses : Nat) : P left (classifyAll b true addrs misses c).2.groups := by
  induction addrs generalizing misses c with
  | nil => exact h
  | cons addr rest ih => exact ih (hclassify left c addr h) _

include hclassify hfirst hcome in
/-- Taking a group apart leaves one group fewer to come. -/
theorem regroupFirst_builds {left : Nat} (h : P (left + 1) c.groups) :
    P left (c.regroupFirst b).groups := by
  rw [regroupFirst]
  split
  · next hgroups =>
      rw [hgroups] at h
      exact absurd h (hcome left)
  · next g rest hgroups =>
      rw [hgroups] at h
      exact classifyAll_builds hclassify (c := { c with groups := rest }) (hfirst left g rest h)
        g.members 0

include hclassify hfirst hcome in
/-- What is kept of the groups behind those still to come holds of all groups in the end. -/
theorem regroupTimes_builds {left : Nat} (h : P left c.groups) :
    P 0 (c.regroupTimes b left).groups := by
  induction left generalizing c with
  | zero => exact h
  | succ left ih => exact ih (regroupFirst_builds hclassify hfirst hcome h)

end Passes

theorem Rebuilt.classifyAll (hb : b.NoiseFree bank) {left : Nat}
    (h : Rebuilt bank left c.groups) (addrs : List Address) (misses : Nat) :
    Rebuilt bank left (Classifier.classifyAll b true addrs misses c).2.groups :=
  classifyAll_builds (fun _ _ addr h => h.classify hb addr) h addrs misses

/-- After a pass all groups have been built in it, whatever the groups were. -/
theorem rebuilt_regroup (hb : b.NoiseFree bank) (c : Classifier σ) :
    Rebuilt bank 0 (c.regroup b).groups := by
  refine regroupTimes_builds (P := Rebuilt bank) (fun _ _ addr h => h.classify hb addr) ?_ ?_ ?_
  · intro left g rest h
    exact ⟨Nat.le_of_succ_le_succ h.le, h.partition, h.filled⟩
  · intro left h
    exact absurd h.le (Nat.not_succ_le_zero left)
  · -- at first all groups are still to come, and nothing is asked of these
    refine ⟨Nat.le_refl _, ?_, ?_⟩
    · rw [List.drop_length]
      exact PartitionByBank.nil
    · rw [List.drop_length]
      exact fun g hg => nomatch hg

/-- After a pass no group is empty, whatever the probe answers. -/
theorem members_ne_nil_regroup (b : Bench σ) (c : Classifier σ) :
    ∀ g ∈ (c.regroup b).groups, g.members ≠ [] := by
  have hstart : c.groups.length ≤ c.groups.length
      ∧ ∀ g ∈ c.groups.drop c.groups.length, g.members ≠ [] := by
    refine ⟨Nat.le_refl _, ?_⟩
    rw [List.drop_length]
    exact fun g hg => nomatch hg
  have hbuilt := regroupTimes_builds (b := b)
    (P := fun left groups => left ≤ groups.length ∧ ∀ g ∈ groups.drop left, g.members ≠ [])
    (fun _ _ addr h => ⟨length_le_classify h.1 true addr, filled_classify h.1 h.2 true addr⟩)
    (fun _ _ _ h => ⟨Nat.le_of_succ_le_succ h.1, h.2⟩)
    (fun left h => Nat.not_succ_le_zero left h.1) hstart
  exact hbuilt.2

/-! ## One group for every bank -/

/-- The bank of the first member. -/
def bankOfGroup (bank : Address → β) (g : Group) : β := bank (g.members.headD 0)

theorem bankOfGroup_eq {g : Group} (hpure : g.Pure bank) {a : Address} (ha : a ∈ g.members) :
    bank a = bankOfGroup bank g := by
  refine hpure a ha _ ?_
  cases hmembers : g.members with
  | nil =>
      rw [hmembers] at ha
      cases ha
  | cons x rest => exact List.mem_cons_self ..

theorem mem_allMembers {a : Address} :
    a ∈ allMembers groups ↔ ∃ g ∈ groups, a ∈ g.members := by
  rw [allMembers, List.mem_flatMap]

section Banks

variable (h : PartitionByBank bank groups) (hfilled : ∀ g ∈ groups, g.members ≠ [])

include h hfilled

theorem nodup_banks : (groups.map (bankOfGroup bank)).Nodup := by
  refine List.pairwise_map.mpr (h.apart.imp_of_mem ?_)
  intro g k hg hk hgk
  obtain ⟨a, ha⟩ := List.exists_mem_of_ne_nil _ (hfilled g hg)
  obtain ⟨a', ha'⟩ := List.exists_mem_of_ne_nil _ (hfilled k hk)
  rw [← bankOfGroup_eq (h.pure g hg) ha, ← bankOfGroup_eq (h.pure k hk) ha']
  exact hgk a ha a' ha'

theorem mem_banks (x : β) :
    x ∈ groups.map (bankOfGroup bank) ↔ ∃ a ∈ allMembers groups, bank a = x := by
  rw [List.mem_map]
  constructor
  · rintro ⟨g, hg, rfl⟩
    obtain ⟨a, ha⟩ := List.exists_mem_of_ne_nil _ (hfilled g hg)
    exact ⟨a, mem_allMembers.mpr ⟨g, hg, ha⟩, bankOfGroup_eq (h.pure g hg) ha⟩
  · rintro ⟨a, ha, rfl⟩
    obtain ⟨g, hg, hag⟩ := mem_allMembers.mp ha
    exact ⟨g, hg, (bankOfGroup_eq (h.pure g hg) hag).symm⟩

end Banks

/-- The members of a group are all addresses that share a bank with one of them. -/
theorem filter_sharing (h : PartitionByBank bank groups) {g : Group} (hg : g ∈ groups)
    {p : Address → Bool} (hp : ∀ a, p a = true ↔ ∃ x ∈ g.members, bank x = bank a) :
    (allMembers groups).filter p = g.members := by
  obtain ⟨front, back, rfl⟩ := List.append_of_mem hg
  obtain ⟨-, hback, hcross⟩ := List.pairwise_append.mp h.apart
  have hnone : ∀ gs : List Group, (∀ k ∈ gs, Apart bank k g) → (allMembers gs).filter p = [] := by
    intro gs hgs
    rw [List.filter_eq_nil_iff]
    intro a ha hpa
    obtain ⟨x, hx, heq⟩ := (hp a).mp hpa
    obtain ⟨k, hk, hak⟩ := mem_allMembers.mp ha
    exact hgs k hk a hak x hx heq.symm
  have hall : g.members.filter p = g.members := by
    rw [List.filter_eq_self]
    intro a ha
    exact (hp a).mpr ⟨a, ha, rfl⟩
  have hfront := hnone front fun k hk => hcross k hk g (List.mem_cons_self ..)
  have hbehind := hnone back fun k hk => ((List.pairwise_cons.mp hback).1 k hk).symm
  rw [allMembers] at hfront hbehind
  rw [allMembers, List.flatMap_append, List.flatMap_cons, List.filter_append, List.filter_append,
    hfront, hall, hbehind, List.nil_append, List.append_nil]

/-- The members of a filled group are all addresses of its bank. -/
theorem filter_bankOfGroup [DecidableEq β] (h : PartitionByBank bank groups) {g : Group}
    (hg : g ∈ groups) (hfilled : g.members ≠ []) :
    (allMembers groups).filter (fun a => bank a = bankOfGroup bank g) = g.members := by
  refine filter_sharing h hg ?_
  intro a
  obtain ⟨a₀, ha₀⟩ := List.exists_mem_of_ne_nil _ hfilled
  rw [decide_eq_true_eq]
  constructor
  · intro heq
    exact ⟨a₀, ha₀, (bankOfGroup_eq (h.pure g hg) ha₀).trans heq.symm⟩
  · rintro ⟨x, hx, heq⟩
    rw [← heq, bankOfGroup_eq (h.pure g hg) hx]

/-! ## Rounds -/

theorem isPlausible_iff {banks : Nat} : isPlausible banks = true ↔ ∃ n, banks = 2 ^ n := by
  rw [isPlausible, Bool.and_eq_true, bne_iff_ne, beq_iff_eq, Nat.one_shiftLeft]
  constructor
  · rintro ⟨-, h⟩
    exact ⟨_, h.symm⟩
  · rintro ⟨n, rfl⟩
    exact ⟨Nat.ne_of_gt (Nat.two_pow_pos n), by rw [Nat.log2_two_pow]⟩

theorem perm_iterate (b : Bench σ) (n : Nat) (c : Classifier σ) :
    (allMembers ((regroup b)^[n] c).groups).Perm (allMembers c.groups) := by
  induction n generalizing c with
  | zero => exact List.Perm.refl _
  | succ n ih =>
      rw [Function.iterate_succ_apply]
      exact (ih (c.regroup b)).trans (perm_regroup b c)

/-- When no round makes the bank count plausible, all rounds are carried out. -/
theorem regroupRounds_eq_none {left : Nat}
    (h : ∀ n < left, isPlausible ((regroup b)^[n + 1] c).bankCount = false) (done : Nat) :
    regroupRounds b left done c = (none, (regroup b)^[left] c) := by
  induction left generalizing c done with
  | zero => rfl
  | succ left ih =>
      have hfirst : isPlausible (c.regroup b).bankCount = false := h 0 (Nat.succ_pos left)
      rw [regroupRounds]
      simp only [hfirst, Bool.false_eq_true, if_false]
      rw [Function.iterate_succ_apply]
      exact ih (fun n hn => h (n + 1) (Nat.succ_lt_succ hn)) (done + 1)

theorem partition_regroup (hb : b.NoiseFree bank) (c : Classifier σ) :
    PartitionByBank bank (c.regroup b).groups := (rebuilt_regroup hb c).partition

theorem filled_regroup (hb : b.NoiseFree bank) (c : Classifier σ) :
    ∀ g ∈ (c.regroup b).groups, g.members ≠ [] := (rebuilt_regroup hb c).filled

/-- The banks after a pass are the banks of the addresses before it. -/
theorem mem_banks_regroup (hb : b.NoiseFree bank) (c : Classifier σ) (x : β) :
    x ∈ (c.regroup b).groups.map (bankOfGroup bank) ↔
      ∃ a ∈ allMembers c.groups, bank a = x := by
  rw [mem_banks (partition_regroup hb c) (filled_regroup hb c)]
  simp only [(perm_regroup b c).mem_iff]

/-- The groups after a pass are as many as there are banks among the addresses. -/
theorem bankCount_regroup (hb : b.NoiseFree bank) {banks : List β} (hnodup : banks.Nodup)
    (hmem : ∀ x, x ∈ banks ↔ ∃ a ∈ allMembers c.groups, bank a = x) :
    (c.regroup b).bankCount = banks.length := by
  have hnodup' := nodup_banks (partition_regroup hb c) (filled_regroup hb c)
  have hperm : ((c.regroup b).groups.map (bankOfGroup bank)).Perm banks := by
    refine (List.perm_ext_iff_of_nodup hnodup' hnodup).mpr ?_
    intro x
    rw [mem_banks_regroup hb, hmem]
  have hlen := hperm.length_eq
  rwa [List.length_map] at hlen

/-- **REPAIR**: without noise, one pass over any groups ends with one group for every bank
    among their addresses, which holds the addresses of this bank as often as they occurred.
    Rounds stop after the first one if the number of banks is a power of two, and are all
    carried out in vain if it is not. -/
theorem regroup_repairs [DecidableEq β] (hb : b.NoiseFree bank) (c : Classifier σ) :
    ∃ banks : List β, banks.Nodup
      ∧ (∀ x, x ∈ banks ↔ ∃ a ∈ allMembers c.groups, bank a = x)
      ∧ List.Forall₂
          (fun x g => g.members.Perm ((allMembers c.groups).filter fun a => bank a = x))
          banks (c.regroup b).groups
      ∧ ∀ maxRounds, 1 ≤ maxRounds →
          ((∃ n, banks.length = 2 ^ n) →
            c.regroupUntilPlausible b maxRounds = (some 1, c.regroup b))
          ∧ ((¬ ∃ n, banks.length = 2 ^ n) →
            c.regroupUntilPlausible b maxRounds = (none, (regroup b)^[maxRounds] c)
              ∧ ((regroup b)^[maxRounds] c).bankCount = banks.length) := by
  have hnodup := nodup_banks (partition_regroup hb c) (filled_regroup hb c)
  have hmem := mem_banks_regroup hb c
  -- every later round meets the same banks
  have hcount : ∀ n, ((regroup b)^[n + 1] c).bankCount
      = ((c.regroup b).groups.map (bankOfGroup bank)).length := by
    intro n
    rw [Function.iterate_succ_apply']
    refine bankCount_regroup hb hnodup ?_
    intro x
    rw [hmem]
    simp only [(perm_iterate b n c).mem_iff]
  refine ⟨_, hnodup, hmem, ?_, ?_⟩
  · rw [List.forall₂_map_left_iff, List.forall₂_same]
    intro g hg
    have hfilter := filter_bankOfGroup (partition_regroup hb c) hg (filled_regroup hb c g hg)
    rw [← hfilter]
    exact (perm_regroup b c).filter _
  · intro maxRounds hrounds
    obtain ⟨left, rfl⟩ := Nat.exists_eq_add_of_le' hrounds
    constructor
    · intro hpow
      have hpower : isPlausible (c.regroup b).bankCount = true := by
        rw [isPlausible_iff]
        exact (hcount 0).symm ▸ hpow
      show regroupRounds b (left + 1) 0 c = _
      rw [regroupRounds]
      simp only [hpower, if_true]
    · intro hpow
      refine ⟨regroupRounds_eq_none ?_ 0, hcount left⟩
      intro n _
      rw [Bool.eq_false_iff, Ne, isPlausible_iff, hcount n]
      exact hpow

/-- Groups that are mixed, repeat an address or are empty, of two banks. -/
def jumble : Classifier Nat :=
  ⟨[.ofMembers [1, 2, 1] 64, .ofMembers [] 64, .ofMembers [3, 0, 4] 64], 64, 0, []⟩

theorem regroup_repairs_jumble :
    (Bench.simulated {} [1]).NoiseFree (parities [1])
      ∧ ∃ banks : List (List UInt64), banks.Nodup
        ∧ (∀ x, x ∈ banks ↔ ∃ a ∈ allMembers jumble.groups, parities [1] a = x)
        ∧ List.Forall₂
            (fun x g => g.members.Perm
              ((allMembers jumble.groups).filter fun a => parities [1] a = x))
            banks (jumble.regroup (Bench.simulated {} [1])).groups
        ∧ ∀ maxRounds, 1 ≤ maxRounds →
            ((∃ n, banks.length = 2 ^ n) →
              jumble.regroupUntilPlausible (Bench.simulated {} [1]) maxRounds
                = (some 1, jumble.regroup (Bench.simulated {} [1])))
            ∧ ((¬ ∃ n, banks.length = 2 ^ n) →
              jumble.regroupUntilPlausible (Bench.simulated {} [1]) maxRounds
                = (none, (regroup (Bench.simulated {} [1]))^[maxRounds] jumble)
                ∧ ((regroup (Bench.simulated {} [1]))^[maxRounds] jumble).bankCount
                  = banks.length) :=
  ⟨Bench.noiseFree_simulated (by decide) [1],
    regroup_repairs (Bench.noiseFree_simulated (by decide) [1]) jumble⟩

end DramBanks.Classifier
