import DramBanks.Proofs.Classifier.Runs
/-!
# Run lengths and the guess

    Of any groups, sorted or not, the lengths that are counted are those of
    runs that end at a member (`Fits`), and without members there are none.
    So the number of blocks that is guessed fits into the word with the
    block that follows, and counting only fails for a member that is near
    the end of the word (`NearEnd`).

    For distinct members of one residue the lengths are those of maximal
    runs, so the guess is the smallest of the most frequent ones, in bytes. -/

namespace DramBanks.Classifier

variable {σ : Type} {c c' : Classifier σ} {step size : UInt64} {groups : List Group}
  {members addrs : List Address} {last : Address} {run : Nat} {done lengths : List Nat}
  {f : Fault}

/-! ## Lengths -/

/-- A run of this length may end at a member. -/
def Fits (members : List Address) (step : UInt64) (length : Nat) : Prop :=
  0 < length ∧ ∃ a ∈ members, length * step.toNat ≤ a.toNat + step.toNat

/-- There is no room for one more block behind some member. -/
def NearEnd (size : UInt64) (groups : List Group) : Prop :=
  ∃ a ∈ allMembers groups, 2 ^ 64 ≤ a.toNat + size.toNat

theorem runsFrom_ok (hrun : runsFrom step addrs last run done = .ok lengths)
    (hsub : last :: addrs ⊆ members) (hpos : 0 < run)
    (hlast : run * step.toNat ≤ last.toNat + step.toNat)
    (hdone : ∀ r ∈ done, Fits members step r) :
    lengths ≠ [] ∧ ∀ r ∈ lengths, Fits members step r := by
  fun_induction runsFrom step addrs last run done with
  | case1 last run done =>
      cases hrun
      rw [List.reverse_cons, List.forall_mem_append, List.forall_mem_singleton]
      refine ⟨List.append_ne_nil_of_right_ne_nil _ (List.cons_ne_nil _ _), ?_, hpos, ?_⟩
      · exact fun r hr => hdone r (List.mem_reverse.mp hr)
      · exact ⟨last, hsub (List.mem_cons_self ..), hlast⟩
  | case2 => cases hrun
  | case3 rest last run done next hnext ih =>
      refine ih hrun ((List.cons_subset.mp hsub).2) (Nat.succ_pos run) ?_ hdone
      rw [Word.toNat_of_add hnext, Nat.succ_mul]
      omega
  | case4 a rest last run done next hnext hne ih =>
      obtain ⟨hmem, hrest⟩ := List.cons_subset.mp hsub
      refine ih hrun hrest Nat.one_pos (by omega) ?_
      exact List.forall_mem_cons.mpr ⟨⟨hpos, last, hmem, hlast⟩, hdone⟩

theorem runsFrom_error (hrun : runsFrom step addrs last run done = .error f) :
    f = .sumOverflow ∧ ∃ a ∈ last :: addrs, 2 ^ 64 ≤ a.toNat + step.toNat := by
  fun_induction runsFrom step addrs last run done with
  | case1 => cases hrun
  | case2 a rest last run done e hnext =>
      cases hrun
      obtain ⟨rfl, hge⟩ := Word.add_eq_error_iff.mp hnext
      exact ⟨rfl, last, List.mem_cons_self .., hge⟩
  | case3 rest last run done next hnext ih =>
      obtain ⟨rfl, a, ha, hge⟩ := ih hrun
      exact ⟨rfl, a, List.mem_cons_of_mem _ ha, hge⟩
  | case4 a rest last run done next hnext hne ih =>
      obtain ⟨rfl, x, hx, hge⟩ := ih hrun
      exact ⟨rfl, x, List.mem_cons_of_mem _ hx, hge⟩

theorem runs_ok (hrun : runs step members = .ok lengths) :
    (lengths = [] ↔ members = []) ∧ ∀ r ∈ lengths, Fits members step r := by
  cases members with
  | nil =>
      cases hrun
      exact ⟨iff_of_true rfl rfl, fun _ hr => absurd hr List.not_mem_nil⟩
  | cons a rest =>
      obtain ⟨hne, hfits⟩ := runsFrom_ok hrun (List.Subset.refl _) Nat.one_pos
        (by omega) fun _ hr => absurd hr List.not_mem_nil
      exact ⟨iff_of_false hne (List.cons_ne_nil a rest), hfits⟩

/-- The lengths of the groups are those of runs that end at a member, and there is one if there
    is a member. -/
theorem allRuns_ok (hrun : allRuns step groups = .ok lengths) :
    (lengths = [] ↔ allMembers groups = []) ∧ ∀ r ∈ lengths, Fits (allMembers groups) step r := by
  induction groups generalizing lengths with
  | nil =>
      cases hrun
      exact ⟨iff_of_true rfl rfl, fun _ hr => absurd hr List.not_mem_nil⟩
  | cons g rest ih =>
      rw [allRuns] at hrun
      split at hrun
      · next first more hfirst hmore =>
          cases hrun
          obtain ⟨hnil, hfits⟩ := runs_ok hfirst
          obtain ⟨hnil', hfits'⟩ := ih hmore
          rw [allMembers, List.flatMap_cons, List.append_eq_nil_iff, List.append_eq_nil_iff,
            List.forall_mem_append, hnil, hnil']
          refine ⟨Iff.rfl, ?_, ?_⟩
          · intro r hr
            obtain ⟨hpos, a, ha, hle⟩ := hfits r hr
            exact ⟨hpos, a, List.mem_append_left _ ha, hle⟩
          · intro r hr
            obtain ⟨hpos, a, ha, hle⟩ := hfits' r hr
            exact ⟨hpos, a, List.mem_append_right _ ha, hle⟩
      · cases hrun
      · cases hrun

theorem allRuns_error (hrun : allRuns step groups = .error f) :
    f = .sumOverflow ∧ NearEnd step groups := by
  induction groups with
  | nil => cases hrun
  | cons g rest ih =>
      rw [allRuns] at hrun
      split at hrun
      · cases hrun
      · next hfirst =>
          cases hrun
          cases hmembers : g.members with
          | nil =>
              rw [hmembers] at hfirst
              cases hfirst
          | cons a addrs =>
              rw [hmembers] at hfirst
              obtain ⟨rfl, x, hx, hge⟩ := runsFrom_error hfirst
              rw [← hmembers] at hx
              exact ⟨rfl, x, mem_allMembers.mpr ⟨g, List.mem_cons_self .., hx⟩, hge⟩
      · next hrest _ =>
          cases hrun
          obtain ⟨rfl, x, hx, hge⟩ := ih hrest
          exact ⟨rfl, x, List.mem_append_right _ hx, hge⟩

/-! ## Guesses -/

theorem perm_allMembers_sortGroup (groups : List Group) :
    (allMembers (groups.map sortGroup)).Perm (allMembers groups) :=
  perm_allMembers_map fun _ => List.mergeSort_perm _ _

theorem nearEnd_sortGroup : NearEnd size (groups.map sortGroup) ↔ NearEnd size groups := by
  simp only [NearEnd, (perm_allMembers_sortGroup groups).mem_iff]

/-- The mode of the lengths of sorted groups is one of these, unless there are no members. -/
theorem mode_fits (hrun : allRuns step (groups.map sortGroup) = .ok lengths) :
    mode lengths = 0 ∧ allMembers groups = []
      ∨ mode lengths ∈ lengths ∧ Fits (allMembers groups) step (mode lengths) := by
  have hperm := perm_allMembers_sortGroup groups
  obtain ⟨hnil, hfits⟩ := allRuns_ok hrun
  by_cases h : lengths = []
  · refine Or.inl ⟨h ▸ mode_nil, ?_⟩
    rw [hnil] at h
    rw [h] at hperm
    exact List.nil_perm.mp hperm
  · have hmem := (mode_spec h).1
    obtain ⟨hpos, a, ha, hle⟩ := hfits _ hmem
    exact Or.inr ⟨hmem, hpos, a, hperm.mem_iff.mp ha, hle⟩

/-- A guess is as many blocks as some run has.  It is 0 without members, or if every byte of the
    word is a member. -/
theorem guessBlockSize_cases (hpos : 0 < c.blockSize.toNat)
    (hrun : c.guessBlockSize = .ok (size, c')) :
    size = 0 ∧ (allMembers c.groups = [] ∨ c.blockSize = 1)
      ∨ ∃ lengths length, allRuns c.blockSize (c.groups.map sortGroup) = .ok lengths
          ∧ length ∈ lengths ∧ 0 < length ∧ size.toNat = c.blockSize.toNat * length := by
  obtain ⟨lengths, hruns, hmul, -⟩ := guessBlockSize_ok hrun
  have hnat := Word.toNat_of_mul hmul
  rw [UInt64.toNat_ofNat'] at hnat
  rcases mode_fits hruns with ⟨hzero, hnil⟩ | ⟨hmem, hmode, a, -, hle⟩
  · refine Or.inl ⟨UInt64.toNat_inj.mp ?_, Or.inl hnil⟩
    rw [hnat, hzero, Nat.zero_mod, Nat.zero_mul]
    rfl
  · by_cases hword : mode lengths < 2 ^ 64
    · refine Or.inr ⟨lengths, mode lengths, hruns, hmem, hmode, ?_⟩
      rw [hnat, Nat.mod_eq_of_lt hword, Nat.mul_comm]
    · -- a run of that many blocks only fits into the word if these are bytes
      have ha := UInt64.toNat_lt a
      have hlt := UInt64.toNat_lt c.blockSize
      have hbytes : 2 ^ 64 * c.blockSize.toNat ≤ mode lengths * c.blockSize.toNat :=
        Nat.mul_le_mul_right _ (Nat.not_lt.mp hword)
      have hone : c.blockSize.toNat = 1 := by omega
      rw [hone, Nat.mul_one] at hle
      have hall : mode lengths = 2 ^ 64 := by omega
      refine Or.inl ⟨UInt64.toNat_inj.mp ?_, Or.inr (UInt64.toNat_inj.mp hone)⟩
      rw [hnat, hall, Nat.mod_self, Nat.zero_mul]
      rfl

/-- A guess only fails for a member near the end of the word. -/
theorem guessBlockSize_error (hrun : c.guessBlockSize = .error f) :
    (f = .sumOverflow ∨ f = .productOverflow) ∧ NearEnd c.blockSize c.groups := by
  rw [guessBlockSize] at hrun
  split at hrun
  · next hruns =>
      cases hrun
      obtain ⟨rfl, hnear⟩ := allRuns_error hruns
      exact ⟨Or.inl rfl, nearEnd_sortGroup.mp hnear⟩
  · next lengths hruns =>
      have hproduct := eq_error_of_map hrun
      rw [Word.mul] at hproduct
      split at hproduct
      · cases hproduct
      · next hge =>
          cases hproduct
          rw [UInt64.toNat_ofNat', Nat.not_lt] at hge
          have hle : 2 ^ 64 ≤ mode lengths * c.blockSize.toNat :=
            Nat.le_trans hge (Nat.mul_le_mul_right _ (Nat.mod_le _ _))
          rcases mode_fits hruns with ⟨hzero, -⟩ | ⟨-, -, a, ha, hfit⟩
          · rw [hzero, Nat.zero_mul] at hle
            exact absurd hle (by decide)
          · exact ⟨Or.inr rfl, a, ha, Nat.le_trans hle hfit⟩

/-- Sorted groups are left as they are, so a second guess is the first one. -/
theorem guessBlockSize_again (hrun : c.guessBlockSize = .ok (size, c')) :
    c'.guessBlockSize = .ok (size, c') := by
  obtain ⟨lengths, hruns, hmul, rfl⟩ := guessBlockSize_ok hrun
  have hsorted : (c.groups.map sortGroup).map sortGroup = c.groups.map sortGroup := by
    rw [List.map_map]
    refine List.map_congr_left fun g _ => ?_
    exact congrArg (Group.ofMembers · g.blockSize)
      (sorted_eq_of_perm (List.mergeSort_perm g.members _))
  rw [guessBlockSize]
  simp only [hsorted, hruns, hmul]
  rfl

/-- **MODE OF RUNS**: for distinct members of one residue in every group, with room for one more
    block behind each, the guess is as many blocks as the smallest of the most frequent lengths
    of a maximal run.  It is 0 exactly without members.  Guessing sorts the members of the groups,
    changes nothing else, and can be repeated. -/
theorem guessBlockSize_eq_mode (hsize : 0 < c.blockSize.toNat)
    (hnodup : ∀ g ∈ c.groups, g.members.Nodup)
    (hresidue : ∀ g ∈ c.groups, ∀ a ∈ g.members, ∀ x ∈ g.members,
      a.toNat % c.blockSize.toNat = x.toNat % c.blockSize.toNat)
    (hroom : ∀ a ∈ allMembers c.groups, a.toNat + c.blockSize.toNat < 2 ^ 64) :
    ∃ size length groups, c.guessBlockSize = .ok (size, { c with groups := groups })
      ∧ size.toNat = length * c.blockSize.toNat
      ∧ (∀ other, groupRuns c.groups c.blockSize.toNat other
            < groupRuns c.groups c.blockSize.toNat length
          ∨ groupRuns c.groups c.blockSize.toNat other
            = groupRuns c.groups c.blockSize.toNat length ∧ length ≤ other)
      ∧ (size = 0 ↔ allMembers c.groups = [])
      ∧ List.Forall₂ (fun g g' => g'.members.Perm g.members ∧ g'.blockSize = g.blockSize)
          c.groups groups
      ∧ ({ c with groups := groups } : Classifier σ).guessBlockSize
          = .ok (size, { c with groups := groups }) := by
  have hspaced : ∀ g ∈ c.groups, Spaced c.blockSize g.members := by
    intro g hg
    refine ⟨hnodup g hg, hresidue g hg, ?_⟩
    intro a ha
    exact Nat.le_of_lt (hroom a (mem_allMembers.mpr ⟨g, hg, ha⟩))
  obtain ⟨lengths, hruns, hcount⟩ := exists_allRuns hsize hspaced
  have hfits := mode_fits hruns
  have hword : mode lengths * c.blockSize.toNat < 2 ^ 64 := by
    rcases hfits with ⟨hzero, -⟩ | ⟨-, -, a, ha, hle⟩
    · rw [hzero, Nat.zero_mul]
      exact Nat.two_pow_pos 64
    · exact Nat.lt_of_le_of_lt hle (hroom a ha)
  have hguess := guessBlockSize_of_lengths hruns hword
  have hnat : (UInt64.ofNat (mode lengths) * c.blockSize).toNat
      = mode lengths * c.blockSize.toNat := by
    rw [UInt64.toNat_mul, UInt64.toNat_ofNat', Nat.mod_mul_mod, Nat.mod_eq_of_lt hword]
  refine ⟨_, mode lengths, _, hguess, hnat, ?_, ?_, ?_, guessBlockSize_again hguess⟩
  · intro other
    rw [← hcount, ← hcount]
    exact beats_mode lengths other
  · rw [← UInt64.toNat_inj, hnat, UInt64.toNat_zero, Nat.mul_eq_zero,
      or_iff_left (Nat.ne_of_gt hsize)]
    rcases hfits with ⟨hzero, hnil⟩ | ⟨-, hpos, a, ha, -⟩
    · exact iff_of_true hzero hnil
    · exact iff_of_false (Nat.ne_of_gt hpos) (List.ne_nil_of_mem ha)
  · rw [List.forall₂_map_right_iff, List.forall₂_same]
    exact fun g _ => ⟨List.mergeSort_perm _ _, rfl⟩

/-- A run of three pages, and two runs of one page. -/
def threeRuns : Classifier Nat :=
  ⟨[.ofMembers [8192, 0, 4096] 4096, .ofMembers [] 4096, .ofMembers [24576, 16384] 4096],
    4096, 0, []⟩

theorem guessBlockSize_three_runs :
    ∃ size length groups, threeRuns.guessBlockSize = .ok (size, { threeRuns with groups := groups })
      ∧ size.toNat = length * 4096 ∧ size ≠ 0
      ∧ ∀ other, groupRuns threeRuns.groups 4096 other < groupRuns threeRuns.groups 4096 length
          ∨ groupRuns threeRuns.groups 4096 other = groupRuns threeRuns.groups 4096 length
            ∧ length ≤ other := by
  have haligned : ∀ a ∈ allMembers threeRuns.groups, a.toNat % 4096 = 0 :=
    forall_mem_of_all (by decide)
  have hresidue : ∀ g ∈ threeRuns.groups, ∀ a ∈ g.members, a.toNat % 4096 = 0 :=
    fun g hg a ha => haligned a (mem_allMembers.mpr ⟨g, hg, ha⟩)
  obtain ⟨size, length, groups, hguess, hsize, hbest, hzero, -, -⟩ :=
    guessBlockSize_eq_mode (c := threeRuns) (by decide) (by decide)
      (fun g hg a ha x hx => (hresidue g hg a ha).trans (hresidue g hg x hx).symm)
      (forall_mem_of_all (by decide +kernel))
  exact ⟨size, length, groups, hguess, hsize, fun h => absurd (hzero.mp h) (by decide), hbest⟩

example : (List.range 5).map (groupRuns threeRuns.groups 4096) = [0, 2, 0, 1, 0] := by
  decide +kernel

end DramBanks.Classifier

