import DramBanks.Proofs.Classifier.Resizing
import DramBanks.Proofs.Mode
import Mathlib.Data.Multiset.Sort
/-!
# Runs

    A RUN of a group is a maximal sequence of members one block apart.  The
    sorted members of a group fall into runs (`Segments`), and the lengths
    that are counted are theirs; so a length occurs as often as a maximal
    run of this length starts at a member (`exists_runs`).

    Where the groups are a partition by bank, a run of a group is a run of
    addresses of one bank, and the lengths of all runs can be counted among
    all addresses (`Holds.exists_allRuns`). -/

namespace DramBanks.Classifier

/-- A sequence of `length` places with a property, `step` apart from `start` on, that cannot be
    continued at either end. -/
def MaximalRun (p : Nat → Prop) (step length start : Nat) : Prop :=
  (∀ i < length, p (start + i * step)) ∧ (step ≤ start → ¬ p (start - step))
    ∧ ¬ p (start + length * step)

instance (p : Nat → Prop) [DecidablePred p] (step length start : Nat) :
    Decidable (MaximalRun p step length start) :=
  inferInstanceAs (Decidable (_ ∧ _ ∧ _))

/-- The address `n` is a member. -/
def Occupied (members : List Address) (n : Nat) : Prop := ∃ x ∈ members, x.toNat = n

instance (members : List Address) : DecidablePred (Occupied members) :=
  fun n => inferInstanceAs (Decidable (∃ x ∈ members, x.toNat = n))

/-! ## The runs of a sorted group -/

variable {step : UInt64} {members : List Address}

/-- Members in runs: each starts at an address and has a length, and there is a gap behind it. -/
structure Segments (step : UInt64) (members : List Address) (segments : List (Address × Nat)) :
    Prop where
  eq : members = segments.flatMap fun r => progression r.1 step r.2
  pos : ∀ r ∈ segments, 0 < r.2
  room : ∀ r ∈ segments, r.1.toNat + r.2 * step.toNat ≤ 2 ^ 64
  apart : segments.Pairwise fun r r' => r.1.toNat + r.2 * step.toNat < r'.1.toNat

theorem progression_one (a step : UInt64) : progression a step 1 = [a] := by
  show [a + 0 * step] = [a]
  rw [UInt64.zero_mul, UInt64.add_zero]

theorem progression_cons (a step : UInt64) (n : Nat) :
    progression a step (n + 1) = a :: progression (a + step) step n := by
  rw [Nat.add_comm, progression_add, progression_one]
  show a :: progression (a + 1 * step) step n = _
  rw [UInt64.one_mul]

theorem countP_eq_sum {α : Type} (p : α → Bool) (l : List α) :
    l.countP p = (l.map fun x => if p x then 1 else 0).sum := by
  induction l with
  | nil => rfl
  | cons x l ih => rw [List.countP_cons, List.map_cons, List.sum_cons, ih, Nat.add_comm]

/-- What can only hold of the first address of a progression is counted at most once. -/
theorem countP_progression {start step : UInt64} {n : Nat}
    (hroom : start.toNat + n * step.toNat ≤ 2 ^ 64) (hstep : 0 < step.toNat) (hn : 0 < n)
    {p : Address → Bool} {q : Bool}
    (h : ∀ i < n, ∀ a : Address, a.toNat = start.toNat + i * step.toNat →
      (p a = true ↔ i = 0 ∧ q = true)) :
    (progression start step n).countP p = if q then 1 else 0 := by
  have hplace : ∀ i ∈ List.range n,
      (p (start + UInt64.ofNat i * step) = true ↔ (i == 0 && q) = true) := by
    intro i hi
    rw [List.mem_range] at hi
    have hle : (i + 1) * step.toNat ≤ n * step.toNat := Nat.mul_le_mul_right _ hi
    rw [Nat.succ_mul] at hle
    rw [h i hi _ (toNat_add_mul (by omega)), Bool.and_eq_true, beq_iff_eq]
  rw [progression, List.countP_map, Function.comp_def, List.countP_congr hplace]
  cases q with
  | true =>
      simp only [Bool.and_true, if_true]
      exact List.count_eq_one_of_mem List.nodup_range (List.mem_range.mpr hn)
  | false => simp

/-- A member is a run of its own. -/
theorem Segments.singleton {a : Address} (hroom : a.toNat + step.toNat ≤ 2 ^ 64) :
    Segments step [a] [(a, 1)] := by
  refine ⟨?_, ?_, ?_, List.pairwise_singleton _ _⟩
  · rw [List.flatMap_singleton, progression_one]
  · exact List.forall_mem_singleton.mpr Nat.one_pos
  · rw [List.forall_mem_singleton, Nat.one_mul]
    exact hroom

/-- With a member one step in front of it, the first run begins there. -/
theorem Segments.grow {a x : Address} {length : Nat} {tail : List (Address × Nat)}
    (h : Segments step members ((x, length) :: tail)) (hnext : x = a + step)
    (hnat : (a + step).toNat = a.toNat + step.toNat) :
    Segments step (a :: members) ((a, length + 1) :: tail) := by
  obtain ⟨heq, hpos, hend, hapart⟩ := h
  have hmove : a.toNat + (length + 1) * step.toNat = x.toNat + length * step.toNat := by
    rw [hnext, hnat, Nat.succ_mul]
    omega
  refine ⟨?_, ?_, ?_, ?_⟩
  · rw [heq, List.flatMap_cons, List.flatMap_cons, progression_cons, ← hnext]
    rfl
  · rw [List.forall_mem_cons] at hpos ⊢
    exact ⟨Nat.succ_pos length, hpos.2⟩
  · rw [List.forall_mem_cons] at hend ⊢
    exact ⟨hmove.trans_le hend.1, hend.2⟩
  · rw [List.pairwise_cons] at hapart ⊢
    exact ⟨fun r hr => hmove.trans_lt (hapart.1 r hr), hapart.2⟩

/-- A member more than one step in front of the first run is a run of its own. -/
theorem Segments.cons {a x : Address} {length : Nat} {tail : List (Address × Nat)}
    (h : Segments step members ((x, length) :: tail)) (hroom : a.toNat + step.toNat ≤ 2 ^ 64)
    (hgap : a.toNat + step.toNat < x.toNat) :
    Segments step (a :: members) ((a, 1) :: (x, length) :: tail) := by
  refine ⟨?_, List.forall_mem_cons.mpr ⟨Nat.one_pos, h.pos⟩, ?_, ?_⟩
  · rw [List.flatMap_cons, ← h.eq, progression_one]
    rfl
  · refine List.forall_mem_cons.mpr ⟨?_, h.room⟩
    rw [Nat.one_mul]
    exact hroom
  · refine List.pairwise_cons.mpr ⟨?_, h.apart⟩
    have hbehind := (List.pairwise_cons.mp h.apart).1
    intro r hr
    rw [Nat.one_mul]
    rcases List.mem_cons.mp hr with rfl | hr
    · exact hgap
    · have hfirst : x.toNat + length * step.toNat < r.1.toNat := hbehind r hr
      exact Nat.lt_of_lt_of_le hgap (by omega)

/-- Counting runs from an address on finds the runs that start there and behind it. -/
theorem exists_segments {a : Address} {rest : List Address}
    (hgap : (a :: rest).Pairwise fun x y => x.toNat + step.toNat ≤ y.toNat)
    (hroom : ∀ x ∈ a :: rest, x.toNat + step.toNat ≤ 2 ^ 64) :
    ∃ length tail, Segments step (a :: rest) ((a, length) :: tail)
      ∧ ∀ run done, runsFrom step rest a (run + 1) done
          = .ok (done.reverse ++ (run + length) :: tail.map Prod.snd) := by
  induction rest generalizing a with
  | nil =>
      refine ⟨1, [], .singleton (hroom a (List.mem_cons_self ..)), ?_⟩
      intro run done
      exact congrArg _ List.reverse_cons
  | cons x rest ih =>
      obtain ⟨ha, hgap⟩ := List.pairwise_cons.mp hgap
      obtain ⟨length, tail, hsegments, hruns⟩ :=
        ih hgap fun y hy => hroom y (List.mem_cons_of_mem _ hy)
      have hx := ha x (List.mem_cons_self ..)
      have hadd : Word.add a step = .ok (a + step) :=
        if_pos (Nat.lt_of_le_of_lt hx (UInt64.toNat_lt x))
      have hnat := Word.toNat_of_add hadd
      by_cases hnext : x = a + step
      · -- the run at `x` begins one step earlier
        refine ⟨length + 1, tail, hsegments.grow hnext hnat, ?_⟩
        intro run done
        rw [runsFrom, hadd]
        simp only [if_pos hnext]
        rw [hruns, Nat.add_right_comm, Nat.add_assoc]
      · -- the run ends at `a`
        have hlt : a.toNat + step.toNat < x.toNat := by
          refine Nat.lt_of_le_of_ne hx fun h => hnext ?_
          exact UInt64.toNat_inj.mp (h.symm.trans hnat.symm)
        refine ⟨1, (x, length) :: tail, hsegments.cons (hroom a (List.mem_cons_self ..)) hlt, ?_⟩
        intro run done
        rw [runsFrom, hadd]
        simp only [if_neg hnext]
        rw [hruns 0, List.reverse_cons, List.append_assoc, Nat.zero_add]
        rfl

namespace Segments

variable {segments : List (Address × Nat)} (h : Segments step members segments)
include h

/-- The members are what lies in a run. -/
theorem occupied_iff (hstep : 0 < step.toNat) {n : Nat} :
    Occupied members n ↔ ∃ r ∈ segments, ∃ i < r.2, n = r.1.toNat + i * step.toNat := by
  rw [Occupied, h.eq]
  constructor
  · rintro ⟨x, hx, rfl⟩
    obtain ⟨r, hr, hmem⟩ := List.mem_flatMap.mp hx
    exact ⟨r, hr, (mem_progression_iff (h.room r hr) hstep).mp hmem⟩
  · rintro ⟨r, hr, i, hi, rfl⟩
    have hroom := h.room r hr
    have hle : (i + 1) * step.toNat ≤ r.2 * step.toNat := Nat.mul_le_mul_right _ hi
    rw [Nat.succ_mul] at hle
    refine ⟨r.1 + UInt64.ofNat i * step, List.mem_flatMap.mpr ⟨r, hr, ?_⟩, toNat_add_mul (by omega)⟩
    exact List.mem_map_of_mem (List.mem_range.mpr hi)

/-- Another run ends before a run, with a gap, or begins behind it. -/
theorem apart_of_ne {r r' : Address × Nat} (hr : r ∈ segments) (hr' : r' ∈ segments)
    (hne : r ≠ r') :
    r.1.toNat + r.2 * step.toNat < r'.1.toNat ∨ r'.1.toNat + r'.2 * step.toNat < r.1.toNat := by
  have hor : segments.Pairwise fun r r' =>
      r.1.toNat + r.2 * step.toNat < r'.1.toNat ∨ r'.1.toNat + r'.2 * step.toNat < r.1.toNat :=
    h.apart.imp Or.inl
  have hsymm : Std.Symm fun r r' : Address × Nat =>
      r.1.toNat + r.2 * step.toNat < r'.1.toNat ∨ r'.1.toNat + r'.2 * step.toNat < r.1.toNat :=
    ⟨fun _ _ hrr' => hrr'.symm⟩
  exact hor.forall hr hr' hne

/-- A maximal run starts at the first address of a segment and has its length. -/
theorem maximalRun_iff (hstep : 0 < step.toNat) {r : Address × Nat} (hr : r ∈ segments) {i : Nat}
    (hi : i < r.2) (length : Nat) :
    MaximalRun (Occupied members) step.toNat length (r.1.toNat + i * step.toNat)
      ↔ i = 0 ∧ r.2 = length := by
  have hocc := fun n => h.occupied_iff hstep (n := n)
  -- in front of the segment and behind it there is a gap
  have hfront : step.toNat ≤ r.1.toNat → ¬ Occupied members (r.1.toNat - step.toNat) := by
    intro hle hoccupied
    obtain ⟨r', hr', j, hj, heq⟩ := (hocc _).mp hoccupied
    have hmul : (j + 1) * step.toNat ≤ r'.2 * step.toNat := Nat.mul_le_mul_right _ hj
    rw [Nat.succ_mul] at hmul
    by_cases hsame : r = r'
    · rw [← hsame] at heq
      omega
    · rcases h.apart_of_ne hr hr' hsame with hlt | hlt <;> omega
  have hbehind : ¬ Occupied members (r.1.toNat + r.2 * step.toNat) := by
    intro hoccupied
    obtain ⟨r', hr', j, hj, heq⟩ := (hocc _).mp hoccupied
    have hmul : (j + 1) * step.toNat ≤ r'.2 * step.toNat := Nat.mul_le_mul_right _ hj
    rw [Nat.succ_mul] at hmul
    by_cases hsame : r = r'
    · rw [← hsame] at hmul heq
      omega
    · rcases h.apart_of_ne hr hr' hsame with hlt | hlt <;> omega
  have hinside : ∀ j < r.2, Occupied members (r.1.toNat + j * step.toNat) :=
    fun j hj => (hocc _).mpr ⟨r, hr, j, hj, rfl⟩
  constructor
  · rintro ⟨hrun, hleft, hright⟩
    have hzero : i = 0 := by
      by_contra hne
      obtain ⟨j, rfl⟩ := Nat.exists_eq_succ_of_ne_zero hne
      rw [Nat.succ_mul] at hleft
      refine hleft (by omega) ?_
      rw [← Nat.add_assoc, Nat.add_sub_cancel]
      exact hinside j (Nat.lt_of_succ_lt hi)
    subst hzero
    rw [Nat.zero_mul, Nat.add_zero] at hrun hright
    refine ⟨rfl, Nat.le_antisymm ?_ ?_⟩
    · exact Nat.le_of_not_lt fun hlt => hright (hinside length hlt)
    · exact Nat.le_of_not_lt fun hlt => hbehind (hrun r.2 hlt)
  · rintro ⟨rfl, rfl⟩
    rw [Nat.zero_mul, Nat.add_zero]
    exact ⟨hinside, hfront, hbehind⟩

/-- A length occurs as often as a maximal run of this length starts at a member. -/
theorem count_lengths (hstep : 0 < step.toNat) (length : Nat) :
    (segments.map Prod.snd).count length
      = members.countP fun a => MaximalRun (Occupied members) step.toNat length a.toNat := by
  have hone : ∀ r ∈ segments, (progression r.1 step r.2).countP
      (fun a => MaximalRun (Occupied members) step.toNat length a.toNat)
        = if decide (r.2 = length) then 1 else 0 := by
    intro r hr
    refine countP_progression (h.room r hr) hstep (h.pos r hr) ?_
    intro i hi a ha
    rw [decide_eq_true_eq, decide_eq_true_eq, ha]
    exact h.maximalRun_iff hstep hr hi length
  have hcount : (segments.map Prod.snd).count length
      = segments.countP fun r => decide (r.2 = length) := by
    rw [List.count_eq_countP, List.countP_map]
    rfl
  calc (segments.map Prod.snd).count length
      = (segments.map fun r => if decide (r.2 = length) then 1 else 0).sum :=
        hcount.trans (countP_eq_sum _ segments)
    _ = (segments.map fun r => (progression r.1 step r.2).countP
          fun a => MaximalRun (Occupied members) step.toNat length a.toNat).sum :=
        congrArg _ (List.map_congr_left fun r hr => (hone r hr).symm)
    _ = (segments.flatMap fun r => progression r.1 step r.2).countP
          (fun a => MaximalRun (Occupied members) step.toNat length a.toNat) :=
        List.countP_flatMap.symm
    _ = members.countP fun a => MaximalRun (Occupied members) step.toNat length a.toNat :=
        congrArg (List.countP _) h.eq.symm

end Segments

/-- A sorted group has as many runs of a length as maximal runs of this length start at its
    members. -/
theorem exists_runs (hstep : 0 < step.toNat)
    (hgap : members.Pairwise fun x y => x.toNat + step.toNat ≤ y.toNat)
    (hroom : ∀ x ∈ members, x.toNat + step.toNat ≤ 2 ^ 64) :
    ∃ lengths, runs step members = .ok lengths ∧ ∀ length, lengths.count length
      = members.countP fun a => MaximalRun (Occupied members) step.toNat length a.toNat := by
  cases members with
  | nil => exact ⟨[], rfl, fun length => rfl⟩
  | cons a rest =>
      obtain ⟨first, tail, hsegments, hruns⟩ := exists_segments hgap hroom
      refine ⟨_, hruns 0 [], fun length => ?_⟩
      rw [← hsegments.count_lengths hstep, Nat.zero_add]
      rfl

/-! ## The runs of all groups -/

/-- Members are distinct addresses of one residue, with room for one more step behind each. -/
structure Spaced (step : UInt64) (members : List Address) : Prop where
  nodup : members.Nodup
  residue : ∀ a ∈ members, ∀ x ∈ members, a.toNat % step.toNat = x.toNat % step.toNat
  room : ∀ a ∈ members, a.toNat + step.toNat ≤ 2 ^ 64

theorem pairwise_sorted (members : List Address) : (sorted members).Pairwise (· ≤ ·) :=
  List.pairwise_mergeSort' (· ≤ ·) members

/-- The order of the addresses does not matter to the sorted ones. -/
theorem sorted_eq_of_perm {xs ys : List Address} (h : xs.Perm ys) : sorted xs = sorted ys :=
  congrArg (Multiset.sort · (· ≤ ·)) (Multiset.coe_eq_coe.mpr h)

/-- Sorted, such members are at least one step apart. -/
theorem Spaced.pairwise_sorted (h : Spaced step members) :
    (sorted members).Pairwise fun x y => x.toNat + step.toNat ≤ y.toNat := by
  have hperm : (sorted members).Perm members := List.mergeSort_perm _ _
  have hlt : (sorted members).Pairwise fun x y => x.toNat < y.toNat := by
    refine (Classifier.pairwise_sorted members).imp₂ ?_ (hperm.nodup_iff.mpr h.nodup)
    intro x y hle hne
    refine Nat.lt_of_le_of_ne (UInt64.le_iff_toNat_le.mp hle) fun heq => hne ?_
    exact UInt64.toNat_inj.mp heq
  refine hlt.imp_of_mem ?_
  intro x y hx hy hxy
  have hres := h.residue y (mem_sorted.mp hy) x (mem_sorted.mp hx)
  obtain ⟨q, hq⟩ := Nat.dvd_of_mod_eq_zero (Nat.sub_mod_eq_zero_of_mod_eq hres)
  have hstep : step.toNat ≤ y.toNat - x.toNat :=
    Nat.le_of_dvd (Nat.sub_pos_of_lt hxy) ⟨q, hq⟩
  omega

theorem maximalRun_congr {p q : Nat → Prop} (h : ∀ n, p n ↔ q n) (step length start : Nat) :
    MaximalRun p step length start ↔ MaximalRun q step length start := by
  have heq : p = q := funext fun n => propext (h n)
  rw [heq]

/-- How many maximal runs of a length the groups have. -/
def groupRuns (groups : List Group) (step length : Nat) : Nat :=
  (groups.map fun g => g.members.countP fun a =>
    MaximalRun (Occupied g.members) step length a.toNat).sum

/-- The lengths of all groups: each occurs as often as a maximal run of this length starts at a
    member of a group. -/
theorem exists_allRuns (hstep : 0 < step.toNat) {groups : List Group}
    (h : ∀ g ∈ groups, Spaced step g.members) :
    ∃ lengths, allRuns step (groups.map sortGroup) = .ok lengths
      ∧ ∀ length, lengths.count length = groupRuns groups step.toNat length := by
  induction groups with
  | nil => exact ⟨[], rfl, fun length => rfl⟩
  | cons g rest ih =>
      rw [List.forall_mem_cons] at h
      obtain ⟨more, hmore, hcount⟩ := ih h.2
      have hperm : (sorted g.members).Perm g.members := List.mergeSort_perm _ _
      obtain ⟨lengths, hruns, hlengths⟩ := exists_runs hstep h.1.pairwise_sorted
        fun x hx => h.1.room x (mem_sorted.mp hx)
      have hgroup : runs step (sortGroup g).members = .ok lengths := hruns
      refine ⟨lengths ++ more, ?_, fun length => ?_⟩
      · rw [List.map_cons, allRuns, hgroup, hmore]
      · have hocc : ∀ n, Occupied (sorted g.members) n ↔ Occupied g.members n := by
          intro n
          simp only [Occupied, mem_sorted]
        rw [List.count_append, hlengths, hcount, groupRuns, groupRuns, List.map_cons,
          List.sum_cons, hperm.countP_eq]
        simp only [maximalRun_congr hocc]

section Holding

variable {σ β : Type} [DecidableEq β] {bank : Address → β} {c : Classifier σ} {addrs : List Address}
  {groups : List Group}

/-- The address `n` is among the given ones and lies in the bank. -/
def InBank (bank : Address → β) (addrs : List Address) (k : β) (n : Nat) : Prop :=
  ∃ x ∈ addrs, x.toNat = n ∧ bank x = k

instance (bank : Address → β) (addrs : List Address) (k : β) :
    DecidablePred (InBank bank addrs k) :=
  fun n => inferInstanceAs (Decidable (∃ x ∈ addrs, x.toNat = n ∧ bank x = k))

/-- How many maximal runs of a length the given addresses have in their banks. -/
def bankRuns (bank : Address → β) (addrs : List Address) (step length : Nat) : Nat :=
  addrs.countP fun a => MaximalRun (InBank bank addrs (bank a)) step length a.toNat

/-- The lengths of groups that hold the given addresses are those of their runs in banks. -/
theorem Holds.exists_allRuns (hstep : 0 < step.toNat) (h : Holds bank addrs groups)
    (hspaced : Spaced step addrs) :
    ∃ lengths, allRuns step (groups.map sortGroup) = .ok lengths
      ∧ ∀ length, lengths.count length = bankRuns bank addrs step.toNat length := by
  have hgroups : ∀ g ∈ groups, Spaced step g.members := by
    intro g hg
    have hsub : ∀ a ∈ g.members, a ∈ addrs :=
      fun a ha => h.perm.mem_iff.mp (mem_allMembers.mpr ⟨g, hg, ha⟩)
    refine ⟨?_, fun a ha x hx => hspaced.residue a (hsub a ha) x (hsub x hx),
      fun a ha => hspaced.room a (hsub a ha)⟩
    have hnodup : (allMembers groups).Nodup := h.perm.nodup_iff.mpr hspaced.nodup
    exact (List.nodup_flatMap.mp hnodup).1 g hg
  obtain ⟨lengths, hruns, hcount⟩ := Classifier.exists_allRuns hstep hgroups
  refine ⟨lengths, hruns, fun length => ?_⟩
  have hone : ∀ g ∈ groups,
      (g.members.countP fun a => MaximalRun (Occupied g.members) step.toNat length a.toNat)
        = g.members.countP fun a =>
            MaximalRun (InBank bank addrs (bank a)) step.toNat length a.toNat := by
    intro g hg
    refine List.countP_congr ?_
    intro a ha
    have hocc : ∀ n, Occupied g.members n ↔ InBank bank addrs (bank a) n := by
      intro n
      simp only [Occupied, InBank, h.mem_members_iff hg ha]
      constructor
      · rintro ⟨x, ⟨hx, hbank⟩, hn⟩
        exact ⟨x, hx, hn, hbank.symm⟩
      · rintro ⟨x, hx, hn, hbank⟩
        exact ⟨x, ⟨hx, hbank.symm⟩, hn⟩
    rw [decide_eq_true_eq, decide_eq_true_eq, maximalRun_congr hocc]
  rw [hcount, groupRuns, List.map_congr_left hone]
  exact List.countP_flatMap.symm.trans (h.perm.countP_eq _)

end Holding

end DramBanks.Classifier
