import DramBanks.Classifier.Operation
import DramBanks.Proofs.Classifier.NoiseFree
import Mathlib.Data.Fintype.Basic
import Mathlib.Data.List.FinRange
import Mathlib.Data.List.Zip
/-!
# Noise in a minority

    The score of a group is the lower median of latencies, and this is a
    vote: it reaches a threshold exactly when more than half of the
    latencies do (`exists_median_majority`).

    So a group may hold BAD members: some of another bank than the group's,
    and some whose timings against a candidate cannot be relied on, however
    they come about.  As long as they are less than half of every sample,
    they are outvoted, whichever members are sampled
    (`Outvoted.score_iff`).  The candidate then finds the group of its bank,
    or none if its bank has none.

    A candidate that joins its group only adds to the majority there, if it
    can be relied on as a member.  So candidates of a sequence may be judged
    by the groups from before the first of them (`performAll_outvoted`). -/

namespace DramBanks

variable {σ β : Type}

namespace Group

variable {b : Bench σ}

/-- A score reaches a threshold exactly when more than half of the latencies of the sample do. -/
theorem threshold_le_score_iff (g : Group) (addr : Address) (s : σ) {threshold : Latency}
    (hthreshold : 1 ≤ threshold) :
    threshold ≤ (g.score b addr s).1 ↔
      (g.sampled b s).1.length <
        2 * (timings b addr (g.sampled b s).1 (g.sampled b s).2).1.countP (threshold ≤ ·) := by
  show threshold ≤ (median (timings b addr (g.sampled b s).1 (g.sampled b s).2).1).getD 0 ↔ _
  by_cases hnone : (timings b addr (g.sampled b s).1 (g.sampled b s).2).1 = []
  · -- nothing was timed, and 0 reaches no threshold
    rw [hnone, median_nil, List.countP_nil]
    refine iff_of_false ?_ (Nat.not_lt_zero _)
    exact fun hle => absurd (UInt64.le_trans hthreshold hle) (by decide)
  · obtain ⟨t, ht, hvote⟩ := exists_median_majority hnone
    rw [ht, Option.getD_some, hvote, length_timings]

/-! ## Samples -/

/-- A sample has no more members of a kind than the group. -/
theorem countP_sampled_le (g : Group) (s : σ) (p : Address → Bool) :
    (g.sampled b s).1.countP p ≤ g.members.countP p := by
  obtain ⟨sample, hsample⟩ : ∃ sample : Sample g.store.size b.settings.sampleSize.toNat,
      (g.sampled b s).1 = sample.indices.map fun i => g.store[i] := ⟨_, rfl⟩
  have hmembers : g.members = (List.finRange g.store.size).map fun i => g.store[i] := by
    refine List.ext_getElem ?_ ?_
    · rw [List.length_map, List.length_finRange]
      rfl
    · intro i hi hi'
      simp [members]
  have hsub : sample.indices.Subperm (List.finRange g.store.size) :=
    List.subperm_of_subset sample.nodup fun i _ => List.mem_finRange i
  rw [hsample, hmembers, List.countP_map, List.countP_map]
  exact hsub.countP_le _

end Group

/-! ## Bad members -/

/-- Timings tell whether two addresses share a bank, for the pairs that can be relied on. -/
structure Bench.ReliableOn (b : Bench σ) (bank : Address → β)
    (reliable : Address → Address → Bool) : Prop where
  threshold_pos : 1 ≤ b.threshold
  measure_iff : ∀ member candidate s, reliable member candidate = true →
    (b.threshold
        ≤ (b.probe.measure ⟨member, candidate, b.settings.rounds, b.settings.fenced⟩ s).1
      ↔ bank member = bank candidate)

variable [DecidableEq β] {b : Bench σ} {bank : Address → β} {reliable : Address → Address → Bool}

/-- Whether a member of a group that stands for the bank `k` may mislead a candidate. -/
def isBad (bank : Address → β) (reliable : Address → Address → Bool) (k : β)
    (candidate member : Address) : Bool :=
  !decide (bank member = k) || !reliable member candidate

/-- The bad members of a group that stands for the bank `k` are less than half of every sample. -/
def Group.Outvotes (b : Bench σ) (bank : Address → β) (reliable : Address → Address → Bool)
    (candidate : Address) (k : β) (g : Group) : Prop :=
  2 * g.members.countP (isBad bank reliable k candidate)
    < min b.settings.sampleSize.toNat g.members.length

instance (candidate : Address) (k : β) (g : Group) :
    Decidable (g.Outvotes b bank reliable candidate k) :=
  inferInstanceAs (Decidable (_ < _))

namespace Group

variable {candidate : Address} {k : β} {g : Group}

/-- Only bad members vote against what the bank of the group says. -/
theorem countP_timings_le (hb : b.ReliableOn bank reliable) (candidate : Address) (k : β)
    (members : List Address) (s : σ) :
    (timings b candidate members s).1.countP
        (fun t => decide (b.threshold ≤ t) != decide (k = bank candidate))
      ≤ members.countP (isBad bank reliable k candidate) := by
  induction members generalizing s with
  | nil => exact Nat.le_refl 0
  | cons member rest ih =>
      rw [timings, List.countP_cons, List.countP_cons]
      refine Nat.add_le_add (ih _) ?_
      by_cases hbad : isBad bank reliable k candidate member = true
      · rw [if_pos hbad]
        split
        · exact Nat.le_refl 1
        · exact Nat.zero_le 1
      · simp only [isBad, Bool.or_eq_true, Bool.not_eq_true', decide_eq_false_iff_not, not_or,
          Decidable.not_not, Bool.not_eq_false] at hbad
        obtain ⟨rfl, hreliable⟩ := hbad
        have hvote := hb.measure_iff member candidate s hreliable
        rw [if_neg (by simp [hvote])]
        exact Nat.zero_le _

/-- **VOTE**: outvoted bad members do not matter, whoever is sampled. -/
theorem Outvotes.score_iff (hb : b.ReliableOn bank reliable)
    (h : g.Outvotes b bank reliable candidate k) (s : σ) :
    b.threshold ≤ (g.score b candidate s).1 ↔ k = bank candidate := by
  have hwrong := (countP_timings_le hb candidate k (g.sampled b s).1 (g.sampled b s).2).trans
    (countP_sampled_le g s _)
  have hlength := length_timings b candidate (g.sampled b s).1 (g.sampled b s).2
  have hsize := length_sampled b g s
  rw [Outvotes] at h
  rw [threshold_le_score_iff g candidate s hb.threshold_pos]
  by_cases hbank : k = bank candidate
  · -- who does not reach the threshold votes against the bank
    have hsplit := List.length_eq_countP_add_countP
      (l := (timings b candidate (g.sampled b s).1 (g.sampled b s).2).1) (b.threshold ≤ ·)
    simp only [hbank, decide_true, Bool.bne_true, ← decide_not] at hwrong
    simp only [decide_eq_true_eq] at hsplit
    refine iff_of_true ?_ hbank
    rw [← hbank] at hwrong
    omega
  · simp only [hbank, decide_false, Bool.bne_false] at hwrong
    refine iff_of_false ?_ hbank
    omega

/-- One more member that is not bad helps to outvote the others. -/
theorem Outvotes.push {x : Address} (h : g.Outvotes b bank reliable candidate k)
    (hbank : bank x = k) (hreliable : reliable x candidate = true) :
    (g.push x).Outvotes b bank reliable candidate k := by
  have hgood : isBad bank reliable k candidate x = false := by
    rw [isBad, hreliable, decide_eq_true hbank]
    rfl
  rw [Outvotes] at h ⊢
  rw [members_push, List.countP_append, List.countP_singleton, hgood, List.length_append,
    List.length_singleton]
  simp only [Bool.false_eq_true, if_false]
  omega

/-- The group that stands for the bank `k`, with an address if it is of this bank. -/
def joined (bank : Address → β) (x : Address) (k : β) (g : Group) : Group :=
  if bank x = k then g.push x else g

theorem members_joined (x : Address) (rest : List Address) :
    (g.joined bank x k).members ++ rest.filter (fun x => bank x = k)
      = g.members ++ (x :: rest).filter fun x => bank x = k := by
  rw [joined, List.filter_cons]
  by_cases hbank : bank x = k
  · rw [if_pos hbank, if_pos (decide_eq_true hbank), members_push, List.append_assoc]
    rfl
  · rw [if_neg hbank, if_neg fun h => hbank (of_decide_eq_true h)]

theorem Outvotes.joined {x : Address} (h : g.Outvotes b bank reliable candidate k)
    (hreliable : bank x = k → reliable x candidate = true) :
    (g.joined bank x k).Outvotes b bank reliable candidate k := by
  rw [Group.joined]
  split
  · next hbank => exact h.push hbank (hreliable hbank)
  · exact h

end Group

namespace Classifier

/-! ## Finding a group -/

/-- In every group, the bad members for a candidate are less than half of every sample. -/
def Outvoted (b : Bench σ) (bank : Address → β) (reliable : Address → Address → Bool)
    (banks : List β) (groups : List Group) (candidate : Address) : Prop :=
  List.Forall₂ (Group.Outvotes b bank reliable candidate) banks groups

instance (banks : List β) (groups : List Group) (candidate : Address) :
    Decidable (Outvoted b bank reliable banks groups candidate) :=
  inferInstanceAs (Decidable (List.Forall₂ _ banks groups))

variable {c : Classifier σ} {banks : List β} {groups : List Group} {x : Address}

theorem Outvoted.score_iff (hb : b.ReliableOn bank reliable)
    (h : Outvoted b bank reliable banks groups x) {i : Nat} {g : Group}
    (hget : groups[i]? = some g) (s : σ) :
    b.threshold ≤ (g.score b x s).1 ↔ banks[i]? = some (bank x) := by
  induction h generalizing i with
  | nil => cases hget
  | cons hg hrest ih =>
      cases i with
      | zero =>
          obtain rfl := Option.some.inj hget
          rw [hg.score_iff hb s, List.getElem?_cons_zero, Option.some_inj]
      | succ i => exact ih hget

/-- A group that stands for the bank of the candidate is found, and no other. -/
theorem Outvoted.bankIndexFor_iff (hb : b.ReliableOn bank reliable) (hbanks : banks.Nodup)
    (h : Outvoted b bank reliable banks c.groups x) (i : Nat) :
    (c.bankIndexFor b x).1 = some i ↔ banks[i]? = some (bank x) := by
  show (search b x c.groups (attempts b) c.probe).1 = some i ↔ _
  have hfound : ∀ j, (search b x c.groups (attempts b) c.probe).1 = some j →
      banks[j]? = some (bank x) := by
    intro j hj
    obtain ⟨g, s, hget, hscore⟩ := search_some hj
    exact (h.score_iff hb hget s).mp hscore
  refine ⟨hfound i, fun hi => ?_⟩
  have hlt := (List.getElem?_eq_some_iff.mp hi).1
  cases hsearch : (search b x c.groups (attempts b) c.probe).1 with
  | none =>
      rw [h.length_eq] at hlt
      obtain ⟨s, hmiss⟩ := search_none hsearch _ (List.getElem_mem hlt)
      exact absurd ((h.score_iff hb (List.getElem?_eq_getElem hlt) s).mpr hi) hmiss
  | some j =>
      have hsame := hi.trans (hfound j hsearch).symm
      rw [(List.getElem?_inj hlt hbanks).mp hsame]

/-! ## Candidates in turn -/

/-- The group that is found gets the address, and the others stay as they are. -/
theorem getElem?_classify (b : Bench σ) (c : Classifier σ) (x : Address) (j : Nat) :
    (c.classify b false x).2.groups[j]?
      = c.groups[j]?.map fun g => if (c.bankIndexFor b x).1 = some j then g.push x else g := by
  rw [classify]
  split
  · next i c' hfound =>
      have hgroups : c'.groups = c.groups := congrArg (fun r => r.2.groups) hfound.symm
      rw [hfound, List.getElem?_modify, hgroups]
      simp only [Option.some_inj]
      by_cases hij : i = j
      · simp [hij]
      · simp [hij]
  · next c' hnone =>
      have hgroups : c'.groups = c.groups := congrArg (fun r => r.2.groups) hnone.symm
      rw [hnone]
      simp [hgroups]

theorem fst_classify (b : Bench σ) (allowNew : Bool) (c : Classifier σ) (x : Address) :
    (c.classify b allowNew x).1 = (c.bankIndexFor b x).1.isSome := by
  rw [classify]
  split
  · next hfound => rw [hfound]; rfl
  · next hnone => rw [hnone]; rfl

/-- **STEP**: a candidate joins the group of its bank, or is reported to match none. -/
theorem Outvoted.classify_eq (hb : b.ReliableOn bank reliable) (hbanks : banks.Nodup)
    (h : Outvoted b bank reliable banks c.groups x) :
    (c.classify b false x).1 = decide (bank x ∈ banks)
      ∧ (c.classify b false x).2.groups
        = List.zipWith (fun k g => g.joined bank x k) banks c.groups := by
  have hfound := h.bankIndexFor_iff hb hbanks
  constructor
  · rw [fst_classify, Bool.eq_iff_iff, Option.isSome_iff_exists, decide_eq_true_iff,
      List.mem_iff_getElem?]
    exact exists_congr hfound
  · refine List.ext_getElem? fun j => ?_
    rw [getElem?_classify, List.getElem?_zipWith]
    cases hbank : banks[j]? with
    | none =>
        have hnone : c.groups[j]? = none := by
          rw [List.getElem?_eq_none_iff, ← h.length_eq, ← List.getElem?_eq_none_iff]
          exact hbank
        rw [hnone]
        rfl
    | some k =>
        have hiff : (c.bankIndexFor b x).1 = some j ↔ bank x = k := by
          rw [hfound j, hbank, Option.some_inj, eq_comm]
        cases c.groups[j]? with
        | none => rfl
        | some g =>
            show some (if (c.bankIndexFor b x).1 = some j then g.push x else g) = _
            rw [if_congr hiff rfl rfl]
            rfl

/-- The candidates to come stay as well off when one joins the group of its bank. -/
theorem Outvoted.joined {y : Address} (h : Outvoted b bank reliable banks groups y)
    (hreliable : bank x ∈ banks → reliable x y = true) :
    Outvoted b bank reliable banks
      (List.zipWith (fun k g => g.joined bank x k) banks groups) y := by
  induction h with
  | nil => exact List.Forall₂.nil
  | @cons k g banks groups hg hrest ih =>
      refine List.Forall₂.cons (hg.joined fun hbank => ?_) (ih fun hmem => ?_)
      · exact hreliable (hbank ▸ List.mem_cons_self ..)
      · exact hreliable (List.mem_cons_of_mem k hmem)

theorem zipWith_zipWith_self {α γ δ ε : Type} (f : α → δ → ε) (g : α → γ → δ) (xs : List α)
    (ys : List γ) :
    List.zipWith f xs (List.zipWith g xs ys) = List.zipWith (fun x y => f x (g x y)) xs ys := by
  induction xs generalizing ys with
  | nil => rfl
  | cons x xs ih =>
      cases ys with
      | nil => rfl
      | cons y ys => exact congrArg (f x (g x y) :: ·) (ih ys)

/-- **RUN**: candidates in turn join the groups of their banks, in their order. -/
theorem performAll_outvoted (hb : b.ReliableOn bank reliable) (hbanks : banks.Nodup)
    (hlen : banks.length = c.groups.length) {xs : List Address}
    (h : ∀ x ∈ xs, Outvoted b bank reliable banks c.groups x)
    (hreliable : xs.Pairwise fun x y => bank x ∈ banks → reliable x y = true) :
    ∃ c', performAll b (xs.map fun x => .classify x false) c
        = .ok (xs.map fun x => .found (decide (bank x ∈ banks)), c')
      ∧ c'.groups.map Group.members
        = List.zipWith (fun k g => g.members ++ xs.filter fun x => bank x = k) banks c.groups := by
  induction xs generalizing c with
  | nil =>
      refine ⟨c, rfl, List.ext_getElem ?_ fun j hj hj' => ?_⟩
      · rw [List.length_map, List.length_zipWith, hlen, Nat.min_self]
      · rw [List.getElem_map, List.getElem_zipWith, List.filter_nil, List.append_nil]
  | cons x rest ih =>
      obtain ⟨hx, hrest⟩ := List.forall_mem_cons.mp h
      obtain ⟨hxrest, hpairs⟩ := List.pairwise_cons.mp hreliable
      obtain ⟨hfound, hgroups⟩ := hx.classify_eq hb hbanks
      have hlen' : banks.length = (c.classify b false x).2.groups.length := by
        rw [hgroups, List.length_zipWith, hlen, Nat.min_self]
      obtain ⟨c', hrun, hmembers⟩ := ih hlen'
        (fun y hy => hgroups ▸ (hrest y hy).joined (hxrest y hy)) hpairs
      refine ⟨c', ?_, ?_⟩
      · rw [List.map_cons, performAll, perform]
        simp only [hrun, hfound]
        rfl
      · rw [hmembers, hgroups, zipWith_zipWith_self]
        simp only [Group.members_joined]

/-- **MINORITIES**: let every group stand for a bank of its own, and let the timings that can be
    relied on tell whether two addresses share a bank.  A candidate whose bad members are less
    than half of every sample finds the group of its bank, or none if no group stands for it.
    Candidates of which this holds at first, and which can be relied on as members later on,
    are added to the groups of their banks one after another, or are reported to match
    none. -/
theorem noise_is_outvoted (hb : b.ReliableOn bank reliable) (hbanks : banks.Nodup)
    (hlen : banks.length = c.groups.length) :
    (∀ x, Outvoted b bank reliable banks c.groups x →
        ∀ i, (c.bankIndexFor b x).1 = some i ↔ banks[i]? = some (bank x))
      ∧ ∀ xs : List Address, (∀ x ∈ xs, Outvoted b bank reliable banks c.groups x) →
          (xs.Pairwise fun x y => bank x ∈ banks → reliable x y = true) →
          ∃ c', performAll b (xs.map fun x => .classify x false) c
              = .ok (xs.map fun x => .found (decide (bank x ∈ banks)), c')
            ∧ c'.groups.map Group.members
              = List.zipWith (fun k g => g.members ++ xs.filter fun x => bank x = k)
                  banks c.groups :=
  ⟨fun _ h => h.bankIndexFor_iff hb hbanks,
    fun _ h hreliable => performAll_outvoted hb hbanks hlen h hreliable⟩

/-- The pages that conflict with everything: one in eight. -/
def flakyPages : Flaky := ⟨0, 4096, 8, 4, 200⟩

/-- A bench of four banks at which some pages conflict with everything. -/
def flakyBench : Bench Nat :=
  ⟨{}, 150, Simulation.probe ⟨.masks [4096, 8192] 200 100, 0, 0, some flakyPages⟩⟩

def areSteady (a x : Address) : Bool := !(flakyPages.holds a || flakyPages.holds x)

theorem reliableOn_flakyBench : flakyBench.ReliableOn (parities [4096, 8192]) areSteady := by
  refine ⟨by decide, fun a x s hsteady => ?_⟩
  have hsize : ({} : Settings).sampleSize ≠ 0 := by decide
  have hsimulated := (Bench.noiseFree_simulated hsize [4096, 8192]).measure_iff ⟨a, x, 200, true⟩ s
  rw [Bench.measure_simulated] at hsimulated
  rw [areSteady, Bool.not_eq_true'] at hsteady
  have hmeasure : (flakyBench.probe.measure
      ⟨a, x, flakyBench.settings.rounds, flakyBench.settings.fenced⟩ s).1
        = if [4096, 8192].all fun m => Bits.parity (a &&& m) == Bits.parity (x &&& m)
          then 200 else 100 := by
    simp only [flakyBench, Simulation.probe, Simulation.latency, LatencyRule.latency, hsteady,
      Bool.false_eq_true, if_false, UInt64.zero_mul, ite_self, UInt64.add_zero]
  rw [hmeasure]
  exact hsimulated

/-- Groups of three pages for two of the banks: one with a flaky page, one with a page of another
    bank. -/
def flakyGroups : Classifier Nat :=
  ⟨[.ofMembers [0, 16384, 32768] 4096, .ofMembers [4096, 8192, 20480] 4096], 4096, 0, []⟩

theorem outvoted_flakyGroups : ∀ x ∈ [65536, 69632, 73728, 98304],
    Outvoted flakyBench (parities [4096, 8192]) areSteady [[0, 0], [1, 0]] flakyGroups.groups x := by
  simp only [List.forall_mem_cons, List.not_mem_nil, false_implies, implies_true, and_true]
  exact ⟨by decide +kernel, by decide +kernel, by decide +kernel, by decide +kernel⟩

theorem noise_is_outvoted_flaky :
    flakyBench.ReliableOn (parities [4096, 8192]) areSteady
      ∧ (∀ i, (flakyGroups.bankIndexFor flakyBench 73728).1 = some i ↔
        [[0, 0], [1, 0]][i]? = some (parities [4096, 8192] 73728))
      ∧ ∃ c', performAll flakyBench
            ([65536, 69632, 73728, 98304].map fun x => .classify x false) flakyGroups
          = .ok ([.found true, .found true, .found false, .found true], c')
        ∧ c'.groups.map Group.members
          = [[0, 16384, 32768, 65536, 98304], [4096, 8192, 20480, 69632]] := by
  have hall := noise_is_outvoted (c := flakyGroups) reliableOn_flakyBench
    (show [[0, 0], [1, 0]].Nodup by decide) rfl
  refine ⟨reliableOn_flakyBench, hall.1 73728 (outvoted_flakyGroups 73728 (by simp)), ?_⟩
  exact hall.2 [65536, 69632, 73728, 98304] outvoted_flakyGroups (by decide +kernel)

end Classifier

end DramBanks
