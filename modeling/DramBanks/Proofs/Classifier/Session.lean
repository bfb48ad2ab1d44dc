import DramBanks.Classifier.Operation
import DramBanks.Proofs.Classifier.Repair
import DramBanks.Proofs.Classifier.Switching
import DramBanks.Proofs.Settings
/-!
# Sessions without noise

    A session starts with no groups and carries out operations until one of
    them ends in a fault.  Without noise, the groups are a partition by bank
    in every state of a session: each operation keeps one
    (`PartitionByBank.perform`), and a regrouping even builds one from any
    groups.

    In such a state, an address finds a group exactly when its bank has one,
    so what a huge block reports are the addresses of unknown banks
    (`classifyAll_misses`). -/

namespace DramBanks

/-- Valid settings sample at least one member. -/
theorem Settings.sampleSize_ne_zero {s : Settings} (h : s.firstViolation = .ok none) :
    s.sampleSize ≠ 0 := (Settings.firstViolation_eq_none_iff.mp h).sampleSize_ne_zero

namespace Classifier

variable {σ β : Type} {b : Bench σ} {bank : Address → β} {c c' : Classifier σ}

/-! ## Steps and runs -/

/-- A reply with a block size comes from one, and from the classifier behind it. -/
theorem exists_of_sizeReply {r : Except Fault (UInt64 × Classifier σ)} {answer : Answer}
    (hrun : sizeReply r = .ok (answer, c')) : ∃ size, answer = .size size ∧ r = .ok (size, c') := by
  obtain ⟨⟨size, c₁⟩, hr, heq⟩ := exists_of_map_eq_ok hrun
  cases heq
  exact ⟨size, rfl, hr⟩

/-- What every operation of a session keeps, the session keeps. -/
theorem performAll_keeps_of_mem {P : Classifier σ → Prop} {ops : List Operation}
    (hstep : ∀ op ∈ ops, ∀ {c c' answer}, perform b c op = .ok (answer, c') → P c → P c')
    {answers : List Answer} (hrun : performAll b ops c = .ok (answers, c')) (h : P c) : P c' := by
  induction ops generalizing c answers with
  | nil =>
      cases hrun
      exact h
  | cons op rest ih =>
      rw [List.forall_mem_cons] at hstep
      rw [performAll] at hrun
      split at hrun
      · cases hrun
      · next answer c₁ hop =>
          obtain ⟨⟨more, c₂⟩, hrest, heq⟩ := exists_of_map_eq_ok hrun
          cases heq
          exact ih hstep.2 hrest (hstep.1 hop h)

/-- What every operation keeps, every session keeps. -/
theorem performAll_keeps {P : Classifier σ → Prop}
    (hstep : ∀ {c c' op answer}, perform b c op = .ok (answer, c') → P c → P c')
    {ops : List Operation} {answers : List Answer}
    (hrun : performAll b ops c = .ok (answers, c')) (h : P c) : P c' :=
  performAll_keeps_of_mem (fun _ _ => hstep) hrun h

namespace PartitionByBank

/-- Each round builds a partition, whatever it starts from. -/
theorem regroupRounds (hb : b.NoiseFree bank) (left done : Nat)
    (h : PartitionByBank bank c.groups) :
    PartitionByBank bank (Classifier.regroupRounds b left done c).2.groups :=
  regroupRounds_keeps (P := fun c => PartitionByBank bank c.groups)
    (fun c _ => partition_regroup hb c) left done h

theorem addRegion (hb : b.NoiseFree bank) {allowNew : Bool} {base : Address} {n : Nat}
    (hrun : c.addRegion b allowNew base = .ok (n, c')) (h : PartitionByBank bank c.groups) :
    PartitionByBank bank c'.groups := by
  obtain ⟨addrs, -, heq⟩ := exists_of_map_eq_ok hrun
  have hall := (PartitionByBank.classifyAll hb (n := 0) (Nat.zero_le _) h allowNew addrs 0).1
  rw [heq] at hall
  exact hall

theorem sizeReply {r : Except Fault (UInt64 × Classifier σ)} {answer : Answer}
    (hrun : Classifier.sizeReply r = .ok (answer, c'))
    (h : ∀ size, r = .ok (size, c') → PartitionByBank bank c'.groups) :
    PartitionByBank bank c'.groups := by
  obtain ⟨size, -, hr⟩ := exists_of_sizeReply hrun
  exact h size hr

/-- **STEP**: every operation keeps a partition by bank. -/
theorem perform (hb : b.NoiseFree bank) {op : Operation} {answer : Answer}
    (hrun : Classifier.perform b c op = .ok (answer, c')) (h : PartitionByBank bank c.groups) :
    PartitionByBank bank c'.groups := by
  cases op with
  | classify addr allowNew =>
      cases hrun
      exact PartitionByBank.classify hb (n := 0) (Nat.zero_le _) h allowNew addr
  | bankIndexFor addr =>
      cases hrun
      exact h
  | addRegion base allowNew =>
      obtain ⟨⟨n, c₁⟩, hadd, heq⟩ := exists_of_map_eq_ok hrun
      cases heq
      exact h.addRegion hb hadd
  | regroup =>
      cases hrun
      exact partition_regroup hb c
  | regroupUntilPlausible maxRounds =>
      cases hrun
      exact h.regroupRounds hb maxRounds 0
  | guessBlockSize => exact sizeReply hrun fun _ hguess => h.guessBlockSize hguess
  | detectBlockSize =>
      refine sizeReply hrun fun _ hdetect => ?_
      exact detectBlockSize_keeps (P := fun c => PartitionByBank bank c.groups)
        (fun hs h => h.setBlockSize hb hs) (fun hg h => h.guessBlockSize hg) (fun w h => h.warn w)
        hdetect h
  | setBlockSizeInSteps size =>
      refine sizeReply hrun fun _ hsteps => ?_
      exact setBlockSizeInSteps_keeps (P := fun c => PartitionByBank bank c.groups)
        (fun hs h => h.setBlockSize hb hs) (fun hg h => h.guessBlockSize hg) (fun w h => h.warn w)
        hsteps h
  | setBlockSize size =>
      obtain ⟨c₁, hset, heq⟩ := exists_of_map_eq_ok hrun
      cases heq
      exact h.setBlockSize hb hset
  | score index addr =>
      rw [Classifier.perform, scoreAt] at hrun
      split at hrun
      · cases hrun
      · cases hrun
        exact h

end PartitionByBank

/-! ## Misses -/

/-- The classifier before the address at position `i` of a list is classified. -/
def before (b : Bench σ) (allowNew : Bool) (c : Classifier σ) (addrs : List Address) (i : Nat) :
    Classifier σ :=
  (classifyAll b allowNew (addrs.take i) 0 c).2

/-- Some group holds an address of the given bank. -/
def Known (bank : Address → β) (groups : List Group) (x : β) : Prop :=
  ∃ g ∈ groups, ∃ a ∈ g.members, bank a = x

instance [DecidableEq β] (groups : List Group) (x : β) : Decidable (Known bank groups x) :=
  inferInstanceAs (Decidable (∃ g ∈ groups, ∃ a ∈ g.members, bank a = x))

/-- The misses counted so far have no influence on the groups. -/
theorem snd_classifyAll (allowNew : Bool) (addrs : List Address) (m n : Nat) :
    (classifyAll b allowNew addrs m c).2 = (classifyAll b allowNew addrs n c).2 := by
  induction addrs generalizing m n c with
  | nil => rfl
  | cons addr rest ih => exact ih _ _

theorem before_succ (allowNew : Bool) (addr : Address) (rest : List Address) (i : Nat) :
    before b allowNew c (addr :: rest) (i + 1)
      = before b allowNew (c.classify b allowNew addr).2 rest i :=
  snd_classifyAll allowNew (rest.take i) _ _

theorem countP_finRange_succ {n : Nat} (p : Fin (n + 1) → Bool) :
    (List.finRange (n + 1)).countP p
      = ((List.finRange n).countP fun i => p i.succ) + if p 0 then 1 else 0 := by
  rw [List.finRange_succ, List.countP_cons, List.countP_map]
  rfl

/-- **MISSES**: an address is missed exactly when its bank is not known at that moment. -/
theorem classifyAll_misses [DecidableEq β] (hb : b.NoiseFree bank)
    (h : PartitionByBank bank c.groups) (allowNew : Bool) (addrs : List Address) (misses : Nat) :
    (classifyAll b allowNew addrs misses c).1 = misses
      + (List.finRange addrs.length).countP fun i : Fin addrs.length =>
          ¬ Known bank (before b allowNew c addrs i).groups (bank addrs[i]) := by
  induction addrs generalizing misses c with
  | nil => rfl
  | cons addr rest ih =>
      have hnext := PartitionByBank.classify hb (n := 0) (Nat.zero_le _) h allowNew addr
      have hfound : (c.classify b allowNew addr).1 = true ↔ Known bank c.groups (bank addr) :=
        found_iff hb h allowNew addr
      -- the first address is classified now, the others after it
      have hsplit := countP_finRange_succ fun i : Fin (rest.length + 1) =>
        decide ¬ Known bank (before b allowNew c (addr :: rest) i).groups (bank (addr :: rest)[i])
      have htail : ∀ i : Fin rest.length, before b allowNew c (addr :: rest) i.succ
          = before b allowNew (c.classify b allowNew addr).2 rest i :=
        fun i => before_succ allowNew addr rest i
      simp only [htail] at hsplit
      rw [classifyAll, ih hnext]
      refine Eq.trans ?_ (congrArg (misses + ·) hsplit.symm)
      show (if (c.classify b allowNew addr).1 = true then misses else misses + 1) + _ =
        misses + (_ + if decide (¬ Known bank c.groups (bank addr)) = true then 1 else 0)
      by_cases hknown : Known bank c.groups (bank addr)
      · rw [if_pos (hfound.mpr hknown), if_neg (by simpa using hknown), Nat.add_zero]
        rfl
      · rw [if_neg (fun h => hknown (hfound.mp h)), if_pos (decide_eq_true hknown),
          Nat.add_right_comm, Nat.add_assoc]
        rfl

/-- **SESSIONS**: without noise, the groups are a partition by bank in every state of a session,
    and adding a huge block there counts the addresses whose bank is not known when it is
    their turn. -/
theorem session_partition [DecidableEq β] (hthreshold : 1 ≤ b.threshold)
    (hsettings : b.settings.firstViolation = .ok none)
    (hmeasure : ∀ q s, b.threshold ≤ (b.probe.measure q s).1 ↔ bank q.known = bank q.candidate)
    {ops : List Operation} {answers : List Answer} {s : σ}
    (hrun : performAll b ops (empty b s) = .ok (answers, c)) :
    PartitionByBank bank c.groups
      ∧ ∀ base allowNew n c', c.addRegion b allowNew base = .ok (n, c') →
          ∃ addrs, regionAddresses b.settings base c.blockSize = .ok addrs
            ∧ n = (List.finRange addrs.length).countP fun i : Fin addrs.length =>
                ¬ Known bank (before b allowNew c addrs i).groups (bank addrs[i]) := by
  have hb : b.NoiseFree bank :=
    ⟨hthreshold, Settings.sampleSize_ne_zero hsettings, hmeasure⟩
  have hpart : PartitionByBank bank c.groups :=
    performAll_keeps (P := fun c => PartitionByBank bank c.groups)
      (fun hop h => h.perform hb hop) hrun PartitionByBank.nil
  refine ⟨hpart, ?_⟩
  intro base allowNew n c' hadd
  obtain ⟨addrs, haddrs, heq⟩ := exists_of_map_eq_ok hadd
  refine ⟨addrs, haddrs, ?_⟩
  have hmisses := classifyAll_misses hb hpart allowNew addrs 0
  rw [heq, Nat.zero_add] at hmisses
  exact hmisses

/-- A huge block, an address of its own and two kinds of regrouping. -/
theorem session_partition_of_block :
    ∃ answers c,
      performAll (Bench.simulated {} [8192])
          [.addRegion 0 true, .classify 3 true, .regroup, .regroupUntilPlausible 2]
          (empty (Bench.simulated {} [8192]) 0) = .ok (answers, c)
        ∧ PartitionByBank (parities [8192]) c.groups
        ∧ ∀ base allowNew n c', c.addRegion (Bench.simulated {} [8192]) allowNew base = .ok (n, c') →
            ∃ addrs, regionAddresses {} base c.blockSize = .ok addrs
              ∧ n = (List.finRange addrs.length).countP fun i : Fin addrs.length =>
                  ¬ Known (parities [8192])
                    (before (Bench.simulated {} [8192]) allowNew c addrs i).groups
                    (parities [8192] addrs[i]) := by
  have hregion : regionAddresses (Bench.simulated {} [8192]).settings 0
      (empty (Bench.simulated {} [8192]) 0).blockSize = .ok (progression 0 4096 512) := by
    decide +kernel
  obtain ⟨answers, c, hrun⟩ : ∃ answers c, performAll (Bench.simulated {} [8192])
      [.addRegion 0 true, .classify 3 true, .regroup, .regroupUntilPlausible 2]
      (empty (Bench.simulated {} [8192]) 0) = .ok (answers, c) := by
    simp only [performAll, perform, addRegion, hregion, Except.map]
    exact ⟨_, _, rfl⟩
  exact ⟨answers, c, hrun, session_partition (by decide) Settings.firstViolation_default
    (Bench.noiseFree_simulated (by decide) [8192]).measure_iff hrun⟩

end Classifier

end DramBanks
