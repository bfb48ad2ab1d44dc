import DramBanks.Proofs.Classifier.Holding
import Mathlib.Data.List.Perm.Basic
/-!
# Conservation of addresses

    As long as the block size stays, an address that is to be added ends up
    as a member of exactly one group, or it is left out because it matched
    no group and might not open one.  Nothing else happens to addresses,
    whatever the probe answers: a guess sorts members, and regrouping moves
    them.

    A session is therefore accounted for by the log of its insertions: what
    was left out and the members make up what was to be added
    (`perm_insertionLog`).  The log is the one that the answers tell of,
    as far as they do: they count the addresses that matched no group, and
    where new groups are allowed, as many groups are opened (`Accounted`). -/

namespace DramBanks.Classifier

variable {σ : Type} {b : Bench σ} {c c' : Classifier σ}

/-! ## Insertions -/

/-- What became of an address that was to be added. -/
structure Insertion where
  addr : Address
  /-- Whether the address might open a group. -/
  allowNew : Bool
  /-- Whether a group was there. -/
  found : Bool
deriving DecidableEq, Repr

/-- The address has become a member of no group. -/
def Insertion.isLeftOut (i : Insertion) : Bool := !i.allowNew && !i.found

/-- The addresses that were to be added. -/
def inserted (log : List Insertion) : List Address := log.map Insertion.addr

/-- The addresses that were not added. -/
def leftOut (log : List Insertion) : List Address := inserted (log.filter Insertion.isLeftOut)

/-- The number of addresses for which no group was there. -/
def unmatched (log : List Insertion) : Nat := log.countP fun i => !i.found

/-- What becomes of addresses that are classified in turn. -/
def insertions (b : Bench σ) (allowNew : Bool) : List Address → Classifier σ → List Insertion
  | [], _ => []
  | addr :: rest, c =>
      let (found, c) := c.classify b allowNew addr
      ⟨addr, allowNew, found⟩ :: insertions b allowNew rest c

theorem inserted_append (xs ys : List Insertion) :
    inserted (xs ++ ys) = inserted xs ++ inserted ys := List.map_append

theorem leftOut_append (xs ys : List Insertion) :
    leftOut (xs ++ ys) = leftOut xs ++ leftOut ys := by
  rw [leftOut, List.filter_append, inserted_append]
  rfl

theorem insertions_cons (b : Bench σ) (allowNew : Bool) (addr : Address) (rest : List Address)
    (c : Classifier σ) :
    insertions b allowNew (addr :: rest) c
      = [⟨addr, allowNew, (c.classify b allowNew addr).1⟩]
        ++ insertions b allowNew rest (c.classify b allowNew addr).2 := rfl

theorem inserted_insertions (b : Bench σ) (allowNew : Bool) (addrs : List Address)
    (c : Classifier σ) : inserted (insertions b allowNew addrs c) = addrs := by
  induction addrs generalizing c with
  | nil => rfl
  | cons addr rest ih =>
      rw [insertions_cons, inserted_append, ih]
      rfl

theorem allowNew_of_mem_insertions {allowNew : Bool} {addrs : List Address} {i : Insertion}
    (h : i ∈ insertions b allowNew addrs c) : i.allowNew = allowNew := by
  induction addrs generalizing c with
  | nil => cases h
  | cons addr rest ih =>
      rcases List.mem_cons.mp h with rfl | h
      · rfl
      · exact ih h

/-- The misses that are counted are the insertions without a group. -/
theorem misses_eq_unmatched (b : Bench σ) (allowNew : Bool) (addrs : List Address) (misses : Nat)
    (c : Classifier σ) :
    (classifyAll b allowNew addrs misses c).1
      = misses + unmatched (insertions b allowNew addrs c) := by
  induction addrs generalizing misses c with
  | nil => rfl
  | cons addr rest ih =>
      rw [classifyAll_cons, ih, insertions_cons, unmatched, unmatched, List.countP_append]
      cases (c.classify b allowNew addr).1 with
      | true => exact congrArg (misses + ·) (Nat.zero_add _).symm
      | false => exact Nat.add_assoc misses 1 _

/-! ## What adding does -/

/-- **STEP**: an address becomes a member, unless it is left out. -/
theorem perm_leftOut_classify (b : Bench σ) (allowNew : Bool) (c : Classifier σ)
    (addr : Address) :
    (leftOut [⟨addr, allowNew, (c.classify b allowNew addr).1⟩]
        ++ allMembers (c.classify b allowNew addr).2.groups).Perm
      (addr :: allMembers c.groups) := by
  rcases classify_cases b allowNew c addr with ⟨i, g, s, hget, -, hfound, hgroups⟩ |
    ⟨-, hfound, hgroups⟩
  · have hnone : leftOut [⟨addr, allowNew, true⟩] = [] := by
      cases allowNew <;> rfl
    rw [hfound, hgroups, hnone]
    exact perm_allMembers_modify hget addr
  · rw [hfound, hgroups]
    cases allowNew with
    | false => exact List.Perm.refl _
    | true =>
        rw [if_pos rfl, allMembers, List.flatMap_append]
        exact List.perm_append_singleton addr _

theorem perm_insertions (b : Bench σ) (allowNew : Bool) (addrs : List Address) (misses : Nat)
    (c : Classifier σ) :
    (leftOut (insertions b allowNew addrs c)
        ++ allMembers (classifyAll b allowNew addrs misses c).2.groups).Perm
      (addrs ++ allMembers c.groups) := by
  induction addrs generalizing misses c with
  | nil => exact List.Perm.refl _
  | cons addr rest ih =>
      rw [classifyAll_cons, insertions_cons, leftOut_append, List.append_assoc]
      refine ((ih _ _).append_left _).trans ?_
      -- what the first address leaves out moves past the others
      refine (List.perm_append_comm_assoc _ rest _).trans ?_
      exact ((perm_leftOut_classify b allowNew c addr).append_left rest).trans List.perm_middle

/-- Groups are opened for as many addresses as match none, if this is allowed. -/
theorem bankCount_classifyAll (b : Bench σ) (allowNew : Bool) (addrs : List Address)
    (misses : Nat) (c : Classifier σ) :
    (classifyAll b allowNew addrs misses c).2.bankCount
      = c.bankCount + if allowNew then unmatched (insertions b allowNew addrs c) else 0 := by
  cases allowNew with
  | true =>
      have hopened := misses_classifyAll b addrs misses c
      rw [misses_eq_unmatched, Nat.add_assoc, Nat.add_left_cancel_iff] at hopened
      rw [if_pos rfl, Nat.add_comm]
      exact hopened.symm
  | false =>
      induction addrs generalizing misses c with
      | nil => rfl
      | cons addr rest ih =>
          rw [classifyAll_cons, ih]
          rcases classify_cases b false c addr with ⟨i, g, s, -, -, -, hgroups⟩ | ⟨-, -, hgroups⟩
          · rw [bankCount, hgroups, List.length_modify]
            rfl
          · rw [bankCount, hgroups]
            rfl

/-! ## Rounds -/

theorem perm_guessBlockSize {size : UInt64} (hrun : c.guessBlockSize = .ok (size, c')) :
    (allMembers c'.groups).Perm (allMembers c.groups) := by
  obtain ⟨lengths, -, -, rfl⟩ := guessBlockSize_ok hrun
  exact perm_allMembers_map fun g => List.mergeSort_perm _ _

theorem blockSize_guessBlockSize {size : UInt64} (hrun : c.guessBlockSize = .ok (size, c')) :
    c'.blockSize = c.blockSize := by
  obtain ⟨lengths, -, -, rfl⟩ := guessBlockSize_ok hrun
  rfl

/-! ## Sessions -/

/-- The operation leaves the block size as it is. -/
def Operation.keepsBlockSize : Operation → Bool
  | .detectBlockSize | .setBlockSizeInSteps _ | .setBlockSize _ => false
  | _ => true

/-- Whether new groups are allowed, for an operation that adds addresses. -/
def Operation.allowNew? : Operation → Option Bool
  | .classify _ allowNew | .addRegion _ allowNew => some allowNew
  | _ => none

/-- The addresses that an operation adds, at a block size. -/
def Operation.addresses (s : Settings) (blockSize : UInt64) :
    Operation → Except Fault (List Address)
  | .classify addr _ => .ok [addr]
  | .addRegion base _ => regionAddresses s base blockSize
  | _ => .ok []

/-- How many addresses matched no group, by an answer. -/
def Answer.unmatched : Answer → Nat
  | .found group => if group then 0 else 1
  | .misses count => count
  | _ => 0

/-- The insertions of an operation. -/
def insertionsOf (b : Bench σ) (c : Classifier σ) (op : Operation) : List Insertion :=
  match op.addresses b.settings c.blockSize, op.allowNew? with
  | .ok addrs, some allowNew => insertions b allowNew addrs c
  | _, _ => []

/-- The insertions of operations that are carried out in turn, up to the first fault. -/
def insertionLog (b : Bench σ) : List Operation → Classifier σ → List Insertion
  | [], _ => []
  | op :: rest, c =>
      match c.perform b op with
      | .error _ => []
      | .ok (_, c') => c.insertionsOf b op ++ insertionLog b rest c'

theorem insertionLog_cons {op : Operation} {answer : Answer} (rest : List Operation)
    (hrun : c.perform b op = .ok (answer, c')) :
    insertionLog b (op :: rest) c = c.insertionsOf b op ++ insertionLog b rest c' := by
  rw [insertionLog, hrun]

theorem insertionsOf_eq (op : Operation) {addrs : List Address} {allowNew : Bool}
    (haddrs : op.addresses b.settings c.blockSize = .ok addrs)
    (hallow : op.allowNew? = some allowNew) :
    c.insertionsOf b op = insertions b allowNew addrs c := by
  rw [insertionsOf, haddrs, hallow]

theorem insertionsOf_none {op : Operation} (hallow : op.allowNew? = none) :
    c.insertionsOf b op = [] := by
  rw [insertionsOf, hallow]
  split
  · next heq => cases heq
  · rfl

/-- What an operation answers and does to the number of groups fits to its insertions. -/
structure Accounted (b : Bench σ) (op : Operation) (answer : Answer) (c c' : Classifier σ) :
    Prop where
  addresses : op.addresses b.settings b.settings.initialBlockSize
    = .ok (inserted (c.insertionsOf b op))
  allowNew : ∀ i ∈ c.insertionsOf b op, op.allowNew? = some i.allowNew
  reported : answer.unmatched = unmatched (c.insertionsOf b op)
  opened : ∀ allowNew, op.allowNew? = some allowNew →
    c'.bankCount = c.bankCount + if allowNew then answer.unmatched else 0

theorem Accounted.of_classifyAll {op : Operation} {answer : Answer} (addrs : List Address)
    {allowNew : Bool} (hsize : c.blockSize = b.settings.initialBlockSize)
    (haddrs : op.addresses b.settings c.blockSize = .ok addrs)
    (hallow : op.allowNew? = some allowNew)
    (hanswer : answer.unmatched = (classifyAll b allowNew addrs 0 c).1)
    (hcount : c'.bankCount = (classifyAll b allowNew addrs 0 c).2.bankCount) :
    Accounted b op answer c c' := by
  have hlog := insertionsOf_eq op haddrs hallow
  rw [misses_eq_unmatched, Nat.zero_add] at hanswer
  refine ⟨?_, ?_, ?_, ?_⟩
  · rw [hlog, inserted_insertions, ← hsize]
    exact haddrs
  · intro i hi
    rw [hlog] at hi
    rw [hallow, allowNew_of_mem_insertions hi]
  · rw [hlog]
    exact hanswer
  · intro allow hsome
    obtain rfl : allowNew = allow := Option.some.inj (hallow.symm.trans hsome)
    rw [hcount, bankCount_classifyAll, hanswer]

theorem Accounted.of_none {op : Operation} {answer : Answer} (hallow : op.allowNew? = none)
    (haddrs : op.addresses b.settings b.settings.initialBlockSize = .ok [])
    (hanswer : answer.unmatched = 0) : Accounted b op answer c c' := by
  have hlog : c.insertionsOf b op = [] := insertionsOf_none hallow
  refine ⟨?_, ?_, ?_, ?_⟩
  · rw [hlog]
    exact haddrs
  · rw [hlog]
    exact fun i hi => nomatch hi
  · rw [hlog]
    exact hanswer
  · rw [hallow]
    exact fun _ h => nomatch h

section Steps

variable {op : Operation} {answer : Answer} (hop : op.keepsBlockSize = true)
  (hrun : c.perform b op = .ok (answer, c'))
include hop hrun

/-- An operation classifies addresses in turn, or adds none and at most moves members. -/
theorem perform_cases :
    c'.blockSize = c.blockSize
      ∧ ((∃ addrs allowNew, op.addresses b.settings c.blockSize = .ok addrs
          ∧ op.allowNew? = some allowNew
          ∧ answer.unmatched = (classifyAll b allowNew addrs 0 c).1
          ∧ c'.groups = (classifyAll b allowNew addrs 0 c).2.groups)
        ∨ op.allowNew? = none ∧ (∀ size, op.addresses b.settings size = .ok [])
          ∧ answer.unmatched = 0 ∧ (allMembers c'.groups).Perm (allMembers c.groups)) := by
  cases op with
  | classify addr allowNew =>
      cases hrun
      exact ⟨blockSize_classify b allowNew c addr, .inl ⟨[addr], allowNew, rfl, rfl, rfl, rfl⟩⟩
  | addRegion base allowNew =>
      obtain ⟨⟨n, c₁⟩, hadd, heq⟩ := exists_of_map_eq_ok hrun
      cases heq
      obtain ⟨addrs, haddrs, heq⟩ := exists_of_map_eq_ok hadd
      have hsize := blockSize_classifyAll b allowNew addrs 0 c
      rw [heq] at hsize
      refine ⟨hsize, .inl ⟨addrs, allowNew, haddrs, rfl, ?_, ?_⟩⟩
      all_goals rw [heq]
      rfl
  | bankIndexFor addr =>
      cases hrun
      exact ⟨rfl, .inr ⟨rfl, fun _ => rfl, rfl, List.Perm.refl _⟩⟩
  | regroup =>
      cases hrun
      exact ⟨blockSize_regroup b c, .inr ⟨rfl, fun _ => rfl, rfl, perm_regroup b c⟩⟩
  | regroupUntilPlausible maxRounds =>
      cases hrun
      refine ⟨blockSize_regroupRounds b maxRounds 0 c, .inr ⟨rfl, fun _ => rfl, rfl, ?_⟩⟩
      obtain ⟨n, -, -, hrounds⟩ := exists_rounds b maxRounds 0 c
      show (allMembers (regroupRounds b maxRounds 0 c).2.groups).Perm _
      rw [hrounds]
      exact perm_iterate b n c
  | guessBlockSize =>
      obtain ⟨size, rfl, hguess⟩ := exists_of_sizeReply hrun
      exact ⟨blockSize_guessBlockSize hguess,
        .inr ⟨rfl, fun _ => rfl, rfl, perm_guessBlockSize hguess⟩⟩
  | detectBlockSize => cases hop
  | setBlockSizeInSteps size => cases hop
  | setBlockSize size => cases hop
  | score index addr =>
      rw [perform, scoreAt] at hrun
      split at hrun
      · cases hrun
      · cases hrun
        exact ⟨rfl, .inr ⟨rfl, fun _ => rfl, rfl, List.Perm.refl _⟩⟩

theorem blockSize_perform : c'.blockSize = c.blockSize := (perform_cases hop hrun).1

/-- **STEP**: what an operation leaves out and the members behind it are what it inserts and the
    members before it. -/
theorem perm_perform :
    (leftOut (c.insertionsOf b op) ++ allMembers c'.groups).Perm
      (inserted (c.insertionsOf b op) ++ allMembers c.groups) := by
  obtain ⟨-, ⟨addrs, allowNew, haddrs, hallow, -, hgroups⟩ | ⟨hnone, -, -, hperm⟩⟩ :=
    perform_cases hop hrun
  · rw [insertionsOf_eq op haddrs hallow, inserted_insertions, hgroups]
    exact perm_insertions b allowNew addrs 0 c
  · rw [insertionsOf_none hnone]
    exact hperm

theorem accounted_perform (hsize : c.blockSize = b.settings.initialBlockSize) :
    Accounted b op answer c c' := by
  obtain ⟨-, ⟨addrs, allowNew, haddrs, hallow, hanswer, hgroups⟩ | ⟨hnone, haddrs, hanswer, -⟩⟩ :=
    perform_cases hop hrun
  · exact .of_classifyAll addrs hsize haddrs hallow hanswer (congrArg List.length hgroups)
  · exact .of_none hnone (haddrs _) hanswer

end Steps

/-- **RUN**: along a session, nothing is lost and nothing comes in twice. -/
theorem perm_insertionLog {ops : List Operation} {answers : List Answer}
    (hops : ∀ op ∈ ops, op.keepsBlockSize = true)
    (hrun : performAll b ops c = .ok (answers, c')) :
    (leftOut (insertionLog b ops c) ++ allMembers c'.groups).Perm
        (inserted (insertionLog b ops c) ++ allMembers c.groups)
      ∧ c'.blockSize = c.blockSize := by
  induction ops generalizing c answers with
  | nil =>
      cases hrun
      exact ⟨List.Perm.refl _, rfl⟩
  | cons op rest ih =>
      obtain ⟨hop, hrest⟩ := List.forall_mem_cons.mp hops
      rw [performAll] at hrun
      split at hrun
      · cases hrun
      · next answer c₁ hperform =>
          obtain ⟨⟨more, c₂⟩, hmore, heq⟩ := exists_of_map_eq_ok hrun
          cases heq
          obtain ⟨hperm, hsize⟩ := ih hrest hmore
          refine ⟨?_, hsize.trans (blockSize_perform hop hperform)⟩
          rw [insertionLog_cons rest hperform, leftOut_append, inserted_append, List.append_assoc]
          refine (hperm.append_left _).trans ((List.perm_append_comm_assoc _ _ _).trans ?_)
          refine ((perm_perform hop hperform).append_left _).trans ?_
          exact (List.perm_append_comm_assoc _ _ _).trans (by rw [List.append_assoc])

/-- **CONSERVATION**: in every state of a session that leaves the block size alone, the addresses
    that were left out and the members are the addresses that were to be added, each as often as
    it was.  Every operation from there on answers how many addresses match no group, and opens
    as many groups, or none where this is not allowed.  No group is empty after a round of
    regrouping, and regrouping until the bank count is plausible consists of rounds, whether
    it succeeds or not. -/
theorem session_conserves {ops : List Operation} {answers : List Answer} {s : σ}
    (hops : ∀ op ∈ ops, op.keepsBlockSize = true)
    (hrun : performAll b ops (empty b s) = .ok (answers, c)) :
    (leftOut (insertionLog b ops (empty b s)) ++ allMembers c.groups).Perm
        (inserted (insertionLog b ops (empty b s)))
      ∧ (∀ op answer c', op.keepsBlockSize = true → c.perform b op = .ok (answer, c') →
          Accounted b op answer c c')
      ∧ (∀ n, ∀ g ∈ ((regroup b)^[n + 1] c).groups, g.members ≠ [])
      ∧ ∀ maxRounds, ∃ n ≤ maxRounds, (maxRounds ≠ 0 → n ≠ 0)
          ∧ (c.regroupUntilPlausible b maxRounds).2 = (regroup b)^[n] c := by
  obtain ⟨hperm, hsize⟩ := perm_insertionLog hops hrun
  refine ⟨?_, ?_, ?_, ?_⟩
  · have hnone : allMembers (empty b s).groups = [] := rfl
    rwa [hnone, List.append_nil] at hperm
  · intro op answer c' hop hperform
    exact accounted_perform hop hperform hsize
  · intro n
    rw [Function.iterate_succ_apply']
    exact members_ne_nil_regroup b _
  · intro maxRounds
    exact exists_rounds b maxRounds 0 c

/-- A bench whose timings contradict each other: every other one reaches the threshold. -/
def alternating : Bench Nat :=
  ⟨{ endPage := 3 }, 150, Simulation.probe ⟨.script #[100, 160], 0, 0, none⟩⟩

/-- A session with addresses that are left out, at first one by one and then of a huge block. -/
def alternatingSession : List Operation :=
  [.classify 12288 true, .classify 20480 false, .addRegion 0 true, .addRegion 65536 false,
    .regroup, .regroupUntilPlausible 2]

theorem session_conserves_alternating :
    ∃ answers c, performAll alternating alternatingSession (empty alternating 0) = .ok (answers, c)
      ∧ (leftOut (insertionLog alternating alternatingSession (empty alternating 0))
          ++ allMembers c.groups).Perm
        (inserted (insertionLog alternating alternatingSession (empty alternating 0)))
      ∧ (∀ op answer c', op.keepsBlockSize = true → c.perform alternating op = .ok (answer, c') →
          Accounted alternating op answer c c')
      ∧ (∀ n, ∀ g ∈ ((regroup alternating)^[n + 1] c).groups, g.members ≠ [])
      ∧ ∀ maxRounds, ∃ n ≤ maxRounds, (maxRounds ≠ 0 → n ≠ 0)
          ∧ (c.regroupUntilPlausible alternating maxRounds).2 = (regroup alternating)^[n] c := by
  have hkept : ∀ op ∈ alternatingSession, op.keepsBlockSize = true := by decide
  obtain ⟨answers, c, hrun⟩ : ∃ answers c,
      performAll alternating alternatingSession (empty alternating 0) = .ok (answers, c) := by
    have hfirst : regionAddresses alternating.settings 0 alternating.settings.initialBlockSize
        = .ok (progression 0 4096 3) := by
      decide +kernel
    have hsecond : regionAddresses alternating.settings 65536 alternating.settings.initialBlockSize
        = .ok (progression 65536 4096 3) := by
      decide +kernel
    simp only [alternatingSession, performAll, perform, addRegion, blockSize_classify,
      blockSize_classifyAll, empty, hfirst, hsecond, Except.map]
    exact ⟨_, _, rfl⟩
  exact ⟨answers, c, hrun, session_conserves hkept hrun⟩

end DramBanks.Classifier
