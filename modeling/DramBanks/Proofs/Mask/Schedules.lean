import DramBanks.Mask.Crew
import DramBanks.Proofs.Mask.Finds
/-!
# Schedules of a search

    Workers meet only in the list that they report to.  So whoever moves,
    two things stay as they are:

    * what was reported and what the workers have still to report make up
      the accepted candidates (`Crew.Sound`), as long as no check faults;
    * a worker that has a candidate in front of it whose check faults is
      going to fail, and the fault is always the same (`Crew.Doomed`).

    When the crew has ended, nothing is left to report: the list holds the
    accepted candidates in some order, or some worker has failed
    (`Crew.result_of_checks`, `Crew.result_of_not_checks`).  The basis does
    not depend on the order, so neither schedules nor the number of
    threads show in the bank function. -/

namespace DramBanks.Mask

variable {v : Validator}

/-! ## Checks that end in a fault -/

namespace Validator

theorem eq_of_tolerance_error {size : Nat} {f : Fault} (h : v.tolerance size = .error f) :
    f = .productOverflow := by
  rw [tolerance, Word.mul] at h
  split at h
  · cases h
  · cases h
    rfl

theorem eq_of_dominant_error {mask : Mask} {first : Address} {rest : List Address} {f : Fault}
    (h : v.dominant? mask first rest = .error f) : f = .productOverflow := by
  cases htolerance : v.tolerance (rest.length + 1) with
  | ok t =>
      simp only [dominant?, htolerance] at h
      cases h
  | error f' =>
      simp only [dominant?, htolerance] at h
      cases h
      exact eq_of_tolerance_error htolerance

theorem eq_of_balance_error {mask : Mask} {groups : List (List Address)} {ones zeroes : Nat}
    {f : Fault} (h : v.balance? mask groups ones zeroes = .error f) : f = .productOverflow := by
  fun_induction balance? v mask groups ones zeroes with
  | case1 => cases h
  | case2 ones zeroes groups ih => exact ih h
  | case3 first rest groups ones zeroes f' hdominant =>
      cases h
      exact eq_of_dominant_error hdominant
  | case4 => cases h
  | case5 first rest groups ones zeroes hdominant ih => exact ih h
  | case6 first rest groups ones zeroes hdominant ih => exact ih h

/-- The only fault of a check is a group too large for its tolerance to be computed. -/
theorem eq_of_check_error {mask : Mask} {f : Fault} (h : v.check mask = .error f) :
    f = .productOverflow := by
  rw [check] at h
  split at h
  · next hbalance =>
      cases h
      exact eq_of_balance_error hbalance
  · cases h
  · cases h

/-- The check of the mask ends without a fault. -/
def Checks (v : Validator) (mask : Mask) : Prop := ∃ verdict, v.check mask = .ok verdict

/-- Whether the check of the mask ends, and accepts it. -/
def accepts (v : Validator) (mask : Mask) : Bool :=
  match v.check mask with
  | .ok verdict => verdict
  | .error _ => false

theorem check_of_checks {mask : Mask} (h : v.Checks mask) :
    v.check mask = .ok (v.accepts mask) := by
  obtain ⟨verdict, hverdict⟩ := h
  rw [accepts, hverdict]

theorem check_of_not_checks {mask : Mask} (h : ¬ v.Checks mask) :
    v.check mask = .error .productOverflow := by
  cases hcheck : v.check mask with
  | ok verdict => exact absurd ⟨verdict, hcheck⟩ h
  | error f => rw [eq_of_check_error hcheck]

/-- A mask that cannot be checked ends a list of masks. -/
theorem accepted_of_not_checks {masks : List Mask} (h : ∃ m ∈ masks, ¬ v.Checks m)
    (found : List Mask) : v.accepted masks found = .error .productOverflow := by
  induction masks generalizing found with
  | nil =>
      obtain ⟨m, hm, -⟩ := h
      cases hm
  | cons m rest ih =>
      rw [accepted]
      by_cases hm : v.Checks m
      · have hrest : ∃ m ∈ rest, ¬ v.Checks m := by
          obtain ⟨m', hm', hnot⟩ := h
          rcases List.mem_cons.mp hm' with rfl | hm'
          · exact absurd hm hnot
          · exact ⟨m', hm', hnot⟩
        rw [check_of_checks hm]
        cases v.accepts m with
        | true => exact ih hrest _
        | false => exact ih hrest _
      · rw [check_of_not_checks hm]

end Validator

/-! ## A search and its faults -/

/-- A worker ends well, or in the one fault that a check can end in. -/
theorem work_cases (masks : List Mask) (id : Nat) {workers : Nat} (hpos : 0 < workers) :
    (∃ finds, work v masks id workers = .ok finds)
        ∧ (∀ m ∈ Candidates.share id workers masks, v.Checks m)
      ∨ work v masks id workers = .error .productOverflow
        ∧ ∃ m ∈ Candidates.share id workers masks, ¬ v.Checks m := by
  rw [work, if_neg (Nat.ne_of_gt hpos)]
  by_cases hall : ∀ m ∈ Candidates.share id workers masks, v.Checks m
  · have haccepted := accepted_eq (fun m hm => Validator.check_of_checks (hall m hm)) []
    exact Or.inl ⟨⟨_, by simp only [haccepted, Except.map]; rfl⟩, hall⟩
  · push Not at hall
    exact Or.inr ⟨by simp only [Validator.accepted_of_not_checks hall, Except.map], hall⟩

theorem workAll_of_not_checks {masks : List Mask} {workers : Nat} (hpos : 0 < workers)
    (left id : Nat) (h : ∃ worker, id ≤ worker ∧ worker < id + left ∧
      ∃ m ∈ Candidates.share worker workers masks, ¬ v.Checks m) :
    workAll v masks workers left id = .error .productOverflow := by
  induction left generalizing id with
  | zero =>
      obtain ⟨worker, hle, hlt, -⟩ := h
      omega
  | succ left ih =>
      rw [workAll]
      rcases work_cases (v := v) masks id hpos with ⟨⟨finds, hwork⟩, hall⟩ | ⟨hwork, -⟩
      · -- this worker ends well, so it is another one that does not
        obtain ⟨worker, hle, hlt, m, hm, hnot⟩ := h
        have hne : worker ≠ id := by
          rintro rfl
          exact hnot (hall m hm)
        rw [hwork, ih _ ⟨worker, by omega, by omega, m, hm, hnot⟩]
      · rw [hwork]

/-- One candidate that cannot be checked ends the search, whoever meets it. -/
theorem search_of_not_checks {c : Candidates} (h : ∃ m ∈ c.toList, ¬ v.Checks m) (threads : Nat) :
    search v c threads = .error .productOverflow := by
  have hpos : 0 < max threads 1 := by omega
  obtain ⟨m, hm, hnot⟩ := h
  obtain ⟨worker, hworker, hshare⟩ := List.mem_flatMap.mp ((perm_shares hpos _).mem_iff.mpr hm)
  have hlt := List.mem_range.mp hworker
  have hall := workAll_of_not_checks (v := v) hpos (max threads 1) 0
    ⟨worker, Nat.zero_le _, by omega, m, hshare, hnot⟩
  rw [search, hall]
  rfl

/-! ## Moves of a worker -/

namespace Worker

variable {w : Worker}

/-- A candidate in front of the worker ends it in a fault, or has done so. -/
def Doomed (v : Validator) : Worker → Prop
  | looking todo _ => ∃ m ∈ todo, ¬ v.Checks m
  | reporting _ todo _ => ∃ m ∈ todo, ¬ v.Checks m
  | failed _ => True

/-- The masks that a worker has still to report. -/
def due (v : Validator) : Worker → List Mask
  | looking todo _ => todo.filter v.accepts
  | reporting mask todo _ => mask :: todo.filter v.accepts
  | failed _ => []

/-- The number of candidates that a worker has checked in the end. -/
def extent : Worker → Nat
  | looking todo checked => checked + todo.length
  | reporting _ todo checked => checked + todo.length
  | failed _ => 0

/-- The number of moves that a worker has left at most. -/
def movesLeft : Worker → Nat
  | looking todo _ => 2 * todo.length
  | reporting _ todo _ => 2 * todo.length + 1
  | failed _ => 0

/-- What a move of a worker can be: the worker, what becomes of it, and what it reports. -/
inductive Move (v : Validator) : Worker → Worker → List Mask → Prop
  | rest {w : Worker} (hended : w.hasEnded = true) : Move v w w []
  | accept {mask : Mask} {todo : List Mask} {checked : Nat} (hchecks : v.Checks mask)
      (haccepts : v.accepts mask = true) :
      Move v (looking (mask :: todo) checked) (reporting mask todo (checked + 1)) []
  | reject {mask : Mask} {todo : List Mask} {checked : Nat} (hchecks : v.Checks mask)
      (haccepts : v.accepts mask = false) :
      Move v (looking (mask :: todo) checked) (looking todo (checked + 1)) []
  | fail {mask : Mask} {todo : List Mask} {checked : Nat} (hchecks : ¬ v.Checks mask) :
      Move v (looking (mask :: todo) checked) (failed .productOverflow) []
  | report {mask : Mask} {todo : List Mask} {checked : Nat} :
      Move v (reporting mask todo checked) (looking todo checked) [mask]

theorem move_step (v : Validator) (w : Worker) : Move v w (w.step v).1 (w.step v).2 := by
  cases w with
  | failed f => exact Move.rest rfl
  | reporting mask todo checked => exact Move.report
  | looking todo checked =>
      cases todo with
      | nil => exact Move.rest rfl
      | cons mask todo =>
          by_cases hchecks : v.Checks mask
          · rw [step, Validator.check_of_checks hchecks]
            cases haccepts : v.accepts mask with
            | true => exact Move.accept hchecks haccepts
            | false => exact Move.reject hchecks haccepts
          · rw [step, Validator.check_of_not_checks hchecks]
            exact Move.fail hchecks

namespace Move

variable {w' : Worker} {reported : List Mask} (h : Move v w w' reported)
include h

/-- No move changes whether a worker fails. -/
theorem doomed_iff : w'.Doomed v ↔ w.Doomed v := by
  cases h with
  | rest hended => exact Iff.rfl
  | accept hchecks haccepts => simp [Doomed, hchecks]
  | reject hchecks haccepts => simp [Doomed, hchecks]
  | fail hchecks => simp [Doomed, hchecks]
  | report => exact Iff.rfl

/-- What a worker reports is what it has no longer to report. -/
theorem due_eq (hsound : ¬ w.Doomed v) : reported ++ w'.due v = w.due v := by
  cases h with
  | rest hended => rfl
  | accept hchecks haccepts => simp [due, haccepts]
  | reject hchecks haccepts => simp [due, haccepts]
  | fail hchecks => exact absurd ⟨_, List.mem_cons_self .., hchecks⟩ hsound
  | report => rfl

theorem extent_eq (hsound : ¬ w.Doomed v) : w'.extent = w.extent := by
  cases h with
  | rest hended => rfl
  | accept hchecks haccepts =>
      simp only [extent, List.length_cons]
      omega
  | reject hchecks haccepts =>
      simp only [extent, List.length_cons]
      omega
  | fail hchecks => exact absurd ⟨_, List.mem_cons_self .., hchecks⟩ hsound
  | report => rfl

theorem eq_of_failed {f : Fault} (hfailed : w' = failed f) : w = failed f ∨ f = .productOverflow := by
  cases h with
  | rest hended => exact Or.inl hfailed
  | accept hchecks haccepts => cases hfailed
  | reject hchecks haccepts => cases hfailed
  | fail hchecks =>
      cases hfailed
      exact Or.inr rfl
  | report => cases hfailed

theorem movesLeft_lt (hbusy : w.hasEnded = false) : w'.movesLeft < w.movesLeft := by
  cases h with
  | rest hended =>
      rw [hended] at hbusy
      cases hbusy
  | accept hchecks haccepts =>
      simp only [movesLeft, List.length_cons]
      omega
  | reject hchecks haccepts =>
      simp only [movesLeft, List.length_cons]
      omega
  | fail hchecks =>
      simp only [movesLeft, List.length_cons]
      omega
  | report => exact Nat.lt_succ_self _

end Move

/-! ## Workers that have ended -/

theorem due_of_hasEnded (h : w.hasEnded = true) : w.due v = [] := by
  cases w with
  | failed f => rfl
  | reporting mask todo checked => cases h
  | looking todo checked => rw [List.isEmpty_iff.mp h]; rfl

theorem exists_failed_of_hasEnded (h : w.hasEnded = true) (hdoomed : w.Doomed v) :
    ∃ f, w = failed f := by
  cases w with
  | failed f => exact ⟨f, rfl⟩
  | reporting mask todo checked => cases h
  | looking todo checked =>
      obtain ⟨m, hm, -⟩ := hdoomed
      rw [List.isEmpty_iff.mp h] at hm
      cases hm

/-- Workers that end well have checked all of their candidates. -/
theorem counts_of_hasEnded {ws : List Worker} (hended : ∀ w ∈ ws, w.hasEnded = true)
    (hsound : ∀ w ∈ ws, ¬ w.Doomed v) : counts ws = .ok (ws.map extent) := by
  induction ws with
  | nil => rfl
  | cons w ws ih =>
      rw [List.forall_mem_cons] at hended hsound
      have ih := ih hended.2 hsound.2
      cases w with
      | failed f => exact absurd trivial hsound.1
      | reporting mask todo checked => cases hended.1
      | looking todo checked =>
          have htodo : todo = [] := List.isEmpty_iff.mp hended.1
          rw [counts, ih, htodo]
          rfl

/-- One worker that failed leaves no counts. -/
theorem counts_of_failed {ws : List Worker} {f : Fault} (h : failed f ∈ ws)
    (hall : ∀ f', failed f' ∈ ws → f' = f) : counts ws = .error f := by
  induction ws with
  | nil => cases h
  | cons w ws ih =>
      have hrest := fun h' => ih h' fun f' hf' => hall f' (List.mem_cons_of_mem _ hf')
      cases w with
      | failed f' => rw [counts, hall f' (List.mem_cons_self ..)]
      | reporting mask todo checked =>
          rw [counts, hrest (by simpa using h)]
          rfl
      | looking todo checked =>
          rw [counts, hrest (by simpa using h)]
          rfl

end Worker

/-! ## Moves of a crew -/

namespace Crew

variable {c : Candidates} {crew : Crew} {masks : List Mask} {count threads : Nat}

theorem step_of_getElem? {w : Worker} {id : Nat} (h : crew.workers[id]? = some w) :
    ∃ front back, crew.workers = front ++ w :: back
      ∧ crew.step v id = ⟨front ++ (w.step v).1 :: back, crew.found ++ (w.step v).2⟩ := by
  obtain ⟨hid, hw⟩ := List.getElem?_eq_some_iff.mp h
  obtain ⟨front, back, hsplit, -, hset⟩ : ∃ front back, crew.workers = front ++ w :: back
      ∧ front.length = id ∧ crew.workers.set id (w.step v).1 = front ++ (w.step v).1 :: back :=
    hw ▸ List.exists_of_set hid
  refine ⟨front, back, hsplit, ?_⟩
  rw [step, h]
  simp only [hset]

/-- A move of a crew is a move of one of its workers, or none at all. -/
theorem step_cases (v : Validator) (crew : Crew) (id : Nat) :
    crew.step v id = crew ∨ ∃ front w w' back reported, crew.workers = front ++ w :: back
      ∧ Worker.Move v w w' reported
      ∧ crew.step v id = ⟨front ++ w' :: back, crew.found ++ reported⟩ := by
  cases hget : crew.workers[id]? with
  | none => exact Or.inl (by rw [step, hget])
  | some w =>
      obtain ⟨front, back, hsplit, hstep⟩ := step_of_getElem? hget
      exact Or.inr ⟨front, w, _, back, _, hsplit, Worker.move_step v w, hstep⟩

/-- What every move keeps, every schedule keeps. -/
theorem run_keeps {P : Crew → Prop} (hstep : ∀ crew id, P crew → P (crew.step v id))
    (schedule : List Nat) (h : P crew) : P (crew.run v schedule) := by
  induction schedule generalizing crew with
  | nil => exact h
  | cons id schedule ih => exact ih (hstep crew id h)

/-- No worker is going to fail; what was reported and what is still to be reported are the given
    masks, and the workers have the given number of candidates. -/
structure Sound (v : Validator) (masks : List Mask) (count : Nat) (crew : Crew) : Prop where
  sound : ∀ w ∈ crew.workers, ¬ w.Doomed v
  found : (crew.found ++ crew.workers.flatMap (Worker.due v)).Perm masks
  extent : (crew.workers.map Worker.extent).sum = count

/-- Some worker is going to fail, and workers fail in one way only. -/
structure Doomed (v : Validator) (crew : Crew) : Prop where
  doomed : ∃ w ∈ crew.workers, w.Doomed v
  fault : ∀ f, Worker.failed f ∈ crew.workers → f = .productOverflow

theorem Sound.step (h : Sound v masks count crew) (id : Nat) :
    Sound v masks count (crew.step v id) := by
  rcases step_cases v crew id with hsame | ⟨front, w, w', back, reported, hsplit, hmove, hstep⟩
  · rwa [hsame]
  · obtain ⟨hsound, hfound, hextent⟩ := h
    simp only [hsplit, List.forall_mem_append, List.forall_mem_cons, List.flatMap_append,
      List.flatMap_cons, List.map_append, List.map_cons, List.sum_append,
      List.sum_cons] at hsound hfound hextent
    obtain ⟨hfront, hw, hback⟩ := hsound
    rw [hstep]
    refine ⟨?_, ?_, ?_⟩
    · simp only [List.forall_mem_append, List.forall_mem_cons]
      exact ⟨hfront, hmove.doomed_iff.not.mpr hw, hback⟩
    · -- a report moves from what is due to what was found
      rw [← hmove.due_eq hw] at hfound
      simp only [List.flatMap_append, List.flatMap_cons]
      refine List.Perm.trans ?_ hfound
      simp only [List.append_assoc]
      refine List.Perm.append_left _ ?_
      simp only [← List.append_assoc]
      exact (List.perm_append_comm.append_right _).append_right _
    · simp only [List.map_append, List.map_cons, List.sum_append, List.sum_cons,
        hmove.extent_eq hw]
      exact hextent

theorem Doomed.step (h : Doomed v crew) (id : Nat) : Doomed v (crew.step v id) := by
  rcases step_cases v crew id with hsame | ⟨front, w, w', back, reported, hsplit, hmove, hstep⟩
  · rwa [hsame]
  · obtain ⟨⟨x, hx, hdoomed⟩, hfault⟩ := h
    rw [hsplit] at hx hfault
    rw [hstep]
    refine ⟨?_, ?_⟩
    · -- the doomed worker is the one that moves, or it stays
      rcases List.mem_append.mp hx with hx | hx
      · exact ⟨x, List.mem_append_left _ hx, hdoomed⟩
      · rcases List.mem_cons.mp hx with rfl | hx
        · exact ⟨w', by simp, hmove.doomed_iff.mpr hdoomed⟩
        · exact ⟨x, List.mem_append_right _ (List.mem_cons_of_mem _ hx), hdoomed⟩
    · intro f hf
      rcases List.mem_append.mp hf with hf | hf
      · exact hfault f (List.mem_append_left _ hf)
      · rcases List.mem_cons.mp hf with hf | hf
        · rcases hmove.eq_of_failed hf.symm with hw | hoverflow
          · exact hfault f (by simp [hw])
          · exact hoverflow
        · exact hfault f (List.mem_append_right _ (List.mem_cons_of_mem _ hf))

/-- Every crew can come to its end: as long as a worker is busy, its move brings the end nearer. -/
theorem exists_schedule (v : Validator) (crew : Crew) :
    ∃ schedule, (crew.run v schedule).HasEnded := by
  induction hleft : (crew.workers.map Worker.movesLeft).sum using Nat.strongRecOn
    generalizing crew with
  | ind left ih =>
      by_cases hended : crew.HasEnded
      · exact ⟨[], hended⟩
      · rw [HasEnded] at hended
        push Not at hended
        obtain ⟨w, hw, hbusy⟩ := hended
        obtain ⟨id, hget⟩ := List.mem_iff_getElem?.mp hw
        obtain ⟨front, back, hsplit, hstep⟩ := step_of_getElem? (v := v) hget
        have hlt := (Worker.move_step v w).movesLeft_lt (Bool.eq_false_of_not_eq_true hbusy)
        obtain ⟨schedule, hschedule⟩ := ih _ (by
          rw [← hleft, hstep, hsplit]
          simp only [List.map_append, List.map_cons, List.sum_append, List.sum_cons]
          omega) (crew.step v id) rfl
        exact ⟨id :: schedule, hschedule⟩

/-! ## The end of a crew -/

theorem sound_start (h : ∀ m ∈ c.toList, v.Checks m) (threads : Nat) :
    Sound v (c.toList.filter v.accepts) c.toList.length (start c threads) := by
  have hpos : 0 < max threads 1 := by omega
  have hshares := perm_shares hpos c.toList
  refine ⟨?_, ?_, ?_⟩
  · intro w hw hdoomed
    obtain ⟨id, -, rfl⟩ := List.mem_map.mp hw
    obtain ⟨m, hm, hnot⟩ := hdoomed
    exact hnot (h m (share_subset hm))
  · show (((List.range (max threads 1)).map _).flatMap _).Perm _
    simp only [List.flatMap_map, Worker.due, ← List.filter_flatMap]
    exact hshares.filter _
  · rw [← hshares.length_eq, List.length_flatMap]
    simp [start, Worker.extent, Function.comp_def]

theorem doomed_start (h : ∃ m ∈ c.toList, ¬ v.Checks m) (threads : Nat) :
    Doomed v (start c threads) := by
  have hpos : 0 < max threads 1 := by omega
  obtain ⟨m, hm, hnot⟩ := h
  obtain ⟨id, hid, hshare⟩ := List.mem_flatMap.mp ((perm_shares hpos _).mem_iff.mpr hm)
  refine ⟨⟨_, List.mem_map.mpr ⟨id, hid, rfl⟩, m, hshare, hnot⟩, ?_⟩
  intro f hf
  obtain ⟨id, -, hfailed⟩ := List.mem_map.mp hf
  cases hfailed

/-- **SOUND END**: where all candidates can be checked, a crew that has ended hands back the
    accepted ones in some order, and has checked each candidate once. -/
theorem result_of_checks (h : ∀ m ∈ c.toList, v.Checks m) {schedule : List Nat}
    (hended : ((start c threads).run v schedule).HasEnded) :
    ∃ found counts, ((start c threads).run v schedule).result = .ok (found, counts)
      ∧ found.Perm (c.toList.filter v.accepts) ∧ counts.sum = c.toList.length := by
  obtain ⟨hsound, hfound, hextent⟩ :=
    run_keeps (v := v) (fun _ id h => h.step id) schedule (sound_start h threads)
  have hcounts := Worker.counts_of_hasEnded hended hsound
  have hdue : ((start c threads).run v schedule).workers.flatMap (Worker.due v) = [] :=
    List.flatMap_eq_nil_iff.mpr fun w hw => Worker.due_of_hasEnded (hended w hw)
  rw [hdue, List.append_nil] at hfound
  exact ⟨_, _, by rw [result, hcounts]; rfl, hfound, hextent⟩

/-- **FAULTY END**: where some candidate cannot be checked, a crew that has ended has failed. -/
theorem result_of_not_checks (h : ∃ m ∈ c.toList, ¬ v.Checks m) {schedule : List Nat}
    (hended : ((start c threads).run v schedule).HasEnded) :
    ((start c threads).run v schedule).result = .error .productOverflow := by
  obtain ⟨⟨w, hw, hdoomed⟩, hfault⟩ :=
    run_keeps (v := v) (fun _ id h => h.step id) schedule (doomed_start h threads)
  obtain ⟨f, rfl⟩ := Worker.exists_failed_of_hasEnded (hended w hw) hdoomed
  rw [hfault f hw] at hw
  rw [result, Worker.counts_of_failed hw hfault]
  rfl

end Crew

end DramBanks.Mask

namespace DramBanks.BankFunction

open Mask

/-- **SCHEDULES**: a crew can come to its end, and whatever the schedule that leads there, it hands
    back what checking all candidates in turn accepts, in some order, with counts that add up to
    their number, or ends in the same fault; the bank function that follows from it is the
    one that any number of threads derives. -/
theorem derive_of_every_schedule (v : Validator) (c : Candidates) (threads : Nat) :
    (∃ schedule, ((Crew.start c threads).run v schedule).HasEnded)
      ∧ ∀ schedule, ((Crew.start c threads).run v schedule).HasEnded →
          (∀ accepted, v.accepted c.toList [] = .ok accepted →
            ∃ found counts, ((Crew.start c threads).run v schedule).result = .ok (found, counts)
              ∧ found.Perm accepted ∧ counts.sum = c.toList.length)
          ∧ (∀ f, v.accepted c.toList [] = .error f →
            ((Crew.start c threads).run v schedule).result = .error f)
          ∧ ∀ blockSize, skippedBits blockSize = c.skip → ∀ otherThreads,
              (((Crew.start c threads).run v schedule).result.map fun r =>
                  ofMasks v.groups blockSize (basis r.1))
                = derive v.groups blockSize v.errorPercentage c.maxBits otherThreads := by
  refine ⟨Crew.exists_schedule v _, ?_⟩
  intro schedule hended
  by_cases hall : ∀ m ∈ c.toList, v.Checks m
  · obtain ⟨found, counts, hresult, hfound, hcounts⟩ := Crew.result_of_checks hall hended
    have hcheck := fun m hm => Validator.check_of_checks (hall m hm)
    have haccepted := accepted_eq hcheck []
    refine ⟨?_, ?_, ?_⟩
    · intro accepted h
      rw [haccepted] at h
      cases h
      exact ⟨found, counts, hresult, hfound, hcounts⟩
    · intro f h
      rw [haccepted] at h
      cases h
    · intro blockSize hskip otherThreads
      obtain ⟨found', hsearch, hfound'⟩ := search_perm hcheck otherThreads
      rw [derive, hskip, hsearch, hresult, Except.map, Except.map,
        basis_perm (hfound.trans hfound'.symm)]
  · push Not at hall
    have hresult := Crew.result_of_not_checks hall hended
    have haccepted := Validator.accepted_of_not_checks hall []
    refine ⟨?_, ?_, ?_⟩
    · intro accepted h
      rw [haccepted] at h
      cases h
    · intro f h
      rw [haccepted] at h
      cases h
      exact hresult
    · intro blockSize hskip otherThreads
      rw [derive, hskip, search_of_not_checks hall, hresult]
      rfl

end DramBanks.BankFunction
