import DramBanks.Proofs.Classifier.Alike
import DramBanks.Proofs.Classifier.Switching
import Mathlib.Data.List.Forall2
/-!
# Rescaled latencies

    A latency is any number that grows with the time of an access.  When
    all latencies and the threshold are passed through a strictly
    increasing function, medians, comparisons with the threshold and
    maxima go along, so a rescaled bench finds the same groups
    (`Rescaling.alike`) and a session asks for the same timings and ends
    with the same groups (`performAll_rescaled`).

    An empty group scores 0 on either scale.  Its score does not go along,
    but it reaches no threshold, as the threshold is not zero on either
    scale.

    The function has to be strictly increasing on latencies that occur
    only: one that is strictly increasing on all words is the identity. -/

namespace DramBanks

variable {σ : Type}

/-- The bench with all its latencies, the threshold among them, on another scale. -/
def Bench.rescaled (b : Bench σ) (scale : Latency → Latency) : Bench σ :=
  { b with threshold := scale b.threshold, probe := b.probe.mapLatency scale }

/-- The bench that also writes down its timings. -/
def Bench.recorded (b : Bench σ) : Bench (σ × List Query) :=
  ⟨b.settings, b.threshold, b.probe.recorded⟩

/-- A scale that is strictly increasing on latencies among which are the threshold and all that
    the probe answers, with a threshold that is not zero on either scale. -/
structure Rescaling (b : Bench σ) (scale : Latency → Latency) (occurs : Latency → Prop) :
    Prop where
  threshold : occurs b.threshold
  measure : ∀ q s, occurs (b.probe.measure q s).1
  increasing : ∀ t u, occurs t → occurs u → t < u → scale t < scale u
  one_le : 1 ≤ b.threshold
  one_le_scale : 1 ≤ scale b.threshold

/-- The score of a group on either scale: a latency that occurs, or 0 when nothing was timed. -/
inductive Scored (scale : Latency → Latency) (occurs : Latency → Prop) :
    Latency → Latency → Prop where
  | timed {t : Latency} (h : occurs t) : Scored scale occurs t (scale t)
  | untimed : Scored scale occurs 0 0

namespace Rescaling

variable {b : Bench σ} {scale : Latency → Latency} {occurs : Latency → Prop}
  (h : Rescaling b scale occurs)

include h

/-- Rescaling may wait until the timings are written down. -/
theorem recorded : Rescaling b.recorded scale occurs where
  threshold := h.threshold
  measure q s := h.measure q s.1
  increasing := h.increasing
  one_le := h.one_le
  one_le_scale := h.one_le_scale

theorem lt_iff {t u : Latency} (ht : occurs t) (hu : occurs u) : scale t < scale u ↔ t < u := by
  constructor
  · intro hlt
    refine UInt64.not_le.mp fun hge => ?_
    rcases UInt64.lt_or_eq_of_le hge with hgt | heq
    · exact UInt64.lt_asymm hlt (h.increasing u t hu ht hgt)
    · rw [heq] at hlt
      exact UInt64.lt_irrefl _ hlt
  · exact h.increasing t u ht hu

theorem le_iff {t u : Latency} (ht : occurs t) (hu : occurs u) : scale t ≤ scale u ↔ t ≤ u := by
  rw [← UInt64.not_lt, ← UInt64.not_lt, h.lt_iff hu ht]

/-! ## Scores -/

theorem median_map {values : List Latency} (hall : ∀ t ∈ values, occurs t) :
    median (values.map scale) = (median values).map scale :=
  median_map_of_le_iff fun t ht u hu => h.le_iff (hall t ht) (hall u hu)

theorem timings_eq (addr : Address) (members : List Address) (s : σ) :
    Group.timings (b.rescaled scale) addr members s
        = ((Group.timings b addr members s).1.map scale, (Group.timings b addr members s).2)
      ∧ ∀ t ∈ (Group.timings b addr members s).1, occurs t := by
  induction members generalizing s with
  | nil => exact ⟨rfl, fun t ht => absurd ht List.not_mem_nil⟩
  | cons member rest ih =>
      let q : Query := ⟨member, addr, b.settings.rounds, b.settings.fenced⟩
      obtain ⟨heq, hall⟩ := ih (b.probe.measure q s).2
      constructor
      · show (scale _ :: (Group.timings (b.rescaled scale) addr rest (b.probe.measure q s).2).1,
          (Group.timings (b.rescaled scale) addr rest (b.probe.measure q s).2).2) = _
        rw [heq]
        rfl
      · intro t ht
        rcases List.mem_cons.mp ht with rfl | ht
        · exact h.measure q s
        · exact hall t ht

/-- The same members are timed, and the scores go along with the scale. -/
theorem score (g : Group) (addr : Address) (s : σ) :
    (g.score (b.rescaled scale) addr s).2 = (g.score b addr s).2
      ∧ Scored scale occurs (g.score b addr s).1 (g.score (b.rescaled scale) addr s).1 := by
  obtain ⟨heq, hall⟩ := h.timings_eq addr (g.sampled b s).1 (g.sampled b s).2
  have hscore : g.score (b.rescaled scale) addr s
      = ((median ((Group.timings b addr (g.sampled b s).1 (g.sampled b s).2).1.map scale)).getD 0,
        (Group.timings b addr (g.sampled b s).1 (g.sampled b s).2).2) := by
    show ((median (Group.timings (b.rescaled scale) addr (g.sampled b s).1 (g.sampled b s).2).1).getD
      0, (Group.timings (b.rescaled scale) addr (g.sampled b s).1 (g.sampled b s).2).2) = _
    rw [heq]
  rw [hscore, h.median_map hall]
  refine ⟨rfl, ?_⟩
  show Scored scale occurs
    ((median (Group.timings b addr (g.sampled b s).1 (g.sampled b s).2).1).getD 0) _
  cases hmedian : median (Group.timings b addr (g.sampled b s).1 (g.sampled b s).2).1 with
  | none => exact .untimed
  | some t => exact .timed (hall t (mem_of_median hmedian))

/-! ## The search for a group -/

/-- A score that was not timed reaches no threshold. -/
theorem threshold_le_iff {t t' : Latency} (hscored : Scored scale occurs t t') :
    scale b.threshold ≤ t' ↔ b.threshold ≤ t := by
  cases hscored with
  | timed ht => exact h.le_iff h.threshold ht
  | untimed =>
      have hnone : ∀ {u : Latency}, 1 ≤ u → ¬ u ≤ 0 := by
        intro u hone hle
        exact absurd (UInt64.le_trans hone hle) (by decide)
      exact iff_of_false (hnone h.one_le_scale) (hnone h.one_le)

theorem better_eq {t t' : Latency} (hscored : Scored scale occurs t t') (index : Nat)
    {best : Option (Nat × Latency)} (hbest : ∀ p ∈ best, occurs p.2) :
    Classifier.better (scale b.threshold) index t' (best.map (Prod.map id scale))
        = (Classifier.better b.threshold index t best).map (Prod.map id scale)
      ∧ ∀ p ∈ Classifier.better b.threshold index t best, occurs p.2 := by
  have hreach := h.threshold_le_iff hscored
  by_cases hle : b.threshold ≤ t
  · -- a score that reaches the threshold was timed
    cases hscored with
    | untimed => exact absurd (UInt64.le_trans h.one_le hle) (by decide)
    | timed ht =>
        cases best with
        | none =>
            rw [Option.map_none, Classifier.better, Classifier.better, if_pos hle,
              if_pos (hreach.mpr hle)]
            exact ⟨rfl, fun p hp => by cases hp; exact ht⟩
        | some p =>
            have hlt := h.lt_iff (hbest p rfl) ht
            simp only [Classifier.better, Option.map_some, Prod.map, hreach, hlt]
            split
            · exact ⟨rfl, fun q hq => by cases hq; exact ht⟩
            · exact ⟨rfl, hbest⟩
  · have hle' : ¬ scale b.threshold ≤ t' := fun hle' => hle (hreach.mp hle')
    cases best with
    | none =>
        rw [Option.map_none, Classifier.better, Classifier.better, if_neg hle, if_neg hle']
        exact ⟨rfl, hbest⟩
    | some p =>
        simp only [Classifier.better, Option.map_some, Prod.map, hle, hle', false_and]
        exact ⟨rfl, hbest⟩

theorem bestGroup_eq (addr : Address) (groups : List Group) (index : Nat)
    {best : Option (Nat × Latency)} (hbest : ∀ p ∈ best, occurs p.2) (s : σ) :
    Classifier.bestGroup (b.rescaled scale) addr groups index (best.map (Prod.map id scale)) s
      = ((Classifier.bestGroup b addr groups index best s).1.map (Prod.map id scale),
        (Classifier.bestGroup b addr groups index best s).2) := by
  induction groups generalizing index best s with
  | nil => rfl
  | cons g rest ih =>
      obtain ⟨hstate, hscored⟩ := h.score g addr s
      obtain ⟨hbetter, hnext⟩ := h.better_eq hscored index hbest
      have hthreshold : (b.rescaled scale).threshold = scale b.threshold := rfl
      simp only [Classifier.bestGroup, hthreshold, hbetter, hstate, ih _ hnext]

theorem search_eq (addr : Address) (groups : List Group) (attempts : Nat) (s : σ) :
    Classifier.search (b.rescaled scale) addr groups attempts s
      = Classifier.search b addr groups attempts s := by
  induction attempts generalizing s with
  | zero => rfl
  | succ attempts ih =>
      have hnone : ∀ p ∈ (none : Option (Nat × Latency)), occurs p.2 := nofun
      have hbest := h.bestGroup_eq addr groups 0 hnone s
      rw [Option.map_none] at hbest
      rw [Classifier.search, Classifier.search, hbest]
      cases hfound : Classifier.bestGroup b addr groups 0 none s with
      | mk found s' =>
          cases found with
          | none => exact ih s'
          | some p => rfl

/-- **ALIKE**: on either scale, the same groups are found. -/
theorem alike : b.Alike (b.rescaled scale) where
  settings := rfl
  bankIndexFor c addr := by
    have hattempts : Classifier.attempts (b.rescaled scale) = Classifier.attempts b := rfl
    rw [Classifier.bankIndexFor, hattempts, h.search_eq, Classifier.bankIndexFor]

end Rescaling

namespace Classifier

/-! ## Sessions -/

/-- Two runs that end in the same fault, or in the same state with related answers. -/
inductive Parallel {α : Type} (R : α → α → Prop) :
    Except Fault (α × Classifier σ) → Except Fault (α × Classifier σ) → Prop where
  | fault (f : Fault) : Parallel R (.error f) (.error f)
  | ok {x x' : α} {c : Classifier σ} (h : R x x') : Parallel R (.ok (x, c)) (.ok (x', c))

theorem Parallel.exists_ok {α : Type} {R : α → α → Prop} {x : α} {c : Classifier σ}
    {run' : Except Fault (α × Classifier σ)} (h : Parallel R (.ok (x, c)) run') :
    ∃ x', run' = .ok (x', c) ∧ R x x' := by
  cases h with
  | ok hx => exact ⟨_, rfl, hx⟩

/-- Equal answers, but for a latency, which goes along with the scale. -/
inductive Answer.Rescaled (scale : Latency → Latency) (occurs : Latency → Prop) :
    Answer → Answer → Prop where
  | latency {t t' : Latency} (h : Scored scale occurs t t') :
      Rescaled scale occurs (.latency t) (.latency t')
  | other {answer : Answer} (h : ∀ t, answer ≠ .latency t) : Rescaled scale occurs answer answer

variable {b : Bench σ} {scale : Latency → Latency} {occurs : Latency → Prop}

/-- Only a score is answered with a latency. -/
theorem answer_ne_latency {op : Operation} (hop : ∀ index addr, op ≠ .score index addr)
    {c c' : Classifier σ} {answer : Answer} (hrun : c.perform b op = .ok (answer, c')) (t : Latency) :
    answer ≠ .latency t := by
  have hsize : ∀ {r : Except Fault (UInt64 × Classifier σ)},
      sizeReply r = .ok (answer, c') → answer ≠ .latency t := by
    intro r hr
    obtain ⟨_, -, heq⟩ := exists_of_map_eq_ok hr
    cases heq
    exact nofun
  cases op with
  | classify addr allowNew =>
      cases hrun
      exact nofun
  | bankIndexFor addr =>
      cases hrun
      exact nofun
  | addRegion base allowNew =>
      obtain ⟨_, -, heq⟩ := exists_of_map_eq_ok hrun
      cases heq
      exact nofun
  | regroup =>
      cases hrun
      exact nofun
  | regroupUntilPlausible maxRounds =>
      cases hrun
      exact nofun
  | guessBlockSize => exact hsize hrun
  | detectBlockSize => exact hsize hrun
  | setBlockSizeInSteps size => exact hsize hrun
  | setBlockSize size =>
      obtain ⟨_, -, heq⟩ := exists_of_map_eq_ok hrun
      cases heq
      exact nofun
  | score index addr => exact absurd rfl (hop index addr)

/-- **STEP**: an operation does the same on either scale. -/
theorem perform_rescaled (h : Rescaling b scale occurs) (op : Operation) (c : Classifier σ) :
    Parallel (Answer.Rescaled scale occurs) (c.perform b op) (c.perform (b.rescaled scale) op) := by
  by_cases hop : ∃ index addr, op = .score index addr
  · obtain ⟨index, addr, rfl⟩ := hop
    rw [perform, perform, scoreAt, scoreAt]
    cases c.groups[index]? with
    | none => exact .fault _
    | some g =>
        obtain ⟨hstate, hscored⟩ := h.score g addr c.probe
        simp only [hstate]
        exact .ok (.latency hscored)
  · have hother : ∀ index addr, op ≠ .score index addr :=
      fun index addr heq => hop ⟨index, addr, heq⟩
    rw [h.alike.perform hother]
    cases hrun : c.perform b op with
    | error f => exact .fault f
    | ok r => exact .ok (.other (answer_ne_latency hother hrun))

/-- What every operation does alike, a session does alike. -/
theorem performAll_parallel {b' : Bench σ} {R : Answer → Answer → Prop}
    (hstep : ∀ op (c : Classifier σ), Parallel R (c.perform b op) (c.perform b' op))
    (ops : List Operation) (c : Classifier σ) :
    Parallel (List.Forall₂ R) (performAll b ops c) (performAll b' ops c) := by
  induction ops generalizing c with
  | nil => exact .ok .nil
  | cons op rest ih =>
      rw [performAll, performAll]
      have hop := hstep op c
      generalize c.perform b op = reply at hop
      generalize c.perform b' op = reply' at hop
      cases hop with
      | fault f => exact .fault f
      | @ok x x' c hx =>
          have hrest := ih c
          simp only
          generalize performAll b rest c = run at hrest
          generalize performAll b' rest c = run' at hrest
          cases hrest with
          | fault f => exact .fault f
          | ok hxs => exact .ok (.cons hx hxs)

/-- **RESCALING**: on a scale that is strictly increasing on the latencies that occur, any session
    from any state asks for the same timings, which the probe writes down, gives the same answers
    and ends in the same state, or in the same fault.  A session up to some operation is a
    session, so the states in between are the same as well. -/
theorem performAll_rescaled (h : Rescaling b scale occurs) (ops : List Operation)
    (c : Classifier (σ × List Query)) :
    Parallel (List.Forall₂ (Answer.Rescaled scale occurs)) (performAll b.recorded ops c)
      (performAll (b.rescaled scale).recorded ops c) :=
  performAll_parallel (fun op c => perform_rescaled h.recorded op c) ops c

/-- Two banks on a scale with ten times as many units, counted from three. -/
theorem performAll_rescaled_two_banks :
    ∃ answers answers' c,
      performAll (Bench.simulated {} [8192]).recorded
          [.addRegion 0 true, .classify 3 true, .regroup, .bankIndexFor 8195]
          (empty (Bench.simulated {} [8192]).recorded (0, [])) = .ok (answers, c)
        ∧ performAll ((Bench.simulated {} [8192]).rescaled fun t => 10 * t + 3).recorded
            [.addRegion 0 true, .classify 3 true, .regroup, .bankIndexFor 8195]
            (empty (Bench.simulated {} [8192]).recorded (0, [])) = .ok (answers', c)
        ∧ List.Forall₂ (Answer.Rescaled (fun t => 10 * t + 3) (· ≤ 200)) answers answers' := by
  have hscale : Rescaling (Bench.simulated {} [8192]) (fun t => 10 * t + 3) (· ≤ 200) := by
    refine ⟨by decide, fun q s => ?_, fun t u ht hu hlt => ?_, by decide, by decide⟩
    · rw [Bench.measure_simulated]
      split
      · decide
      · decide
    · rw [UInt64.le_iff_toNat_le] at ht hu
      rw [UInt64.lt_iff_toNat_lt] at hlt ⊢
      simp only [UInt64.toNat_add, UInt64.toNat_mul, UInt64.reduceToNat] at ht hu ⊢
      simp (disch := omega) only [Nat.mod_eq_of_lt]
      omega
  have hregion : regionAddresses (Bench.simulated {} [8192]).recorded.settings 0
      (empty (Bench.simulated {} [8192]).recorded (0, [])).blockSize
        = .ok (progression 0 4096 512) := by
    decide +kernel
  obtain ⟨answers, c, hrun⟩ : ∃ answers c, performAll (Bench.simulated {} [8192]).recorded
      [.addRegion 0 true, .classify 3 true, .regroup, .bankIndexFor 8195]
      (empty (Bench.simulated {} [8192]).recorded (0, [])) = .ok (answers, c) := by
    simp only [performAll, perform, addRegion, hregion, Except.map]
    exact ⟨_, _, rfl⟩
  have hparallel := performAll_rescaled hscale
    [.addRegion 0 true, .classify 3 true, .regroup, .bankIndexFor 8195]
    (empty (Bench.simulated {} [8192]).recorded (0, []))
  rw [hrun] at hparallel
  obtain ⟨answers', hrun', hanswers⟩ := hparallel.exists_ok
  exact ⟨answers, answers', c, hrun, hrun', hanswers⟩

end Classifier

end DramBanks
