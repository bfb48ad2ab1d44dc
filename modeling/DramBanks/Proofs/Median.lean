import DramBanks.Median
import Mathlib.Data.Multiset.Sort
/-!
# What a median says

    The median is one of the values, and it is the value at half the length
    of their descending order.  In this order the values that reach a
    threshold are in front (`reaches_iff_lt_countP`).  So the median is a
    VOTE: it reaches a threshold exactly when more than half of the values
    do (`exists_median_majority`).

    Everything else about it follows from the vote or from the order.  An
    interval that holds more than half of the values holds the median, too
    (`exists_median_between`): they outvote what is below and what is
    above. -/

namespace DramBanks

variable {values : List Latency}

/-- A median is one of the values. -/
theorem mem_of_median {t : Latency} (h : median values = some t) : t ∈ values :=
  List.mem_mergeSort.mp (List.mem_of_getElem? h)

theorem exists_median (h : values ≠ []) : ∃ t, median values = some t := by
  have hpos := List.length_pos_iff.mpr h
  have hlt : values.length / 2 < (descending values).length := by
    rw [length_descending]
    omega
  exact ⟨_, List.getElem?_eq_getElem hlt⟩

/-- The median of equal latencies is each of them. -/
theorem median_replicate {n : Nat} (hn : n ≠ 0) (t : Latency) :
    median (List.replicate n t) = some t := by
  have hne : List.replicate n t ≠ [] := mt (List.replicate_eq_nil_iff t).mp hn
  obtain ⟨m, hm⟩ := exists_median hne
  rw [hm, List.eq_of_mem_replicate (mem_of_median hm)]

/-! ## The descending order -/

theorem pairwise_descending (values : List Latency) :
    (descending values).Pairwise fun x y => y ≤ x :=
  List.pairwise_mergeSort' (· ≥ ·) values

theorem descending_perm (values : List Latency) : (descending values).Perm values :=
  List.mergeSort_perm _ _

/-- The order in which the values came does not matter to their median. -/
theorem median_eq_of_perm {xs ys : List Latency} (h : xs.Perm ys) : median xs = median ys := by
  -- what is sorted is the multiset of the values
  have hsame : descending xs = descending ys :=
    congrArg (Multiset.sort · (· ≥ ·)) (Multiset.coe_eq_coe.mpr h)
  rw [median, median, hsame, h.length_eq]

/-- The median goes along with a function that keeps the order of the values. -/
theorem median_map_of_le_iff {scale : Latency → Latency}
    (h : ∀ t ∈ values, ∀ u ∈ values, scale t ≤ scale u ↔ t ≤ u) :
    median (values.map scale) = (median values).map scale := by
  have hdescending : descending (values.map scale) = (descending values).map scale := by
    refine (List.map_mergeSort fun t ht u hu => ?_).symm
    rw [decide_eq_decide, h u hu t ht]
  rw [median, median, hdescending, List.length_map, List.getElem?_map]

/-! ## The vote -/

/-- Of values in descending order, those that reach a threshold are in front. -/
theorem reaches_iff_lt_countP (h : values.Pairwise fun x y => y ≤ x) (threshold : Latency)
    {i : Nat} {t : Latency} (hget : values[i]? = some t) :
    threshold ≤ t ↔ i < values.countP (threshold ≤ ·) := by
  induction values generalizing i with
  | nil => cases hget
  | cons x rest ih =>
      obtain ⟨hx, hrest⟩ := List.pairwise_cons.mp h
      by_cases hreach : threshold ≤ x
      · rw [List.countP_cons_of_pos (p := (threshold ≤ ·)) (decide_eq_true hreach)]
        cases i with
        | zero =>
            obtain rfl : x = t := Option.some.inj hget
            exact iff_of_true hreach (Nat.succ_pos _)
        | succ i =>
            rw [ih hrest hget]
            exact Nat.succ_lt_succ_iff.symm
      · -- nothing behind `x` is larger
        have hmiss : ∀ y ∈ x :: rest, ¬ threshold ≤ y := by
          intro y hy hle
          rcases List.mem_cons.mp hy with rfl | hy
          · exact hreach hle
          · exact hreach (UInt64.le_trans hle (hx y hy))
        have hnone : (x :: rest).countP (threshold ≤ ·) = 0 :=
          List.countP_eq_zero.mpr fun y hy hle => hmiss y hy (of_decide_eq_true hle)
        rw [hnone]
        exact iff_of_false (hmiss t (List.mem_of_getElem? hget)) (Nat.not_lt_zero i)

/-- **MEDIAN**: it reaches a threshold exactly when more than half of the values do. -/
theorem exists_median_majority (h : values ≠ []) :
    ∃ t, median values = some t ∧ ∀ threshold,
      threshold ≤ t ↔ values.length < 2 * values.countP (threshold ≤ ·) := by
  obtain ⟨t, ht⟩ := exists_median h
  refine ⟨t, ht, fun threshold => ?_⟩
  rw [reaches_iff_lt_countP (pairwise_descending values) threshold ht,
    (descending_perm values).countP_eq]
  omega

/-- An interval that holds more than half of the values holds their median. -/
theorem exists_median_between {lo hi : Latency}
    (h : values.length < 2 * values.countP fun t => lo ≤ t ∧ t ≤ hi) :
    ∃ m, median values = some m ∧ lo ≤ m ∧ m ≤ hi := by
  have hne : values ≠ [] := by
    rintro rfl
    exact Nat.lt_irrefl 0 h
  obtain ⟨m, hm, hvote⟩ := exists_median_majority hne
  refine ⟨m, hm, (hvote lo).mpr ?_, ?_⟩
  · have hreach : (values.countP fun t => lo ≤ t ∧ t ≤ hi) ≤ values.countP (lo ≤ ·) :=
      List.countP_mono_left fun t _ ht => decide_eq_true (of_decide_eq_true ht).1
    omega
  · by_contra habove
    -- those that reach the median are another majority, and none of them is in the interval
    have hmedian := (hvote m).mp (UInt64.le_refl m)
    have hsplit := values.length_eq_countP_add_countP (m ≤ ·)
    have hmiss : (values.countP fun t => lo ≤ t ∧ t ≤ hi)
        ≤ values.countP fun t => decide ¬ decide (m ≤ t) = true := by
      refine List.countP_mono_left fun t _ ht => decide_eq_true fun hreach => habove ?_
      exact UInt64.le_trans (of_decide_eq_true hreach) (of_decide_eq_true ht).2
    omega

end DramBanks
