import DramBanks.Classifier.BlockSize
import Mathlib.Data.List.Dedup
import Mathlib.Data.List.Sort
/-!
# The most frequent number

    The run lengths of a sorted list count each of its numbers once
    (`RunLength.encode_eq`).  Walking these counts upward and taking a
    number only when it is strictly more frequent leaves the smallest of
    the most frequent ones, which is the only number that no other one
    beats (`mode_eq_iff`). -/

namespace DramBanks

namespace RunLength

/-- The first number of an ascending list without repetition is the one that is not above any
    other. -/
theorem eq_head_of_le {n m : Nat} {rest : List Nat} (h : (m :: rest).Pairwise (· < ·))
    (hmem : n ∈ m :: rest) (hle : n ≤ m) : n = m := by
  rcases List.mem_cons.mp hmem with heq | hrest
  · exact heq
  · exact absurd (List.rel_of_pairwise_cons h hrest) (Nat.not_lt_of_le hle)

theorem pairwise_dedup {ns : List Nat} (h : ns.Pairwise (· ≤ ·)) : ns.dedup.Pairwise (· < ·) := by
  have hle : ns.dedup.Pairwise (· ≤ ·) := h.sublist (List.dedup_sublist ns)
  exact hle.imp₂ (fun a b hab hne => Nat.lt_of_le_of_ne hab hne) ns.nodup_dedup

/-- The numbers of a sorted list, each with the number of its occurrences. -/
theorem encode_eq {ns : List Nat} (h : ns.Pairwise (· ≤ ·)) :
    encode ns = ns.dedup.map fun v => (v, ns.count v) := by
  induction ns with
  | nil => rfl
  | cons n rest ih =>
      obtain ⟨hn, hrest⟩ := List.pairwise_cons.mp h
      have hasc := pairwise_dedup hrest
      show push n (encode rest) = _
      rw [ih hrest]
      by_cases hmem : n ∈ rest
      · -- the number is the first one of the rest, and is counted once more
        rw [List.dedup_cons_of_mem hmem]
        have hdedup : n ∈ rest.dedup := List.mem_dedup.mpr hmem
        cases hcases : rest.dedup with
        | nil => rw [hcases] at hdedup; cases hdedup
        | cons m tail =>
            rw [hcases] at hdedup hasc
            have hm : m ∈ rest := List.mem_dedup.mp (hcases ▸ List.mem_cons_self ..)
            obtain rfl := eq_head_of_le hasc hdedup (hn m hm)
            have htail : ∀ v ∈ tail, rest.count v = (n :: rest).count v := by
              intro v hv
              have hlt := List.rel_of_pairwise_cons hasc hv
              rw [List.count_cons_of_ne (Nat.ne_of_lt hlt)]
            rw [List.map_cons, List.map_cons, push, if_pos rfl, List.count_cons_self]
            exact congrArg _ (List.map_congr_left fun v hv => congrArg (Prod.mk v) (htail v hv))
      · rw [List.dedup_cons_of_notMem hmem, List.map_cons, List.count_cons_self,
          List.count_eq_zero_of_not_mem hmem]
        have hcount : ∀ v ∈ rest.dedup, rest.count v = (n :: rest).count v := by
          intro v hv
          have hne : n ≠ v := by
            rintro rfl
            exact hmem (List.mem_dedup.mp hv)
          rw [List.count_cons_of_ne hne]
        rw [← List.map_congr_left fun v hv => congrArg (Prod.mk v) (hcount v hv)]
        cases hcases : rest.dedup with
        | nil => rfl
        | cons m tail =>
            have hm : m ∈ rest := List.mem_dedup.mp (hcases ▸ List.mem_cons_self ..)
            have hne : m ≠ n := by
              rintro rfl
              exact hmem hm
            rw [List.map_cons, push, if_neg hne]

end RunLength

namespace Classifier

/-- The number `m` beats `v` in a list: it is more frequent, or as frequent and not larger. -/
def Beats (lengths : List Nat) (m v : Nat) : Prop :=
  lengths.count v < lengths.count m ∨ lengths.count v = lengths.count m ∧ m ≤ v

/-- The entry that is kept on the way through ascending numbers: no number is more frequent, and
    no smaller one is as frequent. -/
theorem foldl_best (f : Nat → Nat) {m : Nat} {values : List Nat}
    (h : (m :: values).Pairwise (· < ·)) :
    ∃ r ∈ m :: values,
      (values.map fun v => (v, f v)).foldl
          (fun best entry => if best.2 < entry.2 then entry else best) (m, f m) = (r, f r)
      ∧ ∀ v ∈ m :: values, f v < f r ∨ f v = f r ∧ r ≤ v := by
  induction values generalizing m with
  | nil => exact ⟨m, List.mem_singleton_self m, rfl, by simp⟩
  | cons v rest ih =>
      obtain ⟨hm, hrest⟩ := List.pairwise_cons.mp h
      rw [List.map_cons, List.foldl_cons]
      by_cases hlt : f m < f v
      · rw [if_pos hlt]
        obtain ⟨r, hr, hfold, hbest⟩ := ih hrest
        refine ⟨r, List.mem_cons_of_mem _ hr, hfold, ?_⟩
        intro x hx
        rcases List.mem_cons.mp hx with rfl | hx
        · rcases hbest v (List.mem_cons_self ..) with hv | hv <;> omega
        · exact hbest x hx
      · rw [if_neg hlt]
        have hskip : (m :: rest).Pairwise (· < ·) :=
          List.pairwise_cons.mpr ⟨fun x hx => hm x (List.mem_cons_of_mem _ hx),
            (List.pairwise_cons.mp hrest).2⟩
        obtain ⟨r, hr, hfold, hbest⟩ := ih hskip
        refine ⟨r, ?_, hfold, ?_⟩
        · rcases List.mem_cons.mp hr with rfl | hr
          · exact List.mem_cons_self ..
          · exact List.mem_cons_of_mem _ (List.mem_cons_of_mem _ hr)
        · intro x hx
          rcases List.mem_cons.mp hx with rfl | hx
          · exact hbest x (List.mem_cons_self ..)
          · rcases List.mem_cons.mp hx with rfl | hx
            · have hxm := hm x (List.mem_cons_self ..)
              rcases hbest m (List.mem_cons_self ..) with hv | hv <;> omega
            · exact hbest x (List.mem_cons_of_mem _ hx)

@[simp] theorem mode_nil : mode [] = 0 := by
  simp [mode, RunLength.encode, mostFrequent]

/-- The mode is a number of the list that beats all numbers of it. -/
theorem mode_spec {lengths : List Nat} (h : lengths ≠ []) :
    mode lengths ∈ lengths ∧ ∀ v ∈ lengths, Beats lengths (mode lengths) v := by
  have hperm := List.mergeSort_perm lengths fun a b => decide (a ≤ b)
  have hsorted := List.pairwise_mergeSort' (· ≤ ·) lengths
  rw [mode, RunLength.encode_eq hsorted]
  have hasc := RunLength.pairwise_dedup hsorted
  have hmem : ∀ v, v ∈ (lengths.mergeSort fun a b => decide (a ≤ b)).dedup ↔ v ∈ lengths :=
    fun v => List.mem_dedup.trans hperm.mem_iff
  simp only [hperm.count_eq]
  cases hvalues : (lengths.mergeSort fun a b => decide (a ≤ b)).dedup with
  | nil =>
      obtain ⟨v, hv⟩ := List.exists_mem_of_ne_nil _ h
      rw [← hmem, hvalues] at hv
      cases hv
  | cons m rest =>
      rw [hvalues] at hasc hmem
      -- the first number is taken, as it occurs at all
      have hm : 0 < lengths.count m := List.count_pos_iff.mpr ((hmem m).mp (List.mem_cons_self ..))
      obtain ⟨r, hr, hfold, hbest⟩ := foldl_best lengths.count hasc
      have hfirst : mostFrequent ((m :: rest).map fun v => (v, lengths.count v))
          = (r, lengths.count r) := by
        rw [mostFrequent, List.map_cons, List.foldl_cons, if_pos hm]
        exact hfold
      rw [hfirst]
      exact ⟨(hmem r).mp hr, fun v hv => hbest v ((hmem v).mpr hv)⟩

/-- The mode beats all numbers, those of the list and others. -/
theorem beats_mode (lengths : List Nat) (v : Nat) : Beats lengths (mode lengths) v := by
  by_cases hnil : lengths = []
  · subst hnil
    rw [mode_nil]
    exact Or.inr ⟨rfl, Nat.zero_le v⟩
  · obtain ⟨hmem, hbest⟩ := mode_spec hnil
    by_cases hv : v ∈ lengths
    · exact hbest v hv
    · refine Or.inl ?_
      rw [List.count_eq_zero_of_not_mem hv]
      exact List.count_pos_iff.mpr hmem

/-- **MODE**: the mode is the number of the list that beats all numbers of it. -/
theorem mode_eq_iff {lengths : List Nat} (h : lengths ≠ []) {m : Nat} :
    mode lengths = m ↔ m ∈ lengths ∧ ∀ v ∈ lengths, Beats lengths m v := by
  obtain ⟨hmem, hbest⟩ := mode_spec h
  constructor
  · rintro rfl
    exact ⟨hmem, hbest⟩
  · rintro ⟨hm, hmbest⟩
    -- two numbers that beat each other are equal
    rcases hbest m hm with hlt | ⟨heq, hle⟩
    · rcases hmbest _ hmem with hlt' | ⟨heq', -⟩
      · exact absurd hlt (Nat.lt_asymm hlt')
      · exact absurd heq' (Nat.ne_of_gt hlt)
    · rcases hmbest _ hmem with hlt' | ⟨-, hle'⟩
      · exact absurd heq (Nat.ne_of_gt hlt')
      · exact Nat.le_antisymm hle hle'

end Classifier

end DramBanks
