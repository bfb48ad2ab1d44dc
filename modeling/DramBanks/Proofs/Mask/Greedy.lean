import DramBanks.Proofs.Mask.Span
import Mathlib.Data.List.Dedup
/-!
# What the greedy basis keeps

    The basis visits the masks upward and keeps a mask unless smaller ones
    sum up to it.  This says which masks it keeps without a word about the
    visit (`mem_basis_iff`), and a list that ascends strictly is known by
    its members (`eq_of_ascending`).  So neither order nor repetition of
    the given masks shows, and a basis is its own basis.  A basis has at
    most 64 masks, as many as there are bits that they could be summed up
    from. -/

namespace DramBanks.Mask

/-! ## Sums of sets -/

/-- No summand is needed twice. -/
theorem spanned_iff_nodup {S : Set Mask} {x : Mask} :
    Spanned S x ↔ ∃ sub : List Mask, sub.Nodup ∧ (∀ k ∈ sub, k ∈ S) ∧ total sub = x := by
  constructor
  · rintro ⟨ms, hms, rfl⟩
    have hspan : Spanned {k | k ∈ ms.dedup} (total ms) :=
      ⟨ms, fun k hk => List.mem_dedup.mpr hk, rfl⟩
    obtain ⟨sub, hsub, htotal⟩ := spanned_iff_sublist.mp hspan
    refine ⟨sub, hsub.nodup ms.nodup_dedup, ?_, htotal⟩
    intro k hk
    exact hms k (List.mem_dedup.mp (hsub.subset hk))
  · rintro ⟨sub, -, hsub, htotal⟩
    exact ⟨sub, hsub, htotal⟩

/-- No independent mask is a sum of the others. -/
theorem Independent.not_spanned {ms : List Mask} (hind : Independent ms) {m : Mask} (hm : m ∈ ms) :
    ¬ Spanned {k | k ∈ ms ∧ k ≠ m} m := by
  have hfront := hind.perm (List.perm_cons_erase hm)
  intro hspan
  refine (independent_cons.mp hfront).1 (hspan.mono ?_)
  rintro k ⟨hk, hne⟩
  exact (List.mem_erase_of_ne hne).mpr hk

/-- Every word is a sum of single bits. -/
theorem spanned_bits (m : Mask) : Spanned {k | k ∈ (List.range 64).map Bits.bit} m := by
  by_contra hout
  obtain ⟨d, -, hread, hbits⟩ := exists_separating (fun x _ => Within.whole x) (Within.whole m) hout
  -- what separates `m` from all bits has none of them
  have hzero : d = 0 := by
    refine Bits.eq_of_testBit ?_
    intro i
    rw [UInt64.toNat_zero, Nat.zero_testBit]
    by_contra hbit
    have hi := Bits.lt_of_testBit (Bool.eq_true_of_not_eq_false hbit)
    have hfalse := hbits (Bits.bit i) (List.mem_map_of_mem (List.mem_range.mpr hi))
    rw [reads, UInt64.and_comm, ← reads, reads_bit hi] at hfalse
    exact hbit hfalse
  rw [hzero, reads, UInt64.zero_and, Bits.parity_zero] at hread
  cases hread

/-- A word has room for 64 independent masks. -/
theorem Independent.length_le {ms : List Mask} (hind : Independent ms) : ms.length ≤ 64 := by
  have hle := length_le_of_spanned hind fun m _ => spanned_bits m
  rwa [List.length_map, List.length_range] at hle

/-! ## Strictly ascending lists -/

/-- A list that ascends strictly is known by its members. -/
theorem eq_of_ascending {xs ys : List Mask} (hxs : xs.Pairwise (· < ·)) (hys : ys.Pairwise (· < ·))
    (h : ∀ m, m ∈ xs ↔ m ∈ ys) : xs = ys := by
  have hne : ∀ {zs : List Mask}, zs.Pairwise (· < ·) → zs.Nodup :=
    fun hzs => hzs.imp UInt64.ne_of_lt
  have hperm := (List.perm_ext_iff_of_nodup (hne hxs) (hne hys)).mpr h
  exact hperm.eq_of_pairwise (fun _ _ _ _ hlt hgt => absurd hlt (UInt64.lt_asymm hgt)) hxs hys

/-! ## What is kept -/

/-- The masks of the list that are smaller than `m`. -/
def below (ms : List Mask) (m : Mask) : Set Mask := {k | k ∈ ms ∧ k < m}

section Visit

variable {done rest : List Mask} {x m : Mask}

/-- The first of ascending masks has no smaller one behind it. -/
theorem below_head (hx : ∀ k ∈ rest, x ≤ k) : below (x :: rest) x = ∅ := by
  refine Set.eq_empty_iff_forall_notMem.mpr ?_
  rintro k ⟨hk, hlt⟩
  rcases List.mem_cons.mp hk with rfl | hk
  · exact UInt64.lt_irrefl k hlt
  · exact UInt64.not_lt.mpr (hx k hk) hlt

/-- A mask that joins moves from the smaller masks into the basis. -/
theorem union_below_of_lt (hlt : x < m) :
    {k | k ∈ x :: done} ∪ below rest m = {k | k ∈ done} ∪ below (x :: rest) m := by
  ext k
  simp only [below, Set.mem_union, Set.mem_ofPred_eq, List.mem_cons]
  by_cases hk : k = x
  · simp [hk, hlt]
  · simp [hk]

/-- A mask that does not join adds nothing to the smaller masks. -/
theorem spanned_below_of_spanned (hx : Spanned {k | k ∈ done} x) :
    Spanned ({k | k ∈ done} ∪ below (x :: rest) m) m
      ↔ Spanned ({k | k ∈ done} ∪ below rest m) m := by
  constructor
  · refine Spanned.trans ?_
    rintro k (hk | ⟨hk, hlt⟩)
    · exact Spanned.of_mem (Or.inl hk)
    · rcases List.mem_cons.mp hk with rfl | hk
      · exact hx.mono Set.subset_union_left
      · exact Spanned.of_mem (Or.inr ⟨hk, hlt⟩)
  · refine Spanned.mono (Set.union_subset_union_right _ ?_)
    rintro k ⟨hk, hlt⟩
    exact ⟨List.mem_cons_of_mem x hk, hlt⟩

end Visit

/-- Of ascending masks, those join that are no sum of masks in the basis and of smaller masks
    among the ascending ones. -/
theorem mem_extend_iff {done span ms : List Mask}
    (hspan : ∀ x, x ∈ span ↔ Spanned {k | k ∈ done} x) (hms : ms.Pairwise (· ≤ ·)) {m : Mask} :
    m ∈ extend span ms ↔ m ∈ ms ∧ ¬ Spanned ({k | k ∈ done} ∪ below ms m) m := by
  induction ms generalizing span done with
  | nil => simp [extend]
  | cons x rest ih =>
      obtain ⟨hx, hrest⟩ := List.pairwise_cons.mp hms
      rw [extend]
      split
      · next hold =>
          have hdone : Spanned {k | k ∈ done} x := by
            rw [← hspan]
            simpa using hold
          rw [ih hspan hrest, spanned_below_of_spanned hdone]
          refine and_congr_left fun hout => ?_
          rw [List.mem_cons]
          refine (or_iff_right ?_).symm
          rintro rfl
          exact hout (hdone.mono Set.subset_union_left)
      · next hnew =>
          have hdone : ¬ Spanned {k | k ∈ done} x := by
            rw [← hspan]
            simpa using hnew
          have hnext : ∀ y, y ∈ span ++ span.map (· ^^^ x) ↔ Spanned {k | k ∈ x :: done} y := by
            intro y
            rw [List.mem_append, mem_map_xor, hspan, hspan, spanned_cons_iff]
          rw [List.mem_cons, ih hnext hrest]
          by_cases hm : m = x
          · subst hm
            rw [below_head hx, Set.union_empty]
            exact iff_of_true (Or.inl rfl) ⟨List.mem_cons_self .., hdone⟩
          · rw [or_iff_right hm, List.mem_cons, or_iff_right hm]
            refine and_congr_right fun hmem => not_congr ?_
            rw [union_below_of_lt (UInt64.lt_of_le_of_ne (hx m hmem) (Ne.symm hm))]

/-- **MEMBERS**: the basis keeps the masks that are no sums of smaller ones. -/
theorem mem_basis_iff {ms : List Mask} {m : Mask} :
    m ∈ basis ms ↔ m ∈ ms ∧ ¬ Spanned (below ms m) m := by
  have hzero : ∀ x, x ∈ [(0 : Mask)] ↔ Spanned {k | k ∈ ([] : List Mask)} x := by
    intro x
    rw [← mem_sums]
    rfl
  have hset : {k | k ∈ ([] : List Mask)} ∪ below (ascending ms) m = below ms m := by
    ext k
    simp [below, ascending]
  rw [basis, mem_extend_iff hzero (pairwise_ascending ms), hset]
  exact and_congr_left fun _ => List.mem_mergeSort

theorem ne_zero_of_mem_basis {ms : List Mask} {m : Mask} (h : m ∈ basis ms) : m ≠ 0 := by
  rintro rfl
  exact (mem_basis_iff.mp h).2 Spanned.zero

/-- The basis ascends strictly. -/
theorem pairwise_basis (ms : List Mask) : (basis ms).Pairwise (· < ·) := by
  have hle : (basis ms).Pairwise (· ≤ ·) :=
    (pairwise_ascending ms).sublist (extend_sublist [0] (ascending ms))
  have hne : (basis ms).Pairwise (· ≠ ·) := (isBasis_basis ms).independent.nodup
  exact (hle.and hne).imp fun h => UInt64.lt_of_le_of_ne h.1 h.2

/-- Order and repetition of the masks do not matter to their basis. -/
theorem basis_congr {ms ks : List Mask} (h : ∀ m, m ∈ ks ↔ m ∈ ms) : basis ks = basis ms := by
  refine eq_of_ascending (pairwise_basis ks) (pairwise_basis ms) ?_
  intro m
  simp only [mem_basis_iff, below, h]

/-- Independent masks are a basis of their own, but for the order. -/
theorem mem_basis_of_independent {ms : List Mask} (hind : Independent ms) {m : Mask} :
    m ∈ basis ms ↔ m ∈ ms := by
  rw [mem_basis_iff]
  refine and_iff_left_of_imp fun hm hspan => ?_
  refine hind.not_spanned hm (hspan.mono ?_)
  rintro k ⟨hk, hlt⟩
  exact ⟨hk, UInt64.ne_of_lt hlt⟩

/-- **THE GREEDY BASIS** ascends strictly and holds the nonzero masks that no set of smaller masks
    sums up to.  None of its masks is the sum of others, every given mask is the sum of some, and
    there are at most 64.  The same masks in another order, or repeated, have the same basis, and
    so has the basis itself. -/
theorem basis_is_greedy (ms : List Mask) :
    (basis ms).Pairwise (· < ·)
      ∧ (∀ m, m ∈ basis ms ↔ m ∈ ms ∧ m ≠ 0 ∧
          ∀ sub : List Mask, sub.Nodup → (∀ k ∈ sub, k ∈ ms ∧ k < m) → total sub ≠ m)
      ∧ (∀ m ∈ basis ms, ∀ sub : List Mask, sub.Nodup →
          (∀ k ∈ sub, k ∈ basis ms ∧ k ≠ m) → total sub ≠ m)
      ∧ (∀ m ∈ ms, ∃ sub : List Mask, sub.Sublist (basis ms) ∧ total sub = m)
      ∧ (basis ms).length ≤ 64
      ∧ (∀ ks : List Mask, (∀ m, m ∈ ks ↔ m ∈ ms) → basis ks = basis ms)
      ∧ basis (basis ms) = basis ms := by
  have hbasis := isBasis_basis ms
  have hind := hbasis.independent
  refine ⟨pairwise_basis ms, ?_, ?_, ?_, hind.length_le, fun ks => basis_congr, ?_⟩
  · intro m
    constructor
    · intro hm
      obtain ⟨hmem, hout⟩ := mem_basis_iff.mp hm
      refine ⟨hmem, ne_zero_of_mem_basis hm, ?_⟩
      intro sub _ hsub htotal
      exact hout ⟨sub, hsub, htotal⟩
    · rintro ⟨hmem, -, hout⟩
      refine mem_basis_iff.mpr ⟨hmem, ?_⟩
      intro hspan
      obtain ⟨sub, hnodup, hsub, htotal⟩ := spanned_iff_nodup.mp hspan
      exact hout sub hnodup hsub htotal
  · intro m hm sub _ hsub htotal
    exact hind.not_spanned hm ⟨sub, hsub, htotal⟩
  · intro m hm
    exact spanned_iff_sublist.mp ((hbasis.span m).mpr (Spanned.of_mem hm))
  · exact eq_of_ascending (pairwise_basis _) (pairwise_basis ms)
      fun m => mem_basis_of_independent hind

example : basis [0x36000, 0x24000, 0x12000] = [0x12000, 0x24000] := by cbv

end DramBanks.Mask
