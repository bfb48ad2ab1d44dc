import DramBanks.Proofs.Classifier.Detection
/-!
# Blocks in pairs

    Let the two halves of every aligned DOUBLE block lie in different banks.
    A block is then followed by one of its bank only across a boundary of
    double blocks, so no run is longer than two blocks
    (`bankRuns_of_three_le`).

    If runs of two blocks are the most frequent ones, double blocks are
    detected.  No group has a whole one, and all are emptied
    (`Holds.detectBlockSize_double`).  If no run reaches across the middle
    of four blocks, runs of two are not more frequent than those of one, as
    there is one of these in front of each (`bankRuns_two_le_one`). -/

namespace DramBanks.Classifier

/-! ## Runs of at most two blocks -/

section Pairs

variable {σ β : Type} {b : Bench σ} {bank : Address → β} {c : Classifier σ} {size : UInt64}
  {starts : List Address} (h : IsBlocks bank size starts)
  (hsplit : ∀ a x : Address, 2 * size.toNat ∣ a.toNat → x.toNat = a.toNat + size.toNat →
    bank a ≠ bank x)

include hsplit in
/-- The first half of a double block is not followed by a block of its bank. -/
theorem not_followed_of_even {a : Address} (heven : 2 * size.toNat ∣ a.toNat) :
    ¬ InBank bank starts (bank a) (a.toNat + size.toNat) := by
  rintro ⟨x, -, hnat, hbank⟩
  exact hsplit a x heven hnat hbank.symm

include h hsplit

/-- A block that is followed by one of its bank is not preceded by one. -/
theorem not_preceded_of_followed {a : Address}
    (hfollowed : InBank bank starts (bank a) (a.toNat + size.toNat)) :
    ¬ (size.toNat ≤ a.toNat ∧ InBank bank starts (bank a) (a.toNat - size.toNat)) := by
  rintro ⟨hle, x, hx, hnat, hbank⟩
  have hback : a.toNat = x.toNat + size.toNat := by omega
  -- one of the two is the first half of a double block
  obtain ⟨q, hq⟩ := h.aligned x hx
  rcases Nat.even_or_odd' q with ⟨r, rfl | rfl⟩
  · exact hsplit x a ⟨r, by rw [hq, Nat.mul_left_comm, Nat.mul_assoc]⟩ hback hbank
  · refine not_followed_of_even hsplit ⟨r + 1, ?_⟩ hfollowed
    rw [hback, hq, Nat.mul_comm 2 size.toNat, Nat.mul_assoc, ← Nat.mul_succ]
    rfl

theorem not_followed_twice {a : Address} (ha : a ∈ starts)
    (hfollowed : InBank bank starts (bank a) (a.toNat + size.toNat)) :
    ¬ InBank bank starts (bank a) (a.toNat + 2 * size.toNat) := by
  obtain ⟨x, hx, hnat, hbank⟩ := hfollowed
  intro htwice
  have hnext : InBank bank starts (bank x) (x.toNat + size.toNat) := by
    rw [hnat, hbank, Nat.add_assoc, ← Nat.two_mul]
    exact htwice
  exact not_preceded_of_followed h hsplit hnext ⟨by omega, a, ha, by omega, hbank.symm⟩

variable [DecidableEq β]

/-- **PAIRS**: no run is longer than two blocks. -/
theorem bankRuns_of_three_le {length : Nat} (hlength : 3 ≤ length) :
    bankRuns bank starts size.toNat length = 0 := by
  rw [bankRuns, List.countP_eq_zero]
  intro a ha hrun
  obtain ⟨hrun, -, -⟩ := of_decide_eq_true hrun
  have hnext := hrun 1 (by omega)
  rw [Nat.one_mul] at hnext
  exact not_followed_twice h hsplit ha hnext (hrun 2 (by omega))

omit h in
/-- A first half of a double block that is not preceded by a block of its bank is a run. -/
theorem bankRuns_one_pos {a : Address} (ha : a ∈ starts) (heven : 2 * size.toNat ∣ a.toNat)
    (hfirst : size.toNat ≤ a.toNat → ¬ InBank bank starts (bank a) (a.toNat - size.toNat)) :
    0 < bankRuns bank starts size.toNat 1 := by
  refine List.countP_pos_iff.mpr ⟨a, ha, decide_eq_true ⟨?_, hfirst, ?_⟩⟩
  · intro i hi
    obtain rfl := Nat.lt_one_iff.mp hi
    rw [Nat.zero_mul, Nat.add_zero]
    exact ⟨a, ha, rfl, rfl⟩
  · rw [Nat.one_mul]
    exact not_followed_of_even hsplit heven

end Pairs

/-! ## Double blocks -/

section Double

variable {σ β : Type} {b : Bench σ} {bank : Address → β} {c : Classifier σ} {size double : UInt64}
  (hdouble : double.toNat = 2 * size.toNat) (hpower : ∃ k, double.toNat = 2 ^ k)
  (hsplit : ∀ a x : Address, 2 * size.toNat ∣ a.toNat → x.toNat = a.toNat + size.toNat →
    bank a ≠ bank x)

include hdouble hpower hsplit

/-- No pure group has a whole double block. -/
theorem not_isWhole_double {old : UInt64} (hold : old.toNat ∣ size.toNat) {g : Group}
    (hpure : g.Pure bank) {a : Address} (ha : a ∈ g.members) :
    isWhole g.members old double a = false := by
  rw [isWhole, Bool.and_eq_false_iff]
  by_cases halign : (a % double == 0) = true
  · right
    rw [← Bool.not_eq_true]
    intro hall
    rw [mod_eq_zero_iff, hdouble] at halign
    have hend : a.toNat + double.toNat ≤ 2 ^ 64 := add_size_le hpower (hdouble ▸ halign)
    have hpos : 0 < size.toNat := by
      have hdoublepos := pos_of_power hpower
      omega
    have holdpos : 0 < old.toNat := Nat.pos_of_dvd_of_pos hold hpos
    have hq : 0 < size.toNat / old.toNat := Nat.div_pos (Nat.le_of_dvd hpos hold) holdpos
    obtain ⟨m, hm⟩ := Nat.exists_eq_succ_of_ne_zero (Nat.ne_of_gt hq)
    -- the second half would be a member
    have hcount : m < (double / old).toNat - 1 := by
      rw [UInt64.toNat_div, hdouble, Nat.mul_div_assoc 2 hold, hm]
      omega
    rw [successorsAmong, List.all_eq_true] at hall
    have hmem := List.contains_iff_mem.mp (hall m (List.mem_range.mpr hcount))
    rw [← Nat.succ_eq_add_one, ← hm, ← eq_ofNat_mul hold] at hmem
    refine hsplit a _ halign ?_ (hpure a ha _ hmem)
    rw [UInt64.toNat_add]
    exact Nat.mod_eq_of_lt (by omega)
  · left
    exact Bool.eq_false_iff.mpr halign

/-- Switching to double blocks empties all pure groups. -/
theorem setBlockSize_double (hold : c.blockSize.toNat ∣ size.toNat)
    (hpure : ∀ g ∈ c.groups, g.Pure bank) :
    ∃ c', c.setBlockSize b double = .ok c' ∧ c'.blockSize = double
      ∧ c'.groups.length = c.groups.length ∧ ∀ g ∈ c'.groups, g.members = [] := by
  have hdoublepos := pos_of_power hpower
  have hlt : c.blockSize < double := by
    have hle := Nat.le_of_dvd (by omega) hold
    rw [UInt64.lt_iff_toNat_lt]
    omega
  have hcut : c.cutTo b double
      = .ok { c with groups := c.groups.map (simplified c.blockSize double) } := by
    rw [cutTo, if_neg (UInt64.lt_asymm hlt), if_pos hlt]
    exact simplify_eq hpower (hdouble ▸ Nat.dvd_mul_left_of_dvd hold 2)
  have hset : c.setBlockSize b double
      = .ok (commit double { c with groups := c.groups.map (simplified c.blockSize double) }) := by
    rw [setBlockSize, if_neg (toNat_pos_iff.mp hdoublepos), hcut]
    rfl
  refine ⟨_, hset, blockSize_commit _ _, ?_, ?_⟩
  · rw [groups_commit, List.length_map, List.length_map]
  · rw [groups_commit]
    intro g' hg'
    obtain ⟨k, hk, rfl⟩ := List.mem_map.mp hg'
    obtain ⟨g, hg, rfl⟩ := List.mem_map.mp hk
    have hnone : g.members.filter (isWhole g.members c.blockSize double) = [] := by
      rw [List.filter_eq_nil_iff]
      intro a ha
      rw [not_isWhole_double hdouble hpower hsplit hold (hpure g hg) ha]
      exact Bool.false_ne_true
    show sorted (g.members.filter (isWhole g.members c.blockSize double)) = []
    rw [hnone, sorted, List.mergeSort_nil]

/-- **DOUBLE SIZE**: if runs of two blocks are the most frequent ones, double blocks are detected,
    and all groups are emptied. -/
theorem Holds.detectBlockSize_double [DecidableEq β] {starts : List Address}
    (hblocks : IsBlocks bank size starts) (hold : c.blockSize.toNat ∣ size.toNat)
    (h : Holds bank (cut size c.blockSize starts) c.groups)
    (hmore : bankRuns bank starts size.toNat 1 < bankRuns bank starts size.toNat 2) :
    ∃ c', c.detectBlockSize b = .ok (double, c') ∧ c'.groups ≠ []
      ∧ ∀ g ∈ c'.groups, g.members = [] := by
  have hpos := pos_of_power hblocks.power
  have hbeats : ∀ length,
      bankRuns bank starts size.toNat length < bankRuns bank starts size.toNat 2
        ∨ bankRuns bank starts size.toNat length = bankRuns bank starts size.toNat 2
          ∧ 2 ≤ length := by
    intro length
    rcases Nat.lt_or_ge length 3 with hlt | hge
    · have hcases : length = 0 ∨ length = 1 ∨ length = 2 := by omega
      rcases hcases with rfl | rfl | rfl
      · rw [bankRuns_zero]
        exact Or.inl (Nat.zero_lt_of_lt hmore)
      · exact Or.inl hmore
      · exact Or.inr ⟨rfl, Nat.le_refl 2⟩
    · rw [bankRuns_of_three_le hblocks hsplit hge]
      exact Or.inl (Nat.zero_lt_of_lt hmore)
  have hword : 2 * size.toNat < 2 ^ 64 := hdouble ▸ UInt64.toNat_lt double
  have hvalue : UInt64.ofNat 2 * size = double := by
    refine UInt64.toNat_inj.mp ?_
    rw [UInt64.toNat_mul, hdouble]
    exact Nat.mod_eq_of_lt hword
  obtain ⟨c₁, hguess, hsame, h₁⟩ :=
    h.guessBlockSize hblocks hold (Nat.zero_lt_of_lt hmore) hbeats hword
  rw [hvalue] at hguess
  have hne : double ≠ c.blockSize := by
    intro heq
    have hle := Nat.le_of_dvd hpos hold
    rw [← heq] at hle
    omega
  obtain ⟨c', hset, hdone, hlength, hempty⟩ := setBlockSize_double (b := b) (c := c₁) hdouble hpower
    hsplit (hsame ▸ hold) h₁.partition.pure
  have hdetect : c.detectFrom b c.blockSize = .ok c' := by
    rw [detectFrom, hguess]
    simp only
    rw [dif_neg fun hcond => hne hcond.1, Classifier.commitGuess,
      if_neg (toNat_pos_iff.mp (hdouble ▸ Nat.mul_pos Nat.two_pos hpos)),
      if_neg (hsame ▸ hne), hset]
  refine ⟨c', ?_, ?_, hempty⟩
  · rw [Classifier.detectBlockSize, hdetect, Except.map, hdone]
  · -- there were addresses, hence groups
    obtain ⟨a, ha, -⟩ := List.countP_pos_iff.mp (Nat.zero_lt_of_lt hmore)
    have hmem : a ∈ cut size c.blockSize starts := (hblocks.mem_cut hold).mpr
      ⟨Nat.dvd_trans hold (hblocks.aligned a ha), a, ha, rfl⟩
    obtain ⟨g, hg, -⟩ := mem_allMembers.mp (h₁.perm.mem_iff.mpr hmem)
    rw [← List.length_pos_iff, hlength]
    exact List.length_pos_of_mem hg

end Double

/-! ## Runs of one block are enough -/

section Quads

variable {β : Type} [DecidableEq β] {bank : Address → β} {size : UInt64} {starts : List Address}
  (h : IsBlocks bank size starts)
  (hfirst : ∀ a ∈ starts, ¬ 2 * size.toNat ∣ a.toNat → size.toNat ≤ a.toNat ∧ a - size ∈ starts)
  (hsplit : ∀ a x : Address, 2 * size.toNat ∣ a.toNat → x.toNat = a.toNat + size.toNat →
    bank a ≠ bank x)
  (hmiddle : ∀ a x : Address, a.toNat % (4 * size.toNat) = size.toNat →
    x.toNat = a.toNat + size.toNat → bank a ≠ bank x)
include h hfirst hsplit hmiddle

omit [DecidableEq β] in
/-- A run of two blocks begins in the last one of four aligned blocks. -/
theorem exists_quad_of_pair {a : Address} (ha : a ∈ starts)
    (hrun : MaximalRun (InBank bank starts (bank a)) size.toNat 2 a.toNat) :
    a - size ∈ starts ∧ (a - size).toNat + size.toNat = a.toNat
      ∧ ∃ r, (a - size).toNat = 4 * size.toNat * r + 2 * size.toNat := by
  obtain ⟨x, hx, hnat, hbank⟩ := hrun.1 1 Nat.one_lt_two
  rw [Nat.one_mul] at hnat
  have hodd : ¬ 2 * size.toNat ∣ a.toNat := fun heven => hsplit a x heven hnat hbank.symm
  obtain ⟨hle, hmem⟩ := hfirst a ha hodd
  have hsub : (a - size).toNat = a.toNat - size.toNat :=
    UInt64.toNat_sub_of_le _ _ (UInt64.le_iff_toNat_le.mpr hle)
  obtain ⟨q, hq⟩ := h.aligned a ha
  have hmod : a.toNat % (4 * size.toNat) = size.toNat * (q % 4) := by
    rw [hq, Nat.mul_comm 4, Nat.mul_mod_mul_left]
  have hone : q % 4 ≠ 1 := by
    intro hone
    rw [hone, Nat.mul_one] at hmod
    exact hmiddle a x hmod hnat hbank.symm
  have hq2 : q % 2 ≠ 0 := by
    intro hzero
    obtain ⟨r, rfl⟩ := Nat.dvd_of_mod_eq_zero hzero
    exact hodd ⟨r, by rw [hq, Nat.mul_left_comm, Nat.mul_assoc]⟩
  obtain ⟨r, rfl⟩ : ∃ r, q = 4 * r + 3 := ⟨q / 4, by omega⟩
  refine ⟨hmem, by omega, r, ?_⟩
  rw [hsub, hq, Nat.mul_add, ← Nat.mul_assoc, Nat.mul_comm size.toNat 4]
  omega

omit [DecidableEq β] in
/-- In front of a run of two blocks there is a run of one. -/
theorem single_in_front_of_pair {a : Address} (ha : a ∈ starts)
    (hrun : MaximalRun (InBank bank starts (bank a)) size.toNat 2 a.toNat) :
    a - size ∈ starts ∧ MaximalRun (InBank bank starts (bank (a - size))) size.toNat 1
      (a - size).toNat := by
  have hpos := pos_of_power h.power
  obtain ⟨hmem, hnext, r, hfront⟩ := exists_quad_of_pair h hfirst hsplit hmiddle ha hrun
  refine ⟨hmem, ?_, ?_, ?_⟩
  · intro i hi
    obtain rfl := Nat.lt_one_iff.mp hi
    rw [Nat.zero_mul, Nat.add_zero]
    exact ⟨a - size, hmem, rfl, rfl⟩
  · rintro - ⟨z, -, hz, hzbank⟩
    refine hmiddle z (a - size) ?_ (by omega) hzbank
    rw [hz, hfront, show 4 * size.toNat * r + 2 * size.toNat - size.toNat
      = 4 * size.toNat * r + size.toNat by omega, Nat.mul_add_mod]
    exact Nat.mod_eq_of_lt (by omega)
  · rw [Nat.one_mul]
    refine not_followed_of_even hsplit ⟨2 * r + 1, ?_⟩
    rw [hfront, Nat.mul_add, Nat.mul_one, Nat.mul_assoc 2, Nat.mul_left_comm _ 2,
      ← Nat.mul_assoc 2 2, Nat.mul_assoc 4]

/-- Where no run reaches across the middle of four aligned blocks, every run of two blocks has a
    run of one in front of it. -/
theorem bankRuns_two_le_one :
    bankRuns bank starts size.toNat 2 ≤ bankRuns bank starts size.toNat 1 := by
  have hinj : Function.Injective fun a : Address => a - size :=
    fun x y hxy => (UInt64.sub_left_inj size).mp hxy
  rw [bankRuns, bankRuns, List.countP_eq_length_filter, List.countP_eq_length_filter,
    ← List.length_map (fun a : Address => a - size)]
  refine (((h.nodup.filter _).map hinj).subperm ?_).length_le
  intro y hy
  obtain ⟨a, ha, rfl⟩ := List.mem_map.mp hy
  obtain ⟨hmem, hrun⟩ := List.mem_filter.mp ha
  obtain ⟨hstart, hrun'⟩ :=
    single_in_front_of_pair h hfirst hsplit hmiddle hmem (of_decide_eq_true hrun)
  exact List.mem_filter.mpr ⟨hstart, decide_eq_true hrun'⟩

end Quads

end DramBanks.Classifier
