import DramBanks.Proofs.Mask.Verdict
/-!
# Parts of a mask

    A mask is irreducible when each of its parts, neither empty nor all of
    it, is read both ways off the observed addresses.  The check walks down
    the parts by subtracting one and dropping what the mask lacks.  Between
    a part and the one met next there is no further part
    (`le_lowerPart_iff`), so the walk meets all parts from its start on
    downward (`anyEquivalentFrom_iff`).

    A part behaves like the mask when what it leaves out is constant, and
    what it leaves out is a part again, so the walk decides whether some
    part is constant (`hasRedundantPart_iff`).  The parts without a single
    bit are met again on the walk. -/

namespace DramBanks.Mask.Validator

/-! ## What is a part -/

/-- A part has no bit that the mask lacks. -/
theorem part_iff {d mask : Mask} :
    d &&& mask = d ↔ ∀ i, d.toNat.testBit i = true → mask.toNat.testBit i = true := by
  constructor
  · intro h i hi
    rw [← h, UInt64.toNat_and, Nat.testBit_and, Bool.and_eq_true] at hi
    exact hi.2
  · intro h
    refine Bits.eq_of_testBit ?_
    intro i
    rw [UInt64.toNat_and, Nat.testBit_and]
    cases hd : d.toNat.testBit i with
    | false => rfl
    | true => rw [h i hd]; rfl

/-- The bits of a mask are the single bits that it has. -/
theorem mem_bits {mask b : Mask} :
    b ∈ bits mask ↔ ∃ i, mask.toNat.testBit i = true ∧ b = Bits.bit i := by
  -- the filter drops the bits that vanish under the mask
  have hkept : ∀ i, i < 64 → (mask &&& Bits.bit i == 0) = !mask.toNat.testBit i := by
    intro i hi
    rw [UInt64.and_comm]
    cases hbit : mask.toNat.testBit i with
    | true =>
        rw [Bits.bit_and_of_testBit hbit]
        simpa using Bits.bit_ne_zero hi
    | false =>
        rw [Bits.bit_and_of_not_testBit hi hbit]
        rfl
  rw [bits]
  simp only [List.mem_filterMap, List.mem_range]
  constructor
  · rintro ⟨i, hi, hb⟩
    rw [hkept i hi] at hb
    cases hbit : mask.toNat.testBit i with
    | false =>
        rw [hbit] at hb
        cases hb
    | true =>
        rw [hbit] at hb
        exact ⟨i, hbit, (Option.some.inj hb).symm⟩
  · rintro ⟨i, hbit, rfl⟩
    have hi := Bits.lt_of_testBit hbit
    refine ⟨i, hi, ?_⟩
    rw [hkept i hi, hbit]
    rfl

/-! ## The order of parts -/

/-- What is below a number and has only bits of `m` stays below when the number is decreased and
    keeps its bits of `m` only. -/
theorem le_pred_and_of_lt {p q m : Nat} (hp : p &&& m = p) (hq : q &&& m = q) (h : q < p) :
    q ≤ (p - 1) &&& m := by
  -- the numbers are compared by their halves first, then by their lowest bits
  induction p using Nat.strongRecOn generalizing q m with
  | ind p ih =>
      have hhalf : ((p - 1) &&& m) / 2 = (p - 1) / 2 &&& m / 2 := Nat.and_div_two
      have hphalf : p / 2 &&& m / 2 = p / 2 := by rw [← Nat.and_div_two, hp]
      rcases Nat.mod_two_eq_zero_or_one p with heven | hodd
      · have hqhalf : q / 2 &&& m / 2 = q / 2 := by rw [← Nat.and_div_two, hq]
        have hle := ih (p / 2) (by omega) hphalf hqhalf (by omega)
        rw [show p / 2 - 1 = (p - 1) / 2 by omega, ← hhalf] at hle
        have hmod : ((p - 1) &&& m) % 2 = m % 2 := by
          have hbit : (p - 1) % 2 = 1 := by omega
          rcases Nat.mod_two_eq_zero_or_one m with hm | hm
          · rw [← Nat.pow_one 2, Nat.and_mod_two_pow, Nat.pow_one, hbit, hm]
            rfl
          · rw [← Nat.pow_one 2, Nat.and_mod_two_pow, Nat.pow_one, hbit, hm]
            rfl
        have hqmod : q % 2 ≤ m % 2 := by
          rw [← hq, ← Nat.pow_one 2, Nat.and_mod_two_pow]
          exact Nat.and_le_right
        omega
      · -- an odd number loses its lowest bit and keeps all others
        rw [show (p - 1) / 2 = p / 2 by omega, hphalf] at hhalf
        omega

section Walk

variable {observed : List Address} {mask part d : Mask}

/-- **NO PART IN BETWEEN**: the parts below a part are those from the next lower one on. -/
theorem le_lowerPart_iff (hpart : part &&& mask = part) (hne : part ≠ 0) (hd : d &&& mask = d) :
    d ≤ lowerPart mask part ↔ d < part := by
  constructor
  · intro hle
    exact Nat.lt_of_le_of_lt hle (lowerPart_lt hne)
  · intro hlt
    have hone : (1 : UInt64) ≤ part := by
      have hpos : d.toNat < part.toNat := hlt
      show 1 ≤ part.toNat
      omega
    show d.toNat ≤ (lowerPart mask part).toNat
    rw [lowerPart, UInt64.toNat_and, UInt64.toNat_sub_of_le _ _ hone]
    refine le_pred_and_of_lt ?_ ?_ hlt
    · rw [← UInt64.toNat_and, hpart]
    · rw [← UInt64.toNat_and, hd]

theorem lowerPart_isPart : lowerPart mask part &&& mask = lowerPart mask part := by
  rw [lowerPart, UInt64.and_assoc, UInt64.and_self]

/-- The walk from a part on meets the nonempty parts up to it. -/
theorem anyEquivalentFrom_iff (hpart : part &&& mask = part) :
    anyEquivalentFrom observed mask part = true ↔
      ∃ d, d ≠ 0 ∧ d &&& mask = d ∧ d ≤ part ∧ isEquivalent observed mask d = true := by
  fun_induction anyEquivalentFrom observed mask part with
  | case1 =>
      refine iff_of_false Bool.false_ne_true ?_
      rintro ⟨d, hne, -, hle, -⟩
      exact hne (UInt64.le_antisymm hle (UInt64.zero_le))
  | case2 part hne ih =>
      rw [Bool.or_eq_true, ih lowerPart_isPart]
      constructor
      · rintro (hequiv | ⟨d, hd, hdpart, hle, hequiv⟩)
        · exact ⟨part, hne, hpart, UInt64.le_refl part, hequiv⟩
        · have hlt := (le_lowerPart_iff hpart hne hdpart).mp hle
          exact ⟨d, hd, hdpart, UInt64.le_of_lt hlt, hequiv⟩
      · rintro ⟨d, hd, hdpart, hle, hequiv⟩
        by_cases heq : d = part
        · exact Or.inl (heq ▸ hequiv)
        · have hlt := UInt64.lt_of_le_of_ne hle heq
          exact Or.inr ⟨d, hd, hdpart, (le_lowerPart_iff hpart hne hdpart).mpr hlt, hequiv⟩

theorem le_of_isPart (hd : d &&& mask = d) : d ≤ mask := by
  rw [← hd, UInt64.le_iff_toNat_le, UInt64.toNat_and]
  exact Nat.and_le_right

/-- The walk of a mask starts at its largest proper part. -/
theorem le_lowerPart_self_iff (hd : d &&& mask = d) (hne : d ≠ 0) :
    d ≤ lowerPart mask mask ↔ d ≠ mask := by
  have hmask : mask ≠ 0 := by
    rintro rfl
    exact hne (by rw [← hd, UInt64.and_zero])
  rw [le_lowerPart_iff (UInt64.and_self) hmask hd]
  exact ⟨UInt64.ne_of_lt, UInt64.lt_of_le_of_ne (le_of_isPart hd)⟩

end Walk

/-! ## Constant parts -/

/-- A constant part is read alike off all observed addresses. -/
theorem isConstant_iff {observed : List Address} {part : Mask} :
    isConstant observed part = true ↔
      ∀ a ∈ observed, ∀ b ∈ observed, reads part a = reads part b := by
  cases observed with
  | nil => simp [isConstant]
  | cons first rest =>
      have hall : isConstant (first :: rest) part = true
          ↔ ∀ b ∈ rest, reads part b = reads part first := by
        rw [isConstant, List.all_eq_true]
        simp only [beq_iff_eq, parity_eq_iff]
      rw [hall]
      constructor
      · intro h
        have hfirst : ∀ a ∈ first :: rest, reads part a = reads part first := by
          intro a ha
          rcases List.mem_cons.mp ha with rfl | ha
          · rfl
          · exact h a ha
        intro a ha b hb
        rw [hfirst a ha, hfirst b hb]
      · intro h b hb
        exact h b (List.mem_cons_of_mem _ hb) first (List.mem_cons_self ..)

/-- What a part leaves out of the mask is a part that leaves out the first one. -/
theorem complement_isPart {mask d : Mask} (hne : d ≠ 0) (hproper : d ≠ mask)
    (hd : d &&& mask = d) :
    mask ^^^ d ≠ 0 ∧ mask ^^^ d ≠ mask ∧ (mask ^^^ d) &&& mask = mask ^^^ d
      ∧ mask ^^^ (mask ^^^ d) = d := by
  have hself : mask ^^^ (mask ^^^ d) = d := by
    rw [← UInt64.xor_assoc, UInt64.xor_self, UInt64.zero_xor]
  refine ⟨?_, ?_, ?_, hself⟩
  · intro hzero
    exact hproper (UInt64.xor_eq_zero_iff.mp hzero).symm
  · intro hall
    rw [hall, UInt64.xor_self] at hself
    exact hne hself.symm
  · rw [Bits.xor_and, UInt64.and_self, hd]

/-- A mask has a redundant part when a proper part that is not empty is constant. -/
theorem hasRedundantPart_iff {observed : List Address} {mask : Mask} :
    hasRedundantPart observed mask = true ↔
      ∃ d : Mask, d ≠ 0 ∧ d ≠ mask ∧ d &&& mask = d ∧ isConstant observed d = true := by
  rw [hasRedundantPart, Bool.or_eq_true, anyEquivalentFrom_iff lowerPart_isPart]
  simp only [List.any_eq_true, List.mem_map, Bool.and_eq_true, bne_iff_ne]
  constructor
  · rintro (⟨_, ⟨b, hb, rfl⟩, hne, hequiv⟩ | ⟨part, hne, hpart, hle, hequiv⟩)
    · -- the part without a bit leaves out this bit
      obtain ⟨i, hi, rfl⟩ := mem_bits.mp hb
      refine ⟨_, Bits.bit_ne_zero (Bits.lt_of_testBit hi), ?_, Bits.bit_and_of_testBit hi, ?_⟩
      · exact fun h => hne (UInt64.xor_eq_zero_iff.mpr h.symm)
      · rwa [isEquivalent, ← UInt64.xor_assoc, UInt64.xor_self, UInt64.zero_xor] at hequiv
    · have hproper := (le_lowerPart_self_iff hpart hne).mp hle
      obtain ⟨hne', hproper', hpart', -⟩ := complement_isPart hne hproper hpart
      exact ⟨_, hne', hproper', hpart', hequiv⟩
  · rintro ⟨d, hne, hproper, hpart, hconst⟩
    obtain ⟨hne', hproper', hpart', hself⟩ := complement_isPart hne hproper hpart
    refine Or.inr ⟨_, hne', hpart', (le_lowerPart_self_iff hpart' hne').mpr hproper', ?_⟩
    rwa [isEquivalent, hself]

/-- A mask is irreducible when every proper part that is not empty is read both ways. -/
theorem isIrreducible_iff {v : Validator} {mask : Mask} :
    v.isIrreducible mask = true ↔
      ∀ d : Mask, d ≠ 0 → d ≠ mask → d &&& mask = d →
        ∃ a ∈ v.groups.flatten, ∃ b ∈ v.groups.flatten, reads d a ≠ reads d b := by
  rw [isIrreducible, Bool.not_eq_true', ← Bool.not_eq_true, hasRedundantPart_iff]
  simp only [isConstant_iff]
  push Not
  rfl

/-- An accepted mask and all its parts that are not empty are read both ways. -/
theorem exists_reads_ne_of_check {v : Validator} (hm : v.Measurable) {mask : Mask}
    (h : v.check mask = .ok true) {d : Mask} (hne : d ≠ 0) (hpart : d &&& mask = d) :
    ∃ a ∈ v.groups.flatten, ∃ b ∈ v.groups.flatten, reads d a ≠ reads d b := by
  obtain ⟨-, hone, heven, hirr⟩ := (check_eq_true_iff hm).mp h
  by_cases hproper : d = mask
  · subst hproper
    obtain ⟨g, hg, hgone⟩ := List.countP_pos_iff.mp hone
    rw [heven] at hone
    obtain ⟨g', hg', hzero⟩ := List.countP_pos_iff.mp hone
    obtain ⟨a, ha, hra⟩ := exists_reads_of_leansOne hgone
    obtain ⟨b, hb, hrb⟩ := exists_reads_of_leansZero hzero
    refine ⟨a, List.mem_flatten.mpr ⟨g, hg, ha⟩, b, List.mem_flatten.mpr ⟨g', hg', hb⟩, ?_⟩
    rw [hra, hrb]
    exact Bool.true_eq_false_eq_False
  · exact isIrreducible_iff.mp hirr d hne hproper hpart

/-! ## The decision -/

/-- A mask that two addresses read differently is read both ways. -/
theorem exists_reads_of_ne {observed : List Address} {d : Mask} {a b : Address}
    (ha : a ∈ observed) (hb : b ∈ observed) (h : reads d a ≠ reads d b) (r : Bool) :
    ∃ c ∈ observed, reads d c = r := by
  by_cases hread : reads d a = r
  · exact ⟨a, ha, hread⟩
  · refine ⟨b, hb, ?_⟩
    rw [Bool.eq_not.mpr h.symm, Bool.eq_not.mpr hread, Bool.not_not]

/-- **IRREDUCIBILITY** is decided exactly: for any grouping and any mask, the walk over the parts
    ends, and the mask is turned down exactly when some proper part of its bits, not empty, has one
    parity over all observed addresses.  So every part of an accepted mask, single bits and the
    whole mask among them, takes both parities. -/
theorem irreducibility_exact (v : Validator) (mask : Mask) :
    (v.isIrreducible mask = false ↔
        ∃ d : Mask, d ≠ 0 ∧ d ≠ mask ∧ d &&& mask = d
          ∧ ∀ a ∈ v.groups.flatten, ∀ b ∈ v.groups.flatten,
              Bits.parity (a &&& d) = Bits.parity (b &&& d))
      ∧ (v.errorPercentage ≤ 100 → (∀ g ∈ v.groups, g.length * 100 < 2 ^ 64) →
          v.check mask = .ok true → ∀ d : Mask, d ≠ 0 → d &&& mask = d →
            (∃ a ∈ v.groups.flatten, Bits.parity (a &&& d) = 0)
              ∧ ∃ a ∈ v.groups.flatten, Bits.parity (a &&& d) = 1) := by
  constructor
  · rw [isIrreducible, Bool.not_eq_false', hasRedundantPart_iff]
    simp only [isConstant_iff, parity_eq_iff]
  · intro hp hsize hcheck d hne hpart
    obtain ⟨a, ha, b, hb, hread⟩ :=
      exists_reads_ne_of_check (measurable_of_percentage hp hsize) hcheck hne hpart
    obtain ⟨c, hc, hzero⟩ := exists_reads_of_ne ha hb hread false
    obtain ⟨e, he, hone⟩ := exists_reads_of_ne ha hb hread true
    simp only [parity_eq_reads]
    exact ⟨⟨c, hc, by rw [hzero]; rfl⟩, ⟨e, he, by rw [hone]; rfl⟩⟩

theorem irreducibility_exact_two_bits :
    (⟨[[14, 8], [10, 12]], 49⟩ : Validator).check 6 = .ok true
      ∧ (∃ a ∈ [14, 8, 10, 12], Bits.parity (a &&& 4) = 0)
      ∧ ∃ a ∈ [14, 8, 10, 12], Bits.parity (a &&& 4) = 1 := by
  have hcheck : (⟨[[14, 8], [10, 12]], 49⟩ : Validator).check 6 = .ok true := by decide +kernel
  exact ⟨hcheck, (irreducibility_exact ⟨[[14, 8], [10, 12]], 49⟩ 6).2 (by decide) (by decide)
    hcheck 4 (by decide) (by decide)⟩

end DramBanks.Mask.Validator
