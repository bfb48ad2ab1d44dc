import DramBanks.Classifier
import DramBanks.Proofs.Mask.Balance
import DramBanks.Proofs.Mask.Verdict
import Mathlib.Data.List.Pairwise
import Mathlib.Data.List.Perm.Basic
/-!
# Classes of a complete block

    The addresses of an aligned block, `2 ^ s` apart, form a COSET: XOR
    with any word whose bits lie in positions `s` to `n - 1` permutes
    them.  Independent masks are balanced on a coset, so that it falls into
    `2 ^ k` classes of one size (`length_groups`), half of which a mask of
    the span reads as `true` (`half_of_groups`).  A mask outside of the
    span reads half of every class as `true` (`half_of_group`): adding a
    separating word stays inside the class and changes what is read. -/

namespace DramBanks.Mask

variable {s n : Nat} {ms : List Mask} {observed : List Address} {groups : List (List Address)}

/-- Two addresses have equal parities under every mask of a list. -/
def Alike (ms : List Mask) (a b : Address) : Prop :=
  ∀ m ∈ ms, Bits.parity (a &&& m) = Bits.parity (b &&& m)

/-- The groups are the classes of the observed addresses under equal parities, in any order. -/
structure IsClassification (ms : List Mask) (observed : List Address)
    (groups : List (List Address)) : Prop where
  perm : groups.flatten.Perm observed
  nonempty : ∀ g ∈ groups, g ≠ []
  alike : ∀ g ∈ groups, ∀ a ∈ g, ∀ b ∈ g, Alike ms a b
  apart : groups.Pairwise fun g h => ∀ a ∈ g, ∀ b ∈ h, ¬ Alike ms a b

/-- The addresses are all those that differ from each other in positions `s` to `n - 1`. -/
structure IsCoset (s n : Nat) (observed : List Address) : Prop where
  nonempty : observed ≠ []
  nodup : observed.Nodup
  mem_iff : ∀ a ∈ observed, ∀ b, b ∈ observed ↔ Within s n (a ^^^ b)

theorem alike_iff {a b : Address} : Alike ms a b ↔ ∀ m ∈ ms, reads m a = reads m b :=
  forall₂_congr fun _ _ => parity_eq_iff

/-! ## Aligned blocks -/

theorem toNat_two_pow_mul_add_xor {a b : Nat} (hb : b < 2 ^ n) :
    (2 ^ n * a + b) ^^^ (2 ^ n * a) = b := by
  refine Nat.eq_of_testBit_eq ?_
  intro i
  rw [Nat.testBit_xor, Nat.testBit_two_pow_mul_add a hb, Nat.testBit_two_pow_mul]
  by_cases hi : i < n
  · simp [hi, Nat.not_le_of_lt hi]
  · have hbit : b.testBit i = false :=
      Nat.testBit_lt_two_pow (Nat.lt_of_lt_of_le hb (Nat.pow_le_pow_right Nat.two_pos (by omega)))
    simp [hi, Nat.le_of_not_lt hi, hbit]

theorem offset_lt (hsn : s ≤ n) {j : Nat} (hj : j < 2 ^ (n - s)) : j * 2 ^ s < 2 ^ n := by
  rw [← Nat.pow_sub_mul_pow 2 hsn]
  exact Nat.mul_lt_mul_of_pos_right hj (Nat.two_pow_pos s)

section Progression

variable {base step : UInt64} (hsn : s ≤ n) (hn : n ≤ 64) (hbase : 2 ^ n ∣ base.toNat)
  (hstep : step.toNat = 2 ^ s)
include hsn hn hbase hstep

/-- An offset below the size of an aligned block is added without leaving the word. -/
theorem toNat_add_offset {j : Nat} (hj : j < 2 ^ (n - s)) :
    (base + UInt64.ofNat j * step).toNat = base.toNat + j * 2 ^ s := by
  obtain ⟨k, hk⟩ := hbase
  -- the aligned block ends inside the word, as its size divides the size of the word
  have hword : 2 ^ 64 = 2 ^ n * 2 ^ (64 - n) := by rw [Nat.mul_comm, Nat.pow_sub_mul_pow 2 hn]
  have hroom : base.toNat + 2 ^ n ≤ 2 ^ 64 := by
    have hlt := UInt64.toNat_lt base
    rw [hk, hword] at hlt
    rw [hk, hword, ← Nat.mul_succ]
    exact Nat.mul_le_mul_left _ (Nat.lt_of_mul_lt_mul_left hlt)
  have hlt := offset_lt hsn hj
  have hj64 : j < 2 ^ 64 := Nat.lt_of_lt_of_le hj (Nat.pow_le_pow_right Nat.two_pos (by omega))
  rw [UInt64.toNat_add, UInt64.toNat_mul, hstep, UInt64.toNat_ofNat', Nat.mod_eq_of_lt hj64,
    Nat.mod_eq_of_lt (by omega), Nat.mod_eq_of_lt (by omega)]

theorem toNat_offset_xor {j : Nat} (hj : j < 2 ^ (n - s)) :
    ((base + UInt64.ofNat j * step) ^^^ base).toNat = j * 2 ^ s := by
  have hadd := toNat_add_offset hsn hn hbase hstep hj
  obtain ⟨k, hk⟩ := hbase
  rw [UInt64.toNat_xor, hadd, hk, toNat_two_pow_mul_add_xor (offset_lt hsn hj)]

/-- The addresses of an aligned block are its base changed in positions `s` to `n - 1`. -/
theorem mem_progression {a : Address} :
    a ∈ Classifier.progression base step (2 ^ (n - s)) ↔ Within s n (a ^^^ base) := by
  rw [Classifier.progression, List.mem_map, Within.iff_mod_lt]
  constructor
  · rintro ⟨j, hj, rfl⟩
    rw [List.mem_range] at hj
    rw [toNat_offset_xor hsn hn hbase hstep hj]
    exact ⟨Nat.mul_mod_left j _, offset_lt hsn hj⟩
  · rintro ⟨hmod, hlt⟩
    obtain ⟨j, hj⟩ := Nat.dvd_of_mod_eq_zero hmod
    have hjlt : j < 2 ^ (n - s) := by
      rw [hj, ← Nat.pow_sub_mul_pow 2 hsn, Nat.mul_comm] at hlt
      exact Nat.lt_of_mul_lt_mul_right hlt
    refine ⟨j, List.mem_range.mpr hjlt, ?_⟩
    refine (UInt64.xor_left_inj base).mp (UInt64.toNat_inj.mp ?_)
    rw [toNat_offset_xor hsn hn hbase hstep hjlt, hj, Nat.mul_comm]

/-- An aligned block, cut into smaller blocks, is a coset. -/
theorem isCoset_progression : IsCoset s n (Classifier.progression base step (2 ^ (n - s))) := by
  have hmem := fun a => mem_progression hsn hn hbase hstep (a := a)
  refine ⟨?_, ?_, ?_⟩
  · refine List.ne_nil_of_mem (a := base) ((hmem base).mpr ?_)
    rw [UInt64.xor_self]
    exact Within.zero
  · refine List.Nodup.map_on ?_ List.nodup_range
    intro i hi j hj hij
    rw [List.mem_range] at hi hj
    have hnat := congrArg UInt64.toNat hij
    rw [toNat_add_offset hsn hn hbase hstep hi, toNat_add_offset hsn hn hbase hstep hj] at hnat
    exact Nat.eq_of_mul_eq_mul_right (Nat.two_pow_pos s) (Nat.add_left_cancel hnat)
  · -- the difference of two members is the XOR of their differences from the base
    intro a ha b
    have ha' := (hmem a).mp ha
    rw [hmem b]
    constructor
    · intro hb
      have h := ha'.xor hb
      rwa [show a ^^^ base ^^^ (b ^^^ base) = a ^^^ b by
        rw [UInt64.xor_comm b, ← UInt64.xor_assoc, xor_xor_cancel]] at h
    · intro hb
      have h := ha'.xor hb
      rwa [show a ^^^ base ^^^ (a ^^^ b) = b ^^^ base by
        rw [UInt64.xor_comm a, UInt64.xor_assoc, ← UInt64.xor_assoc a, UInt64.xor_self,
          UInt64.zero_xor, UInt64.xor_comm]] at h

end Progression

/-! ## Halves -/

theorem IsCoset.xor_mem (h : IsCoset s n observed) {a d : Address} (ha : a ∈ observed)
    (hd : Within s n d) : a ^^^ d ∈ observed := by
  rw [h.mem_iff a ha, ← UInt64.xor_assoc, UInt64.xor_self, UInt64.zero_xor]
  exact hd

/-- A list that is closed under adding a word read as `true` is read as `true` in half of its
    places. -/
theorem half_of_closed {l : List Address} (hnodup : l.Nodup) {m d : Mask}
    (hclosed : ∀ a ∈ l, a ^^^ d ∈ l) (hd : reads m d = true) :
    2 * l.countP (reads m) = l.length := by
  have hinj : Function.Injective (· ^^^ d : Address → Address) :=
    fun x y hxy => (UInt64.xor_left_inj d).mp hxy
  have hsub : l.map (· ^^^ d) ⊆ l := by
    intro x hx
    obtain ⟨a, ha, rfl⟩ := List.mem_map.mp hx
    exact hclosed a ha
  have hperm : (l.map (· ^^^ d)).Perm l :=
    ((hnodup.map hinj).subperm hsub).perm_of_length_le (by rw [List.length_map])
  -- the permutation exchanges what is read as `true` with what is read as `false`
  have hflip : l.countP (reads m) = l.countP fun a => ¬ reads m a := by
    rw [← hperm.countP_eq, List.countP_map]
    refine List.countP_congr ?_
    intro a _
    show reads m (a ^^^ d) = true ↔ _
    rw [reads_xor, hd]
    cases reads m a <;> simp
  have hall := List.length_eq_countP_add_countP (reads m) (l := l)
  rw [← hflip] at hall
  omega

/-- Flipping a bit of the mask exchanges the halves that the mask cuts a coset into. -/
theorem IsCoset.half (h : IsCoset s n observed) {m : Mask} (hne : m ≠ 0) (hm : Within s n m) :
    2 * observed.countP (reads m) = observed.length := by
  obtain ⟨i, hi, hbit, hreads⟩ := exists_reads hne
  obtain ⟨hlo, hhi⟩ := hm i hbit
  exact half_of_closed h.nodup (fun a ha => h.xor_mem ha (Within.bit hi hlo hhi)) hreads

/-- Independent masks are balanced on a coset. -/
theorem IsCoset.balanced (h : IsCoset s n observed) (hind : Independent ms)
    (hms : ∀ m ∈ ms, Within s n m) : Balanced ms observed := by
  intro sub hsub hne
  refine h.half (hind sub hsub hne) ?_
  exact Spanned.within hms ⟨sub, fun m hm => hsub.subset hm, rfl⟩

/-! ## Groups -/

namespace IsClassification

variable (hgroups : IsClassification ms observed groups) (hobserved : IsCoset s n observed)
include hgroups

theorem mem_observed {g : List Address} (hg : g ∈ groups) {a : Address} (ha : a ∈ g) :
    a ∈ observed :=
  hgroups.perm.mem_iff.mp (List.mem_flatten.mpr ⟨g, hg, ha⟩)

theorem exists_group {a : Address} (ha : a ∈ observed) : ∃ g ∈ groups, a ∈ g :=
  List.mem_flatten.mp (hgroups.perm.mem_iff.mpr ha)

/-- A group holds all observed addresses that are like one of its members. -/
theorem mem_of_alike {g : List Address} (hg : g ∈ groups) {a b : Address} (ha : a ∈ g)
    (hb : b ∈ observed) (hab : Alike ms a b) : b ∈ g := by
  obtain ⟨h, hh, hbh⟩ := hgroups.exists_group hb
  by_cases hgh : g = h
  · rwa [hgh]
  · have hsymm : Std.Symm fun g h : List Address => ∀ a ∈ g, ∀ b ∈ h, ¬ Alike ms a b := by
      refine ⟨?_⟩
      intro x y hxy b hb a ha hba
      exact hxy a ha b hb fun m hm => (hba m hm).symm
    exact absurd hab (hgroups.apart.forall hg hh hgh a ha b hbh)

include hobserved

theorem nodup_group {g : List Address} (hg : g ∈ groups) : g.Nodup :=
  (List.nodup_flatten.mp (hgroups.perm.nodup_iff.mpr hobserved.nodup)).1 g hg

/-- All groups have the same number of members. -/
theorem length_group (hind : Independent ms) (hms : ∀ m ∈ ms, Within s n m) {g : List Address}
    (hg : g ∈ groups) : 2 ^ ms.length * g.length = observed.length := by
  obtain ⟨a, ha⟩ := List.exists_mem_of_ne_nil g (hgroups.nonempty g hg)
  have hperm : g.Perm (observed.filter fun b => ms.all fun m => reads m b == reads m a) := by
    refine (List.perm_ext_iff_of_nodup (hgroups.nodup_group hobserved hg)
      (hobserved.nodup.filter _)).mpr ?_
    intro b
    rw [List.mem_filter, List.all_eq_true]
    constructor
    · intro hb
      refine ⟨hgroups.mem_observed hg hb, ?_⟩
      intro m hm
      exact beq_iff_eq.mpr (alike_iff.mp (hgroups.alike g hg b hb a ha) m hm)
    · rintro ⟨hb, hall⟩
      refine hgroups.mem_of_alike hg ha hb (alike_iff.mpr ?_)
      intro m hm
      exact (beq_iff_eq.mp (hall m hm)).symm
  -- the group is a class of the block, whose size does not depend on the parities
  rw [hperm.length_eq]
  exact (hobserved.balanced hind hms).length_class a

/-- Counting members group by group, where every group counts as a whole or not at all. -/
theorem countP_observed (hind : Independent ms) (hms : ∀ m ∈ ms, Within s n m)
    {q : Address → Bool} {p : List Address → Bool} (hp : ∀ g ∈ groups, ∀ a ∈ g, q a = p g) :
    2 ^ ms.length * observed.countP q = groups.countP p * observed.length := by
  -- by induction on some of the groups, as the observed addresses are those of all groups
  have hsum : ∀ gs : List (List Address), gs ⊆ groups →
      2 ^ ms.length * gs.flatten.countP q = gs.countP p * observed.length := by
    intro gs hgs
    induction gs with
    | nil => simp
    | cons g gs ih =>
        have hg : g ∈ groups := hgs (List.mem_cons_self ..)
        have hsize := hgroups.length_group hobserved hind hms hg
        have htail := ih fun x hx => hgs (List.mem_cons_of_mem _ hx)
        rw [List.flatten_cons, List.countP_append, Nat.mul_add, htail, List.countP_cons]
        cases hpg : p g with
        | true =>
            have hall : g.countP q = g.length :=
              List.countP_eq_length.mpr fun a ha => (hp g hg a ha).trans hpg
            rw [hall, hsize, if_pos rfl, Nat.add_mul, Nat.one_mul, Nat.add_comm]
        | false =>
            have hnone : g.countP q = 0 := by
              rw [List.countP_eq_zero]
              intro a ha
              rw [hp g hg a ha, hpg]
              exact Bool.false_ne_true
            rw [hnone, if_neg Bool.false_ne_true, Nat.mul_zero, Nat.zero_add, Nat.add_zero]
  have h := hsum groups (fun _ hg => hg)
  rwa [hgroups.perm.countP_eq] at h

/-- There is a group for every choice of parities. -/
theorem length_groups (hind : Independent ms) (hms : ∀ m ∈ ms, Within s n m) :
    groups.length = 2 ^ ms.length := by
  have hpos : 0 < observed.length := List.length_pos_iff.mpr hobserved.nonempty
  have h := hgroups.countP_observed hobserved hind hms (q := fun _ => true) (p := fun _ => true)
    fun _ _ _ _ => rfl
  rw [List.countP_true, List.countP_true] at h
  exact (Nat.eq_of_mul_eq_mul_right hpos h).symm

/-- A mask outside of the span reads half of every group as `true`. -/
theorem half_of_group {m : Mask} (hms : ∀ k ∈ ms, Within s n k) (hm : Within s n m)
    (hout : ¬ Spanned {k | k ∈ ms} m) {g : List Address} (hg : g ∈ groups) :
    2 * g.countP (reads m) = g.length := by
  obtain ⟨d, hdw, hd, hdms⟩ := exists_separating hms hm hout
  refine half_of_closed (hgroups.nodup_group hobserved hg) (d := d) ?_ hd
  intro a ha
  refine hgroups.mem_of_alike hg ha (hobserved.xor_mem (hgroups.mem_observed hg ha) hdw) ?_
  rw [alike_iff]
  intro k hk
  rw [reads_xor, hdms k hk, Bool.xor_false]

/-- A mask of the span that is not zero reads half of the groups as `true`. -/
theorem half_of_groups (hind : Independent ms) (hms : ∀ k ∈ ms, Within s n k) {m : Mask}
    (hne : m ≠ 0) (hspan : Spanned {k | k ∈ ms} m) {p : List Address → Bool}
    (hp : ∀ g ∈ groups, ∀ a ∈ g, reads m a = p g) :
    2 * groups.countP p = groups.length := by
  have hpos : 0 < observed.length := List.length_pos_iff.mpr hobserved.nonempty
  have hhalf := hobserved.half hne (hspan.within hms)
  have hcount := hgroups.countP_observed hobserved hind hms hp
  refine Nat.eq_of_mul_eq_mul_right hpos ?_
  calc 2 * groups.countP p * observed.length
      = 2 * (2 ^ ms.length * observed.countP (reads m)) := by rw [Nat.mul_assoc, hcount]
    _ = 2 ^ ms.length * (2 * observed.countP (reads m)) := Nat.mul_left_comm _ _ _
    _ = groups.length * observed.length := by
        rw [hhalf, hgroups.length_groups hobserved hind hms]

end IsClassification

end DramBanks.Mask
