import DramBanks.Mask.Basis
import DramBanks.Proofs.Parity
import Mathlib.Data.List.Perm.Subperm
import Mathlib.Data.List.Sublists
import Mathlib.Data.Multiset.Sort
import Mathlib.Data.Set.Basic
/-!
# Spans of masks

    The sums of a set of masks form its span; a list of masks is
    independent when none of its nonempty sublists sums up to zero.  Two
    facts carry the rest:

    * a mask outside of a span is SEPARATED from it: some address is read
      as `true` by the mask and as `false` by the whole span
      (`exists_separating`);
    * the `2 ^ k` sums of `k` independent masks are distinct
      (`nodup_sums`), so the size of a span tells the length of a basis.

    The greedy basis is independent and spans what it was given. -/

namespace DramBanks.Mask

/-! ## Sums -/

/-- The sum of a list of masks. -/
def total (ms : List Mask) : Mask := ms.foldr (· ^^^ ·) 0

/-- The word is a sum of masks of the set. -/
def Spanned (S : Set Mask) (x : Mask) : Prop :=
  ∃ ms : List Mask, (∀ m ∈ ms, m ∈ S) ∧ total ms = x

/-- No nonempty sublist sums up to zero. -/
def Independent (ms : List Mask) : Prop :=
  ∀ sub : List Mask, sub.Sublist ms → sub ≠ [] → total sub ≠ 0

/-- The masks are independent, and their sums are the members of the set. -/
structure IsBasis (ms : List Mask) (S : Set Mask) : Prop where
  independent : Independent ms
  span : ∀ x, Spanned {m | m ∈ ms} x ↔ x ∈ S

@[simp] theorem total_nil : total [] = 0 := rfl

@[simp] theorem total_cons (m : Mask) (ms : List Mask) : total (m :: ms) = m ^^^ total ms := rfl

theorem total_append (xs ys : List Mask) : total (xs ++ ys) = total xs ^^^ total ys := by
  induction xs with
  | nil => rw [List.nil_append, total_nil, UInt64.zero_xor]
  | cons m xs ih => rw [List.cons_append, total_cons, total_cons, ih, UInt64.xor_assoc]

/-- The order of the summands does not matter. -/
theorem total_perm {xs ys : List Mask} (h : xs.Perm ys) : total xs = total ys := by
  induction h with
  | nil => rfl
  | cons m _ ih => rw [total_cons, total_cons, ih]
  | swap m n xs =>
      simp only [total_cons]
      ac_rfl
  | trans _ _ ih1 ih2 => exact ih1.trans ih2

/-- A sum is added by adding it once more. -/
theorem xor_xor_cancel (a b : Mask) : (a ^^^ b) ^^^ b = a := by
  rw [UInt64.xor_assoc, UInt64.xor_self, UInt64.xor_zero]

/-! ## Spans -/

namespace Spanned

variable {S T : Set Mask} {x y : Mask}

theorem zero : Spanned S 0 := ⟨[], by simp, rfl⟩

theorem of_mem (h : x ∈ S) : Spanned S x := ⟨[x], by simpa using h, UInt64.xor_zero⟩

theorem xor (hx : Spanned S x) (hy : Spanned S y) : Spanned S (x ^^^ y) := by
  obtain ⟨xs, hxs, rfl⟩ := hx
  obtain ⟨ys, hys, rfl⟩ := hy
  refine ⟨xs ++ ys, ?_, total_append xs ys⟩
  intro m hm
  rcases List.mem_append.mp hm with h | h
  · exact hxs m h
  · exact hys m h

/-- A span contains the sums of its members. -/
theorem trans (h : ∀ m ∈ S, Spanned T m) (hx : Spanned S x) : Spanned T x := by
  obtain ⟨ms, hms, rfl⟩ := hx
  induction ms with
  | nil => exact zero
  | cons m ms ih =>
      have hhead : Spanned T m := h m (hms m (List.mem_cons_self ..))
      have htail : Spanned T (total ms) := ih fun n hn => hms n (List.mem_cons_of_mem _ hn)
      exact xor hhead htail

theorem mono (h : S ⊆ T) (hx : Spanned S x) : Spanned T x :=
  trans (fun _ hm => of_mem (h hm)) hx

/-- Sums have bits only where the summands have some. -/
theorem within {lo hi : Nat} (h : ∀ m ∈ S, Within lo hi m) (hx : Spanned S x) :
    Within lo hi x := by
  obtain ⟨ms, hms, rfl⟩ := hx
  induction ms with
  | nil => exact Within.zero
  | cons m ms ih =>
      have hhead := h m (hms m (List.mem_cons_self ..))
      exact hhead.xor (ih fun n hn => hms n (List.mem_cons_of_mem _ hn))

/-- Whoever reads two addresses alike by the masks of a set does so by their sums. -/
theorem reads_eq {a b : Address} (h : ∀ m ∈ S, reads m a = reads m b) (hx : Spanned S x) :
    reads x a = reads x b := by
  obtain ⟨ms, hms, rfl⟩ := hx
  induction ms with
  | nil => simp
  | cons m ms ih =>
      have hhead := h m (hms m (List.mem_cons_self ..))
      have htail := ih fun n hn => hms n (List.mem_cons_of_mem _ hn)
      rw [total_cons, xor_reads, xor_reads, hhead, htail]

end Spanned

/-- A sum of `m :: ms` either has `m` among its summands or not. -/
theorem spanned_cons_iff {m x : Mask} {ms : List Mask} :
    Spanned {k | k ∈ m :: ms} x ↔
      Spanned {k | k ∈ ms} x ∨ Spanned {k | k ∈ ms} (x ^^^ m) := by
  constructor
  · rintro ⟨ks, hks, rfl⟩
    induction ks with
    | nil => exact Or.inl Spanned.zero
    | cons k ks ih =>
        have htail := ih fun j hj => hks j (List.mem_cons_of_mem _ hj)
        rw [total_cons]
        rcases List.mem_cons.mp (hks k (List.mem_cons_self ..)) with rfl | hk
        · rcases htail with h | h
          · refine Or.inr ?_
            rwa [UInt64.xor_comm k, xor_xor_cancel]
          · exact Or.inl (by rwa [UInt64.xor_comm])
        · have hspan : Spanned {j | j ∈ ms} k := Spanned.of_mem hk
          rcases htail with h | h
          · exact Or.inl (hspan.xor h)
          · exact Or.inr (by rw [UInt64.xor_assoc]; exact hspan.xor h)
  · have hmono : {k | k ∈ ms} ⊆ {k | k ∈ m :: ms} := fun k hk => List.mem_cons_of_mem _ hk
    rintro (h | h)
    · exact h.mono hmono
    · have hm : Spanned {k | k ∈ m :: ms} m := Spanned.of_mem (List.mem_cons_self ..)
      have hsum := (h.mono hmono).xor hm
      rwa [xor_xor_cancel] at hsum

/-- The sums of a list are those of its sublists. -/
theorem spanned_iff_sublist {x : Mask} {ms : List Mask} :
    Spanned {k | k ∈ ms} x ↔ ∃ sub : List Mask, sub.Sublist ms ∧ total sub = x := by
  constructor
  · intro h
    induction ms generalizing x with
    | nil =>
        obtain ⟨ks, hks, rfl⟩ := h
        have hnil : ks = [] := List.eq_nil_iff_forall_not_mem.mpr fun k hk => nomatch hks k hk
        exact ⟨[], List.Sublist.refl _, by rw [hnil]⟩
    | cons m ms ih =>
        rcases spanned_cons_iff.mp h with h | h
        · obtain ⟨sub, hsub, htotal⟩ := ih h
          exact ⟨sub, hsub.cons m, htotal⟩
        · obtain ⟨sub, hsub, htotal⟩ := ih h
          refine ⟨m :: sub, hsub.cons_cons m, ?_⟩
          rw [total_cons, htotal, UInt64.xor_comm, xor_xor_cancel]
  · rintro ⟨sub, hsub, htotal⟩
    exact ⟨sub, fun k hk => hsub.subset hk, htotal⟩

/-! ## Separation -/

/-- **SEPARATION**: a mask outside of the span of a list reads some address as `true` that the
    whole list reads as `false`.  The address has bits only where the masks have some. -/
theorem exists_separating {lo hi : Nat} {ms : List Mask} {x : Mask}
    (hms : ∀ m ∈ ms, Within lo hi m) (hx : Within lo hi x) (h : ¬ Spanned {k | k ∈ ms} x) :
    ∃ d : Address, Within lo hi d ∧ reads x d = true ∧ ∀ m ∈ ms, reads m d = false := by
  induction ms generalizing x with
  | nil =>
      have hne : x ≠ 0 := by
        rintro rfl
        exact h Spanned.zero
      obtain ⟨i, hi64, hbit, hreads⟩ := exists_reads hne
      obtain ⟨hlo, hhi⟩ := hx i hbit
      exact ⟨Bits.bit i, Within.bit hi64 hlo hhi, hreads, by simp⟩
  | cons m ms ih =>
      rw [spanned_cons_iff, not_or] at h
      have hm := hms m (List.mem_cons_self ..)
      have htail : ∀ k ∈ ms, Within lo hi k := fun k hk => hms k (List.mem_cons_of_mem _ hk)
      obtain ⟨d, hdw, hd, hdms⟩ := ih htail hx h.1
      obtain ⟨e, hew, he, hems⟩ := ih htail (hx.xor hm) h.2
      rw [xor_reads] at he
      -- one of `d`, `e` and their sum is read as `false` by `m` and as `true` by `x`
      cases hmd : reads m d with
      | false => exact ⟨d, hdw, hd, by simpa [hmd] using hdms⟩
      | true =>
          cases hme : reads m e with
          | false =>
              rw [hme, Bool.xor_false] at he
              exact ⟨e, hew, he, by simpa [hme] using hems⟩
          | true =>
              rw [hme] at he
              refine ⟨d ^^^ e, hdw.xor hew, by rw [reads_xor, hd]; simpa using he, ?_⟩
              intro k hk
              rw [reads_xor]
              rcases List.mem_cons.mp hk with rfl | hk
              · rw [hmd, hme]
                rfl
              · rw [hdms k hk, hems k hk]
                rfl

/-! ## Independence -/

theorem independent_nil : Independent [] := by
  intro sub hsub hne
  exact absurd (List.sublist_nil.mp hsub) hne

/-- A list is independent when its head is no sum of its independent tail. -/
theorem independent_cons {m : Mask} {ms : List Mask} :
    Independent (m :: ms) ↔ ¬ Spanned {k | k ∈ ms} m ∧ Independent ms := by
  constructor
  · intro h
    refine ⟨?_, fun sub hsub => h sub (hsub.cons m)⟩
    intro hspan
    obtain ⟨sub, hsub, rfl⟩ := spanned_iff_sublist.mp hspan
    refine h (total sub :: sub) (hsub.cons_cons _) (List.cons_ne_nil _ _) ?_
    rw [total_cons, UInt64.xor_self]
  · rintro ⟨hspan, hind⟩ sub hsub hne hzero
    cases hsub with
    | cons _ hsub => exact hind sub hsub hne hzero
    | cons_cons _ hsub =>
        rw [total_cons, UInt64.xor_eq_zero_iff] at hzero
        exact hspan (spanned_iff_sublist.mpr ⟨_, hsub, hzero.symm⟩)

/-- The order of independent masks does not matter. -/
theorem Independent.perm {xs ys : List Mask} (h : xs.Perm ys) (hind : Independent xs) :
    Independent ys := by
  intro sub hsub hne hzero
  obtain ⟨sub', hperm, hsub'⟩ := List.exists_perm_sublist hsub h.symm
  refine hind sub' hsub' ?_ ((total_perm hperm).trans hzero)
  intro hnil
  rw [hnil] at hperm
  exact hne hperm.nil_eq.symm

/-- Independent masks at different positions are different. -/
theorem Independent.nodup {ms : List Mask} (hind : Independent ms) : ms.Nodup := by
  induction ms with
  | nil => exact List.nodup_nil
  | cons m ms ih =>
      obtain ⟨hspan, htail⟩ := independent_cons.mp hind
      exact List.nodup_cons.mpr ⟨fun hm => hspan (Spanned.of_mem hm), ih htail⟩

/-! ## Counting sums -/

/-- All sums of a list, the empty sum among them. -/
def sums : List Mask → List Mask
  | [] => [0]
  | m :: ms => sums ms ++ (sums ms).map (· ^^^ m)

theorem length_sums (ms : List Mask) : (sums ms).length = 2 ^ ms.length := by
  induction ms with
  | nil => rfl
  | cons m ms ih =>
      rw [sums, List.length_append, List.length_map, ih, List.length_cons, Nat.pow_succ]
      omega

theorem mem_map_xor {m x : Mask} {xs : List Mask} :
    x ∈ xs.map (· ^^^ m) ↔ x ^^^ m ∈ xs := by
  rw [List.mem_map]
  constructor
  · rintro ⟨y, hy, rfl⟩
    rwa [xor_xor_cancel]
  · intro h
    exact ⟨x ^^^ m, h, xor_xor_cancel x m⟩

theorem mem_sums {ms : List Mask} {x : Mask} : x ∈ sums ms ↔ Spanned {k | k ∈ ms} x := by
  induction ms generalizing x with
  | nil =>
      rw [spanned_iff_sublist]
      simp [sums, eq_comm]
  | cons m ms ih => rw [sums, List.mem_append, mem_map_xor, ih, ih, spanned_cons_iff]

/-- The sums of independent masks are distinct. -/
theorem nodup_sums {ms : List Mask} (h : Independent ms) : (sums ms).Nodup := by
  induction ms with
  | nil => exact List.nodup_singleton 0
  | cons m ms ih =>
      obtain ⟨hspan, htail⟩ := independent_cons.mp h
      have hinj : Function.Injective (· ^^^ m : Mask → Mask) :=
        fun x y hxy => (UInt64.xor_left_inj m).mp hxy
      refine List.nodup_append'.mpr ⟨ih htail, (ih htail).map hinj, ?_⟩
      intro x hx hxm
      rw [mem_map_xor, mem_sums] at hxm
      -- a common member of both halves would make `m` a sum of the tail
      have hm := (mem_sums.mp hx).xor hxm
      rw [← UInt64.xor_assoc, UInt64.xor_self, UInt64.zero_xor] at hm
      exact hspan hm

/-- Independent masks within a span are no more than the masks that span it. -/
theorem length_le_of_spanned {bs ms : List Mask} (hind : Independent bs)
    (h : ∀ b ∈ bs, Spanned {k | k ∈ ms} b) : bs.length ≤ ms.length := by
  have hsub : sums bs ⊆ sums ms := by
    intro x hx
    exact mem_sums.mpr ((mem_sums.mp hx).trans h)
  have hle := ((nodup_sums hind).subperm hsub).length_le
  rw [length_sums, length_sums] at hle
  exact (Nat.pow_le_pow_iff_right Nat.one_lt_two).mp hle

/-- As many independent masks within a span as span it span all of it. -/
theorem spanned_of_length_le {bs ms : List Mask} (hind : Independent bs)
    (h : ∀ b ∈ bs, Spanned {k | k ∈ ms} b) (hlen : ms.length ≤ bs.length) {x : Mask}
    (hx : Spanned {k | k ∈ ms} x) : Spanned {k | k ∈ bs} x := by
  have hsub : sums bs ⊆ sums ms := by
    intro y hy
    exact mem_sums.mpr ((mem_sums.mp hy).trans h)
  have hle : (sums ms).length ≤ (sums bs).length := by
    rw [length_sums, length_sums]
    exact Nat.pow_le_pow_right Nat.two_pos hlen
  have hperm := ((nodup_sums hind).subperm hsub).perm_of_length_le hle
  exact mem_sums.mp (hperm.mem_iff.mpr (mem_sums.mpr hx))

/-! ## The greedy basis -/

/-- Extending a basis whose sums are known keeps it independent. -/
theorem independent_extend {done : List Mask} (span ms : List Mask)
    (hspan : ∀ x, x ∈ span ↔ Spanned {k | k ∈ done} x) (hind : Independent done) :
    Independent (extend span ms ++ done) := by
  induction ms generalizing span done with
  | nil => exact hind
  | cons m ms ih =>
      rw [extend]
      split
      · exact ih span hspan hind
      · next hnew =>
          have hout : ¬ Spanned {k | k ∈ done} m := by
            rw [← hspan]
            simpa using hnew
          refine Independent.perm List.perm_middle (ih _ ?_ (independent_cons.mpr ⟨hout, hind⟩))
          intro x
          rw [List.mem_append, mem_map_xor, hspan, hspan, spanned_cons_iff]

/-- Extending a basis whose sums are known adds the sums of the masks that were visited. -/
theorem spanned_extend {done : List Mask} (span ms : List Mask)
    (hspan : ∀ x, x ∈ span ↔ Spanned {k | k ∈ done} x) {x : Mask} :
    Spanned {k | k ∈ extend span ms ++ done} x ↔ Spanned {k | k ∈ ms ++ done} x := by
  induction ms generalizing span done with
  | nil => rfl
  | cons m ms ih =>
      rw [extend]
      split
      · next hold =>
          have hm : Spanned {k | k ∈ done} m := by
            rw [← hspan]
            simpa using hold
          rw [ih span hspan]
          constructor
          · exact Spanned.mono fun k hk => List.mem_cons_of_mem m hk
          · refine Spanned.trans ?_
            intro k hk
            rcases List.mem_cons.mp hk with rfl | hk
            · exact hm.mono fun j hj => List.mem_append_right ms hj
            · exact Spanned.of_mem hk
      · have hnext : ∀ y, y ∈ span ++ span.map (· ^^^ m) ↔ Spanned {k | k ∈ m :: done} y := by
          intro y
          rw [List.mem_append, mem_map_xor, hspan, hspan, spanned_cons_iff]
        -- the mask moves from those to be visited to those in the basis
        have hset : ∀ ks : List Mask, {k | k ∈ m :: ks ++ done} = {k | k ∈ ks ++ m :: done} := by
          intro ks
          ext k
          simp only [Set.mem_ofPred_eq, List.mem_append, List.mem_cons, List.cons_append]
          tauto
        rw [hset, hset]
        exact ih _ hnext

theorem extend_sublist (span ms : List Mask) : (extend span ms).Sublist ms := by
  induction ms generalizing span with
  | nil => exact List.Sublist.refl _
  | cons m ms ih =>
      rw [extend]
      split
      · exact (ih span).cons m
      · exact (ih _).cons_cons m

theorem pairwise_ascending (ms : List Mask) : (ascending ms).Pairwise (· ≤ ·) :=
  List.pairwise_mergeSort' (· ≤ ·) ms

/-- The order in which masks were found does not matter to their basis. -/
theorem basis_perm {ms ks : List Mask} (h : ms.Perm ks) : basis ms = basis ks := by
  -- what is sorted is the multiset of the masks
  have hsame : ascending ms = ascending ks :=
    congrArg (Multiset.sort · (· ≤ ·)) (Multiset.coe_eq_coe.mpr h)
  rw [basis, basis, hsame]

/-- The greedy basis consists of masks that were given. -/
theorem basis_subset (ms : List Mask) : basis ms ⊆ ms := by
  intro m hm
  exact List.mem_mergeSort.mp ((extend_sublist _ _).subset hm)

/-- The greedy basis of a list of masks is a basis of their span. -/
theorem isBasis_basis (ms : List Mask) : IsBasis (basis ms) {x | Spanned {k | k ∈ ms} x} := by
  have hzero : ∀ x, x ∈ [(0 : Mask)] ↔ Spanned {k | k ∈ ([] : List Mask)} x := by
    intro x
    rw [← mem_sums]
    rfl
  have hind := independent_extend [0] (ascending ms) hzero independent_nil
  rw [List.append_nil] at hind
  refine ⟨hind, ?_⟩
  intro x
  have hspan := spanned_extend [0] (ascending ms) hzero (x := x)
  rw [List.append_nil, List.append_nil] at hspan
  have hset : {k | k ∈ ascending ms} = {k | k ∈ ms} := by
    ext k
    exact List.mem_mergeSort
  rw [hset] at hspan
  exact hspan

end DramBanks.Mask
