import DramBanks.Proofs.Mask.Span
/-!
# Balanced masks

    Masks are BALANCED on a list of addresses when every sum of one or more
    of them reads half of the list as `true`.  The halves of a list that one
    mask cuts are then balanced for the others (`balanced_cons_iff`), so
    every choice of parities is met equally often (`Balanced.length_class`).
    A list of `2 ^ k` addresses that `k` masks tell apart is balanced, and a
    balanced one is told apart (`separates_iff_balanced`). -/

namespace DramBanks.Mask

variable {m : Mask} {ms : List Mask} {l : List Address}

/-- Every sum of one or more masks of the list reads half of the addresses as `true`. -/
def Balanced (ms : List Mask) (l : List Address) : Prop :=
  ∀ sub : List Mask, sub.Sublist ms → sub ≠ [] → 2 * l.countP (reads (total sub)) = l.length

/-- Every two addresses of the list are read differently by some mask. -/
def Separates (ms : List Mask) (l : List Address) : Prop :=
  l.Pairwise fun a b => ∃ m ∈ ms, reads m a ≠ reads m b

/-! ## Cutting a list in two -/

theorem countP_cut (m : Mask) (p : Address → Bool) (l : List Address) :
    l.countP p = (l.filter (reads m)).countP p + (l.filter fun a => !reads m a).countP p :=
  List.countP_eq_countP_filter_add l p (reads m)

theorem length_cut (m : Mask) (l : List Address) :
    l.length = (l.filter (reads m)).length + (l.filter fun a => !reads m a).length := by
  have h := countP_cut m (fun _ => true) l
  simpa only [List.countP_true] using h

/-- Adding the mask that cuts the list turns over what is read in the `true` half. -/
theorem countP_xor_cut (m x : Mask) (l : List Address) :
    l.countP (reads (m ^^^ x)) + (l.filter (reads m)).countP (reads x)
      = (l.filter (reads m)).length + (l.filter fun a => !reads m a).countP (reads x) := by
  have htrue : (l.filter (reads m)).countP (reads (m ^^^ x))
      = (l.filter (reads m)).countP fun a => ¬ reads x a := by
    refine List.countP_congr ?_
    intro a ha
    rw [xor_reads, (List.mem_filter.mp ha).2]
    cases reads x a <;> simp
  have hfalse : (l.filter fun a => !reads m a).countP (reads (m ^^^ x))
      = (l.filter fun a => !reads m a).countP (reads x) := by
    refine List.countP_congr ?_
    intro a ha
    have hma : reads m a = false := by simpa using (List.mem_filter.mp ha).2
    rw [xor_reads, hma, Bool.false_xor]
  have hall := List.length_eq_countP_add_countP (reads x) (l := l.filter (reads m))
  rw [countP_cut m, htrue, hfalse]
  omega

/-- Masks are balanced when the first cuts the list in halves on which the others are. -/
theorem balanced_cons_iff : Balanced (m :: ms) l ↔
    2 * (l.filter (reads m)).length = l.length
      ∧ Balanced ms (l.filter (reads m)) ∧ Balanced ms (l.filter fun a => !reads m a) := by
  have hlen := length_cut m l
  constructor
  · intro h
    have hhalf : 2 * (l.filter (reads m)).length = l.length := by
      have hsingle := h [m] (List.singleton_sublist.mpr (List.mem_cons_self ..))
        (List.cons_ne_nil _ _)
      rwa [total_cons, total_nil, UInt64.xor_zero, List.countP_eq_length_filter] at hsingle
    have hboth : ∀ sub : List Mask, sub.Sublist ms → sub ≠ [] →
        2 * (l.filter (reads m)).countP (reads (total sub)) = (l.filter (reads m)).length
          ∧ 2 * (l.filter fun a => !reads m a).countP (reads (total sub))
            = (l.filter fun a => !reads m a).length := by
      intro sub hsub hne
      have hwithout := h sub (hsub.cons m) hne
      have hwith := h (m :: sub) (hsub.cons_cons m) (List.cons_ne_nil _ _)
      have hcut := countP_cut m (reads (total sub)) l
      have hxor := countP_xor_cut m (total sub) l
      rw [total_cons] at hwith
      omega
    exact ⟨hhalf, fun sub hsub hne => (hboth sub hsub hne).1,
      fun sub hsub hne => (hboth sub hsub hne).2⟩
  · rintro ⟨hhalf, htrue, hfalse⟩ sub hsub hne
    have hcut := countP_cut m (reads (total sub)) l
    rcases List.sublist_cons_iff.mp hsub with hsub | ⟨rest, rfl, hrest⟩
    · have ht := htrue sub hsub hne
      have hf := hfalse sub hsub hne
      omega
    · by_cases hnil : rest = []
      · subst hnil
        rw [total_cons, total_nil, UInt64.xor_zero, List.countP_eq_length_filter]
        exact hhalf
      · have ht := htrue rest hrest hnil
        have hf := hfalse rest hrest hnil
        have hxor := countP_xor_cut m (total rest) l
        rw [total_cons]
        omega

/-! ## Classes of balanced masks -/

/-- Balanced masks meet every choice of parities equally often. -/
theorem Balanced.length_class (h : Balanced ms l) (a : Address) :
    2 ^ ms.length * (l.filter fun b => ms.all fun m => reads m b == reads m a).length
      = l.length := by
  induction ms generalizing l with
  | nil => simp
  | cons m ms ih =>
      obtain ⟨hhalf, htrue, hfalse⟩ := balanced_cons_iff.mp h
      have hlen := length_cut m l
      have hsplit : ∀ p : Address → Bool, (∀ b, (reads m b == reads m a) = p b) →
          (l.filter fun b => (m :: ms).all fun k => reads k b == reads k a)
            = (l.filter p).filter fun b => ms.all fun k => reads k b == reads k a := by
        intro p hp
        rw [List.filter_filter]
        refine List.filter_congr ?_
        intro b _
        rw [List.all_cons, hp b, Bool.and_comm]
      rw [List.length_cons, Nat.pow_succ, Nat.mul_comm _ 2, Nat.mul_assoc]
      cases hma : reads m a with
      | true =>
          rw [hsplit (reads m) (by intro b; rw [hma, beq_true]), ih htrue]
          exact hhalf
      | false =>
          rw [hsplit (fun b => !reads m b) (by intro b; rw [hma, beq_false]), ih hfalse]
          omega

/-! ## Telling addresses apart -/

/-- The masks behind the one that cuts a list tell the members of its halves apart. -/
theorem Separates.filter_cons (h : Separates (m :: ms) l) {p : Address → Bool}
    (hp : ∀ a b, p a = true → p b = true → reads m a = reads m b) : Separates ms (l.filter p) := by
  rw [Separates, List.pairwise_filter]
  refine h.imp ?_
  rintro a b ⟨k, hk, hne⟩ ha hb
  rcases List.mem_cons.mp hk with rfl | hk
  · exact absurd (hp a b ha hb) hne
  · exact ⟨k, hk, hne⟩

theorem Separates.halves (h : Separates (m :: ms) l) :
    Separates ms (l.filter (reads m)) ∧ Separates ms (l.filter fun a => !reads m a) := by
  refine ⟨h.filter_cons fun a b ha hb => ha.trans hb.symm, h.filter_cons fun a b ha hb => ?_⟩
  rw [Bool.not_eq_true'] at ha hb
  rw [ha, hb]

/-- `k` masks tell at most `2 ^ k` addresses apart. -/
theorem Separates.length_le (h : Separates ms l) : l.length ≤ 2 ^ ms.length := by
  induction ms generalizing l with
  | nil =>
      cases l with
      | nil => simp
      | cons a l =>
          cases l with
          | nil => simp
          | cons b l =>
              obtain ⟨m, hm, -⟩ := (List.pairwise_cons.mp h).1 b (List.mem_cons_self ..)
              cases hm
  | cons m ms ih =>
      have hlen := length_cut m l
      have htrue := ih h.halves.1
      have hfalse := ih h.halves.2
      rw [List.length_cons, Nat.pow_succ]
      omega

theorem Separates.balanced (h : Separates ms l) (hlen : l.length = 2 ^ ms.length) :
    Balanced ms l := by
  induction ms generalizing l with
  | nil =>
      intro sub hsub hne
      exact absurd (List.sublist_nil.mp hsub) hne
  | cons m ms ih =>
      -- neither half has room for more than half of the list, so both are full
      have hcut := length_cut m l
      have htrue := h.halves.1.length_le
      have hfalse := h.halves.2.length_le
      rw [List.length_cons, Nat.pow_succ] at hlen
      refine balanced_cons_iff.mpr ⟨by omega, ih h.halves.1 (by omega), ih h.halves.2 (by omega)⟩

theorem Balanced.separates (h : Balanced ms l) (hlen : l.length = 2 ^ ms.length) :
    Separates ms l := by
  induction ms generalizing l with
  | nil =>
      obtain ⟨a, rfl⟩ := List.length_eq_one_iff.mp hlen
      exact List.pairwise_singleton _ a
  | cons m ms ih =>
      obtain ⟨hhalf, htrue, hfalse⟩ := balanced_cons_iff.mp h
      have hcut := length_cut m l
      rw [List.length_cons, Nat.pow_succ] at hlen
      have hsep := List.pairwise_filter.mp (ih htrue (by omega))
      have hsep' := List.pairwise_filter.mp (ih hfalse (by omega))
      refine (hsep.and hsep').imp ?_
      rintro a b ⟨hboth, hneither⟩
      by_cases hread : reads m a = reads m b
      · have hrest : ∃ k ∈ ms, reads k a ≠ reads k b := by
          cases hma : reads m a with
          | true => exact hboth hma (hread ▸ hma)
          | false =>
              have hmb : reads m b = false := hread ▸ hma
              exact hneither (by rw [hma]; rfl) (by rw [hmb]; rfl)
        obtain ⟨k, hk, hne⟩ := hrest
        exact ⟨k, List.mem_cons_of_mem _ hk, hne⟩
      · exact ⟨m, List.mem_cons_self .., hread⟩

/-- **BALANCE**: `k` masks tell `2 ^ k` addresses apart exactly when they are balanced on
    them. -/
theorem separates_iff_balanced (hlen : l.length = 2 ^ ms.length) :
    Separates ms l ↔ Balanced ms l :=
  ⟨fun h => h.balanced hlen, fun h => h.separates hlen⟩

end DramBanks.Mask
