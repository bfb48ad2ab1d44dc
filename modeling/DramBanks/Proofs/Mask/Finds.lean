import DramBanks.BankFunction
import DramBanks.Proofs.Mask.Enumeration
import DramBanks.Proofs.Mask.Span
import DramBanks.Proofs.Mask.Verdict
/-!
# What a search finds

    Every position of an enumeration is in the share of exactly one
    worker, the one whose number is the position modulo the number of
    workers.  So a search finds the candidates that the check accepts,
    whatever the number of workers (`search_eq`), and the masks of the
    derived bank function are a basis of their span. -/

namespace DramBanks.Mask

variable {v : Validator} {p : Mask → Bool}

/-! ## Shares -/

/-- A list falls into the parts of equal numbers, from zero on. -/
theorem perm_flatMap_filter {α : Type} (number : α → Nat) (n : Nat) (xs : List α) :
    ((List.range n).flatMap fun i => xs.filter fun x => number x == i).Perm
      (xs.filter fun x => decide (number x < n)) := by
  induction n with
  | zero => simp
  | succ n ih =>
      -- the numbers up to `n` are those below `n` and `n` itself
      have hbelow : xs.filter (fun x => decide (number x < n))
          = (xs.filter fun x => decide (number x < n + 1)).filter fun x => !(number x == n) := by
        rw [List.filter_filter]
        exact List.filter_congr fun x _ => by grind
      have hat : xs.filter (fun x => number x == n)
          = (xs.filter fun x => decide (number x < n + 1)).filter fun x => number x == n := by
        rw [List.filter_filter]
        exact List.filter_congr fun x _ => by grind
      rw [List.range_succ, List.flatMap_append, List.flatMap_singleton]
      refine (ih.append_right _).trans ?_
      rw [hbelow, hat]
      exact List.perm_append_comm.trans (List.filter_append_perm _ _)

/-- Position `k` falls to worker `k % workers`. -/
theorem share_eq {worker workers : Nat} (h : worker < workers) (masks : List Mask) :
    Candidates.share worker workers masks
      = (masks.zipIdx.filter fun m => m.2 % workers == worker).map Prod.fst := by
  rw [Candidates.share]
  congr 1
  refine List.filter_congr fun m _ => ?_
  rw [Bool.eq_iff_iff, Bool.and_eq_true, decide_eq_true_eq, beq_iff_eq, beq_iff_eq]
  have hdiv := Nat.div_add_mod m.2 workers
  constructor
  · rintro ⟨hle, hmod⟩
    obtain ⟨k, hk⟩ := Nat.dvd_of_mod_eq_zero hmod
    rw [show m.2 = worker + workers * k by omega, Nat.add_mul_mod_self_left, Nat.mod_eq_of_lt h]
  · intro hmod
    rw [hmod] at hdiv
    refine ⟨by omega, ?_⟩
    rw [show m.2 - worker = workers * (m.2 / workers) by omega, Nat.mul_mod_right]

/-- **SHARES**: the shares of all workers make up the list, each position once. -/
theorem perm_shares {workers : Nat} (hpos : 0 < workers) (masks : List Mask) :
    ((List.range workers).flatMap fun id => Candidates.share id workers masks).Perm masks := by
  have hshares : ((List.range workers).flatMap fun id => Candidates.share id workers masks)
      = ((List.range workers).flatMap fun id =>
          masks.zipIdx.filter fun m => m.2 % workers == id).map Prod.fst := by
    rw [List.map_flatMap]
    refine List.flatMap_congr fun id hid => ?_
    exact share_eq (List.mem_range.mp hid) masks
  have hall : masks.zipIdx.filter (fun m => decide (m.2 % workers < workers)) = masks.zipIdx :=
    List.filter_eq_self.mpr fun m _ => decide_eq_true (Nat.mod_lt _ hpos)
  have hperm := (perm_flatMap_filter (fun m : Mask × Nat => m.2 % workers) workers
    masks.zipIdx).map Prod.fst
  rw [hall, List.zipIdx_map_fst] at hperm
  rw [hshares]
  exact hperm

theorem share_subset {worker workers : Nat} {masks : List Mask} :
    Candidates.share worker workers masks ⊆ masks := by
  intro m hm
  obtain ⟨⟨x, k⟩, hmem, rfl⟩ := List.mem_map.mp hm
  exact List.fst_mem_of_mem_zipIdx (List.mem_filter.mp hmem).1

/-! ## Workers -/

theorem accepted_eq {masks : List Mask} (hcheck : ∀ m ∈ masks, v.check m = .ok (p m))
    (found : List Mask) : v.accepted masks found = .ok (found.reverse ++ masks.filter p) := by
  induction masks generalizing found with
  | nil => simp [Validator.accepted]
  | cons m rest ih =>
      rw [List.forall_mem_cons] at hcheck
      have ih := ih hcheck.2
      rw [Validator.accepted, hcheck.1, List.filter_cons]
      cases p m with
      | true => simp [ih]
      | false => simp [ih]

theorem workAll_eq {masks : List Mask} (hcheck : ∀ m ∈ masks, v.check m = .ok (p m))
    {workers : Nat} (hpos : 0 < workers) (left id : Nat) :
    workAll v masks workers left id = .ok ((List.range' id left).map fun worker =>
      let part := Candidates.share worker workers masks
      ⟨part.length, part.filter p⟩) := by
  induction left generalizing id with
  | zero => rfl
  | succ left ih =>
      have hpart : ∀ m ∈ Candidates.share id workers masks, v.check m = .ok (p m) :=
        fun m hm => hcheck m (share_subset hm)
      have hwork : work v masks id workers = .ok ⟨(Candidates.share id workers masks).length,
          (Candidates.share id workers masks).filter p⟩ := by
        rw [work, if_neg (Nat.ne_of_gt hpos)]
        simp only [accepted_eq hpart, List.reverse_nil, List.nil_append, Except.map]
      rw [workAll, hwork, ih, List.range'_succ, List.map_cons]

/-- **FINDS**: a search ends, and it finds the candidates that the check accepts, each of them
    as often as it is a candidate. -/
theorem search_perm {c : Candidates} (hcheck : ∀ m ∈ c.toList, v.check m = .ok (p m))
    (threads : Nat) :
    ∃ found, search v c threads = .ok found ∧ found.Perm (c.toList.filter p) := by
  have hpos : 0 < max threads 1 := by omega
  refine ⟨_, by rw [search, workAll_eq hcheck hpos]; rfl, ?_⟩
  simp only [List.flatMap_map, ← List.range_eq_range', ← List.filter_flatMap]
  exact (perm_shares hpos c.toList).filter p

theorem search_eq (hcheck : ∀ m, v.check m = .ok (p m)) (c : Candidates) (threads : Nat) :
    ∃ found, search v c threads = .ok found ∧ ∀ m, m ∈ found ↔ m ∈ c.toList ∧ p m = true := by
  obtain ⟨found, hsearch, hperm⟩ := search_perm (fun m _ => hcheck m) threads
  exact ⟨found, hsearch, fun m => hperm.mem_iff.trans List.mem_filter⟩

end DramBanks.Mask

namespace DramBanks.BankFunction

open Mask

/-- **DERIVATION**: the derivation ends, with the function of a basis of the accepted
    candidates. -/
theorem derive_eq {groups : List (List Address)} {percentage : UInt64}
    (hmeasurable : Validator.Measurable ⟨groups, percentage⟩) (blockSize : UInt64)
    (maxBits threads : Nat) :
    ∃ masks, derive groups blockSize percentage maxBits threads
        = .ok (ofMasks groups blockSize masks)
      ∧ (∀ m ∈ masks, Validator.check ⟨groups, percentage⟩ m = .ok true)
      ∧ IsBasis masks {x | Spanned {m | m ≠ 0 ∧ Within (skippedBits blockSize) 64 m
          ∧ Bits.weight m ≤ maxBits ∧ Validator.check ⟨groups, percentage⟩ m = .ok true} x} := by
  have hcheck := Validator.check_eq hmeasurable
  obtain ⟨found, hsearch, hfound⟩ :=
    search_eq hcheck ⟨skippedBits blockSize, maxBits⟩ threads
  have hset : {m | m ∈ found} = {m | m ≠ 0 ∧ Within (skippedBits blockSize) 64 m
      ∧ Bits.weight m ≤ maxBits ∧ Validator.check ⟨groups, percentage⟩ m = .ok true} := by
    ext m
    rw [Set.mem_ofPred_eq, Set.mem_ofPred_eq, hfound, Candidates.mem_toList, hcheck,
      Except.ok.injEq]
    tauto
  refine ⟨basis found, by rw [derive, hsearch]; rfl, ?_, ?_⟩
  · intro m hm
    have hmem := (hfound m).mp (basis_subset found hm)
    rw [hcheck, hmem.2]
  · rw [← hset]
    exact isBasis_basis found

end DramBanks.BankFunction
