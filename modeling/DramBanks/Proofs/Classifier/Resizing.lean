import DramBanks.Proofs.Classifier.Blocks
import DramBanks.Proofs.Classifier.Holding
import DramBanks.Proofs.Settings
import Mathlib.Data.List.Perm.Basic
import Mathlib.Data.Nat.Prime.Basic
/-!
# Blocks of another size

    Let the groups hold the cut of some blocks, each of which lies in one
    bank.  Switching to any size that divides the blocks cuts them anew,
    and the groups hold the new cut (`Holds.setBlockSize`).

    A smaller size classifies what is inside the old blocks, all of which
    finds its bank among the groups; the old starts and what is inside make
    up the new starts.  Addresses off the old boundaries may be held as
    well: they stay, but nothing behind them is added
    (`Holds.expand_refined`).  A larger size keeps the boundaries with a whole
    block of members behind them, and on the boundaries inside a block of
    one bank all of these are members.  Doublings and halvings between two
    such sizes stay among them (`Holds.setBlockSizeInSteps`). -/

namespace DramBanks.Classifier

variable {σ β : Type} {b : Bench σ} {bank : Address → β} {c : Classifier σ} {groups : List Group}

theorem mod_eq_zero_iff {a size : UInt64} : (a % size == 0) = true ↔ size.toNat ∣ a.toNat := by
  rw [beq_iff_eq, ← UInt64.toNat_inj, UInt64.toNat_mod, Nat.dvd_iff_mod_eq_zero]
  rfl

/-! ## Larger blocks -/

/-- Whether the `count` addresses behind `a`, `step` apart, are among the members. -/
def successorsAmong (members : List Address) (step : UInt64) (count : Nat) (a : Address) : Bool :=
  (List.range count).all fun i => members.contains (a + UInt64.ofNat (i + 1) * step)

/-- Whether the address is on a boundary of the new size and its whole block is among the
    members. -/
def isWhole (members : List Address) (old new : UInt64) (a : Address) : Bool :=
  a % new == 0 && successorsAmong members old ((new / old).toNat - 1) a

/-- The group with only the starts of whole blocks left. -/
def simplified (old new : UInt64) (g : Group) : Group :=
  .ofMembers (sorted (g.members.filter (isWhole g.members old new))) g.blockSize

theorem successorsAmong_succ (members : List Address) (step : UInt64) (count : Nat) (a : Address) :
    successorsAmong members step (count + 1) a
      = (members.contains (a + step) && successorsAmong members step count (a + step)) := by
  have hfirst : a + UInt64.ofNat (0 + 1) * step = a + step := by
    show a + 1 * step = a + step
    rw [UInt64.one_mul]
  have hrest : ∀ i, a + UInt64.ofNat (i + 1 + 1) * step
      = a + step + UInt64.ofNat (i + 1) * step := by
    intro i
    rw [Nat.add_comm (i + 1) 1, UInt64.ofNat_add, UInt64.add_mul, ← UInt64.add_assoc]
    show a + 1 * step + _ = _
    rw [UInt64.one_mul]
  rw [successorsAmong, List.range_succ_eq_map, List.all_cons, List.all_map, hfirst, successorsAmong]
  simp only [Function.comp_def, Nat.succ_eq_add_one, hrest]

theorem successorsIn_eq {members : List Address} {step : UInt64} {count : Nat} {a : Address}
    (h : a.toNat + count * step.toNat < 2 ^ 64) :
    successorsIn (Std.HashSet.ofList members) step count a
      = .ok (successorsAmong members step count a) := by
  induction count generalizing a with
  | zero => rfl
  | succ count ih =>
      rw [Nat.succ_mul] at h
      have hnext : Word.add a step = .ok (a + step) := if_pos (show _ < 2 ^ 64 by omega)
      have hnat := Word.toNat_of_add hnext
      rw [successorsIn, hnext, successorsAmong_succ]
      simp only [Std.HashSet.contains_ofList]
      cases members.contains (a + step) with
      | true => exact ih (by omega)
      | false => rfl

theorem wholeBlocks_eq {members : Std.HashSet Address} {old new : UInt64} {addrs : List Address}
    {p : Address → Bool}
    (h : ∀ a ∈ addrs, (a % new == 0) = true →
      successorsIn members old ((new / old).toNat - 1) a = .ok (p a)) (kept : List Address) :
    wholeBlocks members old new addrs kept
      = .ok (kept.reverse ++ addrs.filter fun a => a % new == 0 && p a) := by
  induction addrs generalizing kept with
  | nil => simp [wholeBlocks]
  | cons a rest ih =>
      have hrest := ih fun x hx => h x (List.mem_cons_of_mem _ hx)
      rw [wholeBlocks]
      split
      · next haligned =>
          rw [h a (List.mem_cons_self ..) haligned]
          cases hp : p a with
          | true =>
              rw [List.filter_cons_of_pos (by rw [haligned, hp]; rfl), List.append_cons,
                ← List.reverse_cons]
              exact hrest (a :: kept)
          | false =>
              rw [List.filter_cons_of_neg (by simp [hp])]
              exact hrest kept
      · next haligned =>
          rw [hrest, List.filter_cons_of_neg (by simp [haligned])]

theorem simplifyGroups_eq {old new : UInt64}
    (h : ∀ g ∈ groups, ∀ a ∈ g.members, new.toNat ∣ a.toNat →
      successorsIn (Std.HashSet.ofList g.members) old ((new / old).toNat - 1) a
        = .ok (successorsAmong g.members old ((new / old).toNat - 1) a)) :
    simplifyGroups old new groups = .ok (groups.map (simplified old new)) := by
  induction groups with
  | nil => rfl
  | cons g rest ih =>
      rw [List.forall_mem_cons] at h
      have hgroup : simplifyGroup old new g = .ok (simplified old new g) := by
        rw [simplifyGroup, wholeBlocks_eq (fun a ha haligned =>
          h.1 a ha (mod_eq_zero_iff.mp haligned)) []]
        rfl
      rw [simplifyGroups, hgroup, ih h.2]
      rfl

/-! ## Smaller blocks -/

theorem alignedMembers_eq (groups : List Group) (size : UInt64) :
    alignedMembers groups size = (allMembers groups).filter fun a => a % size == 0 :=
  List.filter_flatMap.symm

/-- The addresses, and what is inside the blocks of those that lie on a boundary. -/
def refined (old new : UInt64) (addrs : List Address) : List Address :=
  (addrs.filter fun a => a % old == 0).flatMap (insideBlock old new) ++ addrs

/-- A block is its start and what is inside. -/
theorem cons_insideBlock {old new : UInt64} (hpos : 0 < old.toNat) (h : new.toNat ∣ old.toNat)
    (start : Address) :
    start :: insideBlock old new start = progression start new (old.toNat / new.toNat) := by
  have hcount : old.toNat / new.toNat = insideCount old new + 1 := by
    obtain ⟨q, hq⟩ := h
    have hnew : 0 < new.toNat := Nat.pos_of_mul_pos_right (hq ▸ hpos)
    cases q with
    | zero => rw [hq] at hpos; exact absurd hpos (Nat.lt_irrefl 0)
    | succ q =>
        have hlast : new.toNat * (q + 1) - 1 = new.toNat * q + (new.toNat - 1) := by
          rw [Nat.mul_succ]
          omega
        rw [insideCount, hq, hlast, Nat.mul_add_div hnew,
          Nat.div_eq_of_lt (Nat.sub_one_lt_of_lt hnew), Nat.mul_div_cancel_left _ hnew]
  rw [hcount, progression_succ]
  rfl

theorem insideBlocks_eq {old : UInt64} (hpos : 0 < old.toNat) {starts : List Address}
    (h : ∀ a ∈ starts, a.toNat + old.toNat ≤ 2 ^ 64) (new : UInt64) :
    insideBlocks old new starts = .ok (starts.flatMap (insideBlock old new)) := by
  refine if_pos ?_
  rw [List.all_eq_true]
  intro a ha
  have hle : insideCount old new * new.toNat ≤ old.toNat - 1 := Nat.div_mul_le_self _ _
  have hend := h a ha
  exact decide_eq_true (show _ < 2 ^ 64 by omega)

/-- Refining adds, around every address on a boundary, the addresses of its block. -/
theorem mem_refined_iff {old new : UInt64} (hpower : ∃ k, old.toNat = 2 ^ k)
    (hdvd : new.toNat ∣ old.toNat) {addrs : List Address} {x : Address} :
    x ∈ refined old new addrs ↔ x ∈ addrs
      ∨ ∃ a ∈ addrs, old.toNat ∣ a.toNat ∧ new.toNat ∣ x.toNat ∧ a / old = x / old := by
  have hblock : ∀ a : Address, old.toNat ∣ a.toNat → (x = a ∨ x ∈ insideBlock old new a ↔
      new.toNat ∣ x.toNat ∧ a / old = x / old) := by
    intro a ha
    rw [← List.mem_cons, cons_insideBlock (pos_of_power hpower) hdvd,
      mem_progression_block hpower ha hdvd]
  rw [refined, List.mem_append, List.mem_flatMap]
  constructor
  · rintro (⟨a, ha, hx⟩ | hx)
    · rw [List.mem_filter, mod_eq_zero_iff] at ha
      exact Or.inr ⟨a, ha.1, ha.2, (hblock a ha.2).mp (Or.inr hx)⟩
    · exact Or.inl hx
  · rintro (hx | ⟨a, ha, haligned, hx⟩)
    · exact Or.inr hx
    · rcases (hblock a haligned).mpr hx with rfl | hx
      · exact Or.inr ha
      · exact Or.inl ⟨a, List.mem_filter.mpr ⟨ha, mod_eq_zero_iff.mpr haligned⟩, hx⟩

/-- Blocks on boundaries are cut by refining them. -/
theorem refined_perm_cut {old new : UInt64} (hpos : 0 < old.toNat) (hdvd : new.toNat ∣ old.toNat)
    {addrs : List Address} (h : ∀ a ∈ addrs, old.toNat ∣ a.toNat) :
    (refined old new addrs).Perm (cut old new addrs) := by
  have hfilter : (addrs.filter fun a => a % old == 0) = addrs :=
    List.filter_eq_self.mpr fun a ha => mod_eq_zero_iff.mpr (h a ha)
  have hcons := List.flatMap_append_perm addrs (fun a => [a]) (insideBlock old new)
  simp only [List.flatMap_singleton', List.singleton_append, cons_insideBlock hpos hdvd] at hcons
  rw [refined, hfilter]
  exact List.perm_append_comm.trans hcons

/-! ## Switching -/

theorem Holds.map {f : Group → Group} {addrs : List Address} (h : Holds bank addrs groups)
    (hf : ∀ g, (f g).members.Perm g.members) : Holds bank addrs (groups.map f) := by
  refine ⟨h.partition.map fun g => (hf g).subset, ?_, (perm_allMembers_map hf).trans h.perm⟩
  intro g hg hnil
  obtain ⟨k, hk, rfl⟩ := List.mem_map.mp hg
  exact h.filled k hk (List.nil_perm.mp (hnil ▸ hf k))

@[simp] theorem groups_commit (size : UInt64) (c : Classifier σ) :
    (commit size c).groups = c.groups.map fun g => { g with blockSize := size } := by
  rw [commit]
  split <;> rfl

@[simp] theorem blockSize_commit (size : UInt64) (c : Classifier σ) :
    (commit size c).blockSize = size := by
  rw [commit]
  split <;> rfl

theorem power_of_dvd {size step : UInt64} (hpower : ∃ k, size.toNat = 2 ^ k)
    (h : step.toNat ∣ size.toNat) : ∃ k, step.toNat = 2 ^ k := by
  obtain ⟨k, hk⟩ := hpower
  rw [hk] at h
  obtain ⟨j, -, hj⟩ := (Nat.dvd_prime_pow Nat.prime_two).mp h
  exact ⟨j, hj⟩

/-- A power of two above 1 can be halved. -/
theorem half_of_power {size : UInt64} (hpower : ∃ k, size.toNat = 2 ^ k) (h : 2 ≤ size.toNat) :
    size / 2 ≠ 0 ∧ (size / 2).toNat ∣ size.toNat := by
  have hnat : (size / 2).toNat = size.toNat / 2 := UInt64.toNat_div size 2
  refine ⟨toNat_pos_iff.mp (by omega), ?_⟩
  · obtain ⟨k, hk⟩ := hpower
    rw [hnat]
    refine Nat.div_dvd_of_dvd ?_
    cases k with
    | zero =>
        rw [hk] at h
        exact absurd h (by decide)
    | succ k => exact ⟨2 ^ k, by rw [hk, Nat.pow_succ, Nat.mul_comm]⟩

theorem div_eq_div_of_dvd {size step : UInt64} (h : step.toNat ∣ size.toNat) {a x : Address}
    (heq : a / step = x / step) : a / size = x / size := by
  obtain ⟨q, hq⟩ := h
  rw [← UInt64.toNat_inj, UInt64.toNat_div, UInt64.toNat_div] at heq ⊢
  rw [hq, ← Nat.div_div_eq_div_mul, ← Nat.div_div_eq_div_mul, heq]

/-- Switching to larger blocks of a power of two leaves the starts of whole blocks. -/
theorem simplify_eq {new : UInt64} (hpower : ∃ k, new.toNat = 2 ^ k)
    (hdvd : c.blockSize.toNat ∣ new.toNat) :
    c.simplify c.blockSize new
      = .ok { c with groups := c.groups.map (simplified c.blockSize new) } := by
  have hpos : 0 < c.blockSize.toNat := by
    obtain ⟨k, hk⟩ := hpower
    exact Nat.pos_of_dvd_of_pos hdvd (hk ▸ Nat.two_pow_pos k)
  have hcount : ((new / c.blockSize).toNat - 1) * c.blockSize.toNat
      = new.toNat - c.blockSize.toNat := by
    rw [UInt64.toNat_div, Nat.sub_mul, Nat.div_mul_cancel hdvd, Nat.one_mul]
  have hnonzero : c.blockSize ≠ 0 := toNat_pos_iff.mp hpos
  rw [Classifier.simplify, if_neg hnonzero, simplifyGroups_eq]
  · rfl
  · intro g _ a _ ha
    have hend := add_size_le hpower ha
    have hnew : 0 < new.toNat := pos_of_power hpower
    refine successorsIn_eq ?_
    rw [hcount]
    omega

theorem subset_simplified (old new : UInt64) (g : Group) :
    (simplified old new g).members ⊆ g.members := by
  intro a ha
  exact List.mem_of_mem_filter (mem_sorted.mp ha)

/-- What is inside blocks of one bank finds its group; the new addresses are held with the old
    ones. -/
theorem Holds.expand_refined {addrs : List Address} {new : UInt64} (hb : b.NoiseFree bank)
    (hpower : ∃ k, c.blockSize.toNat = 2 ^ k) (hdvd : new.toNat ∣ c.blockSize.toNat)
    (hconstant : ∀ a x, a / c.blockSize = x / c.blockSize → bank a = bank x)
    (h : Holds bank addrs c.groups) :
    ∃ c', c.expand b c.blockSize new = .ok c'
      ∧ Holds bank (refined c.blockSize new addrs) c'.groups := by
  have hfilter := h.perm.filter fun a => a % c.blockSize == 0
  have hroom : ∀ a ∈ (allMembers c.groups).filter (fun a => a % c.blockSize == 0),
      a.toNat + c.blockSize.toNat ≤ 2 ^ 64 :=
    fun a ha => add_size_le hpower (mod_eq_zero_iff.mp (List.mem_filter.mp ha).2)
  have hperm := (hfilter.flatMap_right (insideBlock c.blockSize new)).append_right addrs
  have hknown : ∀ x ∈ ((allMembers c.groups).filter fun a => a % c.blockSize == 0).flatMap
      (insideBlock c.blockSize new), ∃ a ∈ addrs, bank a = bank x := by
    intro x hx
    have hrefined : x ∈ refined c.blockSize new addrs :=
      hperm.mem_iff.mp (List.mem_append_left _ hx)
    rcases (mem_refined_iff hpower hdvd).mp hrefined with hx | ⟨a, ha, -, -, hblock⟩
    · exact ⟨x, hx, rfl⟩
    · exact ⟨a, ha, hconstant a x hblock⟩
  refine ⟨_, ?_, (h.classifyAll_known hb false hknown 0).of_perm hperm⟩
  rw [Classifier.expand, alignedMembers_eq, insideBlocks_eq (pos_of_power hpower) hroom]
  rfl

/-- Taking note of the new size changes nothing of what is held. -/
theorem Holds.setBlockSize_of_cutTo {addrs : List Address} {new : UInt64} (hnew : new ≠ 0)
    (hcut : ∃ c', c.cutTo b new = .ok c' ∧ Holds bank addrs c'.groups) :
    ∃ c', c.setBlockSize b new = .ok c' ∧ c'.blockSize = new ∧ Holds bank addrs c'.groups := by
  obtain ⟨c', hrun, hholds⟩ := hcut
  refine ⟨commit new c', ?_, blockSize_commit new c', ?_⟩
  · rw [Classifier.setBlockSize, if_neg hnew, hrun]
    rfl
  · rw [groups_commit]
    exact hholds.map fun g => List.Perm.refl _

/-- **SWITCH**: from blocks of one bank each to smaller ones, the held addresses are refined. -/
theorem Holds.setBlockSize_refined {addrs : List Address} {new : UInt64} (hb : b.NoiseFree bank)
    (hpower : ∃ k, c.blockSize.toNat = 2 ^ k) (hdvd : new.toNat ∣ c.blockSize.toNat)
    (hlt : new < c.blockSize)
    (hconstant : ∀ a x, a / c.blockSize = x / c.blockSize → bank a = bank x)
    (h : Holds bank addrs c.groups) :
    ∃ c', c.setBlockSize b new = .ok c' ∧ c'.blockSize = new
      ∧ Holds bank (refined c.blockSize new addrs) c'.groups := by
  have hnew : new ≠ 0 :=
    toNat_pos_iff.mp (Nat.pos_of_dvd_of_pos hdvd (pos_of_power hpower))
  refine Holds.setBlockSize_of_cutTo hnew ?_
  rw [Classifier.cutTo, if_pos hlt]
  exact h.expand_refined hb hpower hdvd hconstant

section Cut

variable {size new : UInt64} {starts : List Address} (hb : b.NoiseFree bank)
  (hblocks : IsBlocks bank size starts) (hold : c.blockSize.toNat ∣ size.toNat)
  (hnew : new.toNat ∣ size.toNat) (h : Holds bank (cut size c.blockSize starts) c.groups)

include hb hblocks hold hnew h

omit hnew in
/-- Smaller blocks find their banks among the groups. -/
theorem Holds.expand (hdvd : new.toNat ∣ c.blockSize.toNat) :
    ∃ c', c.expand b c.blockSize new = .ok c' ∧ Holds bank (cut size new starts) c'.groups := by
  have holdpos : 0 < c.blockSize.toNat :=
    Nat.pos_of_dvd_of_pos hold (pos_of_power hblocks.power)
  obtain ⟨c', hexpand, hholds⟩ := h.expand_refined hb (power_of_dvd hblocks.power hold) hdvd
    fun a x heq => hblocks.constant a x (div_eq_div_of_dvd hold heq)
  have hperm := refined_perm_cut holdpos hdvd fun a ha => ((hblocks.mem_cut hold).mp ha).1
  rw [cut_cut holdpos hold hdvd] at hperm
  exact ⟨c', hexpand, hholds.of_perm hperm⟩

omit hb in
/-- The addresses behind a member on a boundary, as far as its new block goes, are in its group. -/
theorem Holds.successorsAmong_of_aligned (hdvd : c.blockSize.toNat ∣ new.toNat) {g : Group}
    (hg : g ∈ c.groups) {a : Address} (ha : a ∈ g.members) (halign : new.toNat ∣ a.toNat) :
    successorsAmong g.members c.blockSize ((new / c.blockSize).toNat - 1) a = true := by
  rw [successorsAmong, List.all_eq_true]
  intro i hi
  rw [List.mem_range, UInt64.toNat_div] at hi
  obtain ⟨hstep, hblock⟩ := (mem_progression_block (power_of_dvd hblocks.power hnew) halign hdvd).mp
    (List.mem_map_of_mem (f := fun i => a + UInt64.ofNat i * c.blockSize)
      (List.mem_range.mpr (show i + 1 < new.toNat / c.blockSize.toNat by omega)))
  -- the successor lies in the new block of `a`, hence in its old one
  have hsame := div_eq_div_of_dvd hnew hblock
  obtain ⟨hacut, -⟩ := (h.mem_members_iff hg ha).mp ha
  obtain ⟨-, start, hstart, hstartblock⟩ := (hblocks.mem_cut hold).mp hacut
  rw [List.contains_iff_mem, h.mem_members_iff hg ha]
  exact ⟨(hblocks.mem_cut hold).mpr ⟨hstep, start, hstart, hstartblock.trans hsame⟩,
    hblocks.constant _ _ hsame⟩

omit hb in
/-- Larger blocks are whole, as far as they lie in one bank. -/
theorem Holds.simplify (hdvd : c.blockSize.toNat ∣ new.toNat) :
    ∃ c', c.simplify c.blockSize new = .ok c' ∧ Holds bank (cut size new starts) c'.groups := by
  have hsimplify := simplify_eq (power_of_dvd hblocks.power hnew) hdvd
  have hmembers : ∀ g ∈ c.groups, (simplified c.blockSize new g).members.Perm
      (g.members.filter fun a => a % new == 0) := by
    intro g hg
    rw [simplified, Group.members_ofMembers]
    refine (List.mergeSort_perm _ _).trans (List.Perm.of_eq (List.filter_congr ?_))
    intro a ha
    have hwhole := fun haligned => h.successorsAmong_of_aligned hblocks hold hnew hdvd hg ha
      (mod_eq_zero_iff.mp haligned)
    rw [isWhole]
    cases haligned : a % new == 0 with
    | true => exact hwhole haligned
    | false => rfl
  refine ⟨_, hsimplify, ?_, ?_, ?_⟩
  · exact h.partition.map (subset_simplified c.blockSize new)
  · intro g' hg'
    obtain ⟨g, hg, rfl⟩ := List.mem_map.mp hg'
    obtain ⟨a, ha⟩ := List.exists_mem_of_ne_nil _ (h.filled g hg)
    obtain ⟨-, start, hstart, hblock⟩ :=
      (hblocks.mem_cut hold).mp ((h.mem_members_iff hg ha).mp ha).1
    -- the start of the block of any member is kept
    have halign := hblocks.aligned start hstart
    have hmem : start ∈ g.members := (h.mem_members_iff hg ha).mpr
      ⟨(hblocks.mem_cut hold).mpr ⟨Nat.dvd_trans hold halign, start, hstart, rfl⟩,
        (hblocks.constant _ _ hblock).symm⟩
    refine List.ne_nil_of_mem (a := start) ((hmembers g hg).mem_iff.mpr ?_)
    exact List.mem_filter.mpr ⟨hmem, mod_eq_zero_iff.mpr (Nat.dvd_trans hnew halign)⟩
  · have hall : (allMembers (c.groups.map (simplified c.blockSize new))).Perm
        ((allMembers c.groups).filter fun a => a % new == 0) := by
      rw [allMembers, List.flatMap_map, allMembers, List.filter_flatMap]
      exact List.Perm.flatMap_left _ hmembers
    refine (hall.trans (h.perm.filter _)).trans ?_
    refine (List.perm_ext_iff_of_nodup ((hblocks.nodup_cut hold).filter _)
      (hblocks.nodup_cut hnew)).mpr ?_
    intro a
    rw [List.mem_filter, hblocks.mem_cut hold, hblocks.mem_cut hnew, mod_eq_zero_iff]
    constructor
    · rintro ⟨⟨-, hstart⟩, halign⟩
      exact ⟨halign, hstart⟩
    · rintro ⟨halign, hstart⟩
      exact ⟨⟨Nat.dvd_trans hdvd halign, hstart⟩, halign⟩

/-- **SWITCH**: of two sizes that divide the blocks, one of which divides the other, each can be
    switched to from the other. -/
theorem Holds.setBlockSize (hdvd : new.toNat ∣ c.blockSize.toNat ∨ c.blockSize.toNat ∣ new.toNat) :
    ∃ c', c.setBlockSize b new = .ok c' ∧ c'.blockSize = new
      ∧ Holds bank (cut size new starts) c'.groups := by
  have hpos := pos_of_power hblocks.power
  have holdpos : 0 < c.blockSize.toNat := Nat.pos_of_dvd_of_pos hold hpos
  have hnewpos : 0 < new.toNat := Nat.pos_of_dvd_of_pos hnew hpos
  have hcut : ∃ c', c.cutTo b new = .ok c' ∧ Holds bank (cut size new starts) c'.groups := by
    rw [Classifier.cutTo]
    rcases Nat.lt_trichotomy new.toNat c.blockSize.toNat with hlt | heq | hgt
    · rw [if_pos (UInt64.lt_iff_toNat_lt.mpr hlt)]
      exact h.expand hb hblocks hold
        (hdvd.resolve_right fun hle => Nat.not_le_of_lt hlt (Nat.le_of_dvd hnewpos hle))
    · have hsame := UInt64.toNat_inj.mp heq
      subst hsame
      rw [if_neg (UInt64.lt_irrefl _), if_neg (UInt64.lt_irrefl _)]
      exact ⟨c, rfl, h⟩
    · rw [if_neg fun hlt => Nat.lt_asymm hgt (UInt64.lt_iff_toNat_lt.mp hlt),
        if_pos (UInt64.lt_iff_toNat_lt.mpr hgt)]
      exact h.simplify hblocks hold hnew
        (hdvd.resolve_left fun hle => Nat.not_le_of_lt hgt (Nat.le_of_dvd holdpos hle))
  exact Holds.setBlockSize_of_cutTo (toNat_pos_iff.mp hnewpos) hcut

end Cut

/-! ## Steps -/

/-- One doubling or halving towards another power of two is a power of two, one exponent closer. -/
theorem exists_closer {size target : UInt64} {i t : Nat} (hi : size.toNat = 2 ^ i)
    (ht : target.toNat = 2 ^ t) (hne : size ≠ target) :
    ∃ next j, nextSize size target = .ok next ∧ next.toNat = 2 ^ j
      ∧ (i < t ∧ j = i + 1 ∨ t < i ∧ i = j + 1) := by
  have hlt_iff : size < target ↔ i < t := by
    rw [UInt64.lt_iff_toNat_lt, hi, ht, Nat.pow_lt_pow_iff_right Nat.one_lt_two]
  rw [nextSize]
  split
  · next hlt =>
      rw [hlt_iff] at hlt
      have hroom : size.toNat * 2 ≤ target.toNat := by
        rw [hi, ht, ← Nat.pow_succ]
        exact Nat.pow_le_pow_right Nat.two_pos hlt
      have hmul : Word.mul size 2 = .ok (size * 2) :=
        Word.mul_of_lt (Nat.lt_of_le_of_lt hroom (UInt64.toNat_lt target))
      refine ⟨size * 2, i + 1, hmul, ?_, Or.inl ⟨hlt, rfl⟩⟩
      rw [Word.toNat_of_mul hmul, Nat.pow_succ 2 i, ← hi]
      rfl
  · next hge =>
      rw [hlt_iff] at hge
      have hne' : i ≠ t := by
        rintro rfl
        exact hne (UInt64.toNat_inj.mp (hi.trans ht.symm))
      obtain ⟨j, rfl⟩ : ∃ j, i = j + 1 := Nat.exists_eq_succ_of_ne_zero (by omega)
      refine ⟨size / 2, j, rfl, ?_, Or.inr ⟨by omega, rfl⟩⟩
      rw [UInt64.toNat_div, hi]
      exact Nat.mul_div_cancel _ Nat.two_pos

/-- **STEPS**: doublings or halvings between powers of two reach their target, if each step towards
    it can be made.  The exponents of the sizes are at most `left` apart. -/
theorem exists_stepTo {P : Classifier σ → Prop} {target : UInt64} {t : Nat}
    (ht : target.toNat = 2 ^ t)
    (hstep : ∀ {c : Classifier σ} {next : UInt64} {i j : Nat}, P c → c.blockSize.toNat = 2 ^ i →
      next.toNat = 2 ^ j → (i < t ∧ j = i + 1 ∨ t < i ∧ i = j + 1) →
      ∃ c', c.setBlockSize b next = .ok c' ∧ c'.blockSize = next ∧ P c')
    {i left : Nat} (hi : c.blockSize.toNat = 2 ^ i) (hup : t ≤ i + left) (hdown : i ≤ t + left)
    (h : P c) :
    ∃ c', c.stepTo b target left = .ok c' ∧ c'.blockSize = target ∧ P c' := by
  induction left generalizing c i with
  | zero =>
      obtain rfl : i = t := Nat.le_antisymm hdown hup
      have heq : c.blockSize = target := UInt64.toNat_inj.mp (hi.trans ht.symm)
      exact ⟨c, if_pos heq, heq, h⟩
  | succ left ih =>
      rw [Classifier.stepTo]
      split
      · next heq => exact ⟨c, rfl, heq, h⟩
      · next hne =>
          obtain ⟨next, j, hnext, hj, hcloser⟩ := exists_closer hi ht hne
          have hup' : t ≤ j + left := by omega
          have hdown' : j ≤ t + left := by omega
          obtain ⟨c', hset, hsame, h'⟩ := hstep h hi hj hcloser
          simp only [hnext, Except.bind, hset]
          exact ih (hsame ▸ hj) hup' hdown' h'

/-- The same of the whole way, whatever the distance: it is shorter than a word. -/
theorem exists_setBlockSizeInSteps {P : Classifier σ → Prop} {target : UInt64} {i t : Nat}
    (hi : c.blockSize.toNat = 2 ^ i) (ht : target.toNat = 2 ^ t)
    (hstep : ∀ {c : Classifier σ} {next : UInt64} {i j : Nat}, P c → c.blockSize.toNat = 2 ^ i →
      next.toNat = 2 ^ j → (i < t ∧ j = i + 1 ∨ t < i ∧ i = j + 1) →
      ∃ c', c.setBlockSize b next = .ok c' ∧ c'.blockSize = next ∧ P c') (h : P c) :
    ∃ c', c.setBlockSizeInSteps b target = .ok (target, c') ∧ c'.blockSize = target ∧ P c' := by
  rw [setBlockSizeInSteps]
  split
  · next heq => exact ⟨c, by rw [heq], heq.symm, h⟩
  · rw [if_pos (by rw [Word.isPowerOfTwo_iff.mpr ⟨t, ht⟩, Word.isPowerOfTwo_iff.mpr ⟨i, hi⟩]; rfl)]
    have hi64 := exponent_lt hi
    have ht64 := exponent_lt ht
    have hup : t ≤ i + 64 := by omega
    have hdown : i ≤ t + 64 := by omega
    obtain ⟨c', hrun, hsame, h'⟩ := exists_stepTo ht hstep hi hup hdown h
    refine ⟨c', ?_, hsame, h'⟩
    rw [hrun, Except.map, hsame]

section Steps

variable {size target : UInt64} {starts : List Address} (hb : b.NoiseFree bank)
  (hblocks : IsBlocks bank size starts)

include hb hblocks

/-- A configured size that divides the blocks is reached. -/
theorem Holds.setBlockSizeInSteps (hold : c.blockSize.toNat ∣ size.toNat)
    (hnew : target.toNat ∣ size.toNat) (h : Holds bank (cut size c.blockSize starts) c.groups) :
    ∃ c', c.setBlockSizeInSteps b target = .ok (target, c') ∧ c'.blockSize = target
      ∧ Holds bank (cut size target starts) c'.groups := by
  obtain ⟨i, hi⟩ := power_of_dvd hblocks.power hold
  obtain ⟨t, ht⟩ := power_of_dvd hblocks.power hnew
  -- every size on the way divides the blocks, as both ends do
  have hnext : ∀ {c : Classifier σ} {next : UInt64} {i j : Nat},
      c.blockSize.toNat ∣ size.toNat ∧ Holds bank (cut size c.blockSize starts) c.groups →
      c.blockSize.toNat = 2 ^ i → next.toNat = 2 ^ j → (i < t ∧ j = i + 1 ∨ t < i ∧ i = j + 1) →
      ∃ c', c.setBlockSize b next = .ok c' ∧ c'.blockSize = next
        ∧ c'.blockSize.toNat ∣ size.toNat
        ∧ Holds bank (cut size c'.blockSize starts) c'.groups := by
    rintro c next i j ⟨hold, h⟩ hi hj hcloser
    have hdvd : next.toNat ∣ c.blockSize.toNat ∨ c.blockSize.toNat ∣ next.toNat := by
      rw [hi, hj]
      exact hcloser.elim (fun h => Or.inr (Nat.pow_dvd_pow 2 (by omega)))
        fun h => Or.inl (Nat.pow_dvd_pow 2 (by omega))
    have hsize : next.toNat ∣ size.toNat := by
      rw [hj]
      rcases hcloser with ⟨hlt, rfl⟩ | ⟨hlt, rfl⟩
      · exact Nat.dvd_trans (Nat.pow_dvd_pow 2 hlt) (ht ▸ hnew)
      · exact Nat.dvd_trans (Nat.pow_dvd_pow 2 (Nat.le_succ j)) (hi ▸ hold)
    obtain ⟨c', hset, hsame, hholds⟩ := h.setBlockSize hb hblocks hold hsize hdvd
    exact ⟨c', hset, hsame, hsame ▸ hsize, hsame ▸ hholds⟩
  obtain ⟨c', hrun, hsame, -, hholds⟩ := exists_setBlockSizeInSteps hi ht hnext ⟨hold, h⟩
  exact ⟨c', hrun, hsame, hsame ▸ hholds⟩

end Steps

end DramBanks.Classifier
