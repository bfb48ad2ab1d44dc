import Mathlib
import DramBanks.Proofs.Classifier.Conservation
import DramBanks.Proofs.Classifier.Halving
import DramBanks.Proofs.Classifier.Stepping
/-!
# Tilings

    A classifier is TILED if its members are the starts of distinct blocks:
    all of them lie on boundaries of the current block size, no address is
    a member twice, in one group or in two, and every group takes note of
    this size.  A session that adds new blocks only, and changes the block
    size to divisors and multiples only, keeps a tiling, whatever the probe
    answers (`session_tiled`).

    Larger blocks start where smaller ones do, so growing keeps some of the
    members.  Towards smaller blocks, what is inside a block has the
    quotient of its start and a remainder other than 0: so it is neither a
    member nor inside another block (`nodup_interior_append`).  This holds of
    any size, as detection may leave one that is no power of two. -/

namespace DramBanks.Classifier

variable {σ : Type} {b : Bench σ} {c c' : Classifier σ} {old new size : UInt64}

/-! ## Addresses in steps -/

/-- Different numbers of steps lead to different addresses, as long as they are addresses. -/
theorem nodup_steps {start step : UInt64} {counts : List Nat} (hnodup : counts.Nodup)
    (hstep : 0 < step.toNat) (hroom : ∀ i ∈ counts, start.toNat + i * step.toNat < 2 ^ 64) :
    (counts.map fun i => start + UInt64.ofNat i * step).Nodup := by
  refine hnodup.map_on ?_
  intro i hi j hj heq
  have hnat := congrArg UInt64.toNat heq
  rw [toNat_add_mul (hroom i hi), toNat_add_mul (hroom j hj), Nat.add_left_cancel_iff] at hnat
  exact Nat.eq_of_mul_eq_mul_right hstep hnat

/-- The addresses of a huge block that are classified are distinct. -/
theorem nodup_regionAddresses {s : Settings} {base : Address} {addrs : List Address}
    (hrun : regionAddresses s base size = .ok addrs) : addrs.Nodup := by
  rw [regionAddresses] at hrun
  split at hrun
  · next start stop _ _ =>
      rw [blocksBetween] at hrun
      split at hrun
      · cases hrun
      next hzero =>
      split at hrun
      · cases hrun
      · cases hrun
        have hpos := toNat_pos_iff.mpr hzero
        refine nodup_steps List.nodup_range hpos ?_
        intro i hi
        rw [List.mem_range, blockCount, ← Nat.succ_le_iff, Nat.le_div_iff_mul_le hpos,
          Nat.succ_mul] at hi
        have hstop := UInt64.toNat_lt stop
        omega
  · cases hrun
  · cases hrun

/-! ## Inside of blocks -/

section Inside

variable {a x : Address} (hroom : a.toNat + insideCount old new * new.toNat < 2 ^ 64)
include hroom

/-- What is inside a block lies some steps behind its start, and less than the block. -/
theorem exists_of_mem_insideBlock (hx : x ∈ insideBlock old new a) :
    ∃ i, x.toNat = a.toNat + (i + 1) * new.toNat ∧ (i + 1) * new.toNat < old.toNat := by
  obtain ⟨i, hi, rfl⟩ := List.mem_map.mp hx
  rw [List.mem_range] at hi
  have hcount : 0 < (old.toNat - 1) / new.toNat := Nat.zero_lt_of_lt hi
  have hold : 0 < old.toNat - 1 := Nat.pos_of_div_pos hcount
  have hle : (i + 1) * new.toNat ≤ insideCount old new * new.toNat := Nat.mul_le_mul_right _ hi
  have hinside : insideCount old new * new.toNat ≤ old.toNat - 1 := Nat.div_mul_le_self _ _
  exact ⟨i, toNat_add_mul (by omega), by omega⟩

/-- What is inside an aligned block tells its start, and is not aligned itself. -/
theorem start_of_mem_insideBlock (hnew : 0 < new.toNat) (ha : old.toNat ∣ a.toNat)
    (hx : x ∈ insideBlock old new a) :
    x.toNat / old.toNat * old.toNat = a.toNat ∧ ¬ old.toNat ∣ x.toNat := by
  obtain ⟨i, hi, hlt⟩ := exists_of_mem_insideBlock hroom hx
  have hpos : 0 < (i + 1) * new.toNat := Nat.mul_pos (Nat.succ_pos i) hnew
  obtain ⟨q, hq⟩ := ha
  rw [hi, hq, Nat.mul_add_div (Nat.zero_lt_of_lt hlt), Nat.div_eq_of_lt hlt, Nat.add_zero,
    Nat.mul_comm, Nat.dvd_add_right (Nat.dvd_mul_right _ _)]
  exact ⟨rfl, Nat.not_dvd_of_pos_of_lt hpos hlt⟩

theorem nodup_insideBlock (hnew : 0 < new.toNat) : (insideBlock old new a).Nodup := by
  have hsteps : (((List.range (insideCount old new)).map Nat.succ).map fun i =>
      a + UInt64.ofNat i * new).Nodup := by
    refine nodup_steps (List.nodup_range.map Nat.succ_injective) hnew ?_
    rw [List.forall_mem_map]
    intro i hi
    have hle : (i + 1) * new.toNat ≤ insideCount old new * new.toNat :=
      Nat.mul_le_mul_right _ (List.mem_range.mp hi)
    rw [Nat.succ_eq_add_one]
    omega
  rwa [List.map_map] at hsteps

end Inside

section Interior

variable {groups : List Group} (hnew : 0 < new.toNat)
  (hroom : ∀ a ∈ alignedMembers groups old, a.toNat + insideCount old new * new.toNat < 2 ^ 64)
include hnew hroom

theorem not_dvd_of_mem_interior_of_room {x : Address} (hx : x ∈ interior groups old new) :
    ¬ old.toNat ∣ x.toNat := by
  obtain ⟨a, ha, hxa⟩ := List.mem_flatMap.mp hx
  have hmem := ha
  rw [alignedMembers_eq, List.mem_filter, mod_eq_zero_iff] at hmem
  exact (start_of_mem_insideBlock (hroom a ha) hnew hmem.2 hxa).2

/-- What is inside the blocks of distinct members is distinct, from each other and from members
    on boundaries. -/
theorem nodup_interior_append (hnodup : (allMembers groups).Nodup)
    (haligned : ∀ a ∈ allMembers groups, old.toNat ∣ a.toNat) :
    (interior groups old new ++ allMembers groups).Nodup := by
  have hsub : ∀ a ∈ alignedMembers groups old, a ∈ allMembers groups := by
    intro a ha
    rw [alignedMembers_eq] at ha
    exact List.mem_of_mem_filter ha
  refine List.nodup_append.mpr ⟨List.nodup_flatMap.mpr ⟨?_, ?_⟩, hnodup, ?_⟩
  · exact fun a ha => nodup_insideBlock (hroom a ha) hnew
  · have hdistinct : (alignedMembers groups old).Nodup := by
      rw [alignedMembers_eq]
      exact hnodup.filter _
    refine hdistinct.imp_of_mem ?_
    intro a a' ha ha' hne x hx hx'
    -- an address inside of two blocks tells the start of both
    have hstart := (start_of_mem_insideBlock (hroom a ha) hnew (haligned a (hsub a ha)) hx).1
    have hstart' := (start_of_mem_insideBlock (hroom a' ha') hnew (haligned a' (hsub a' ha')) hx').1
    exact hne (UInt64.toNat_inj.mp (hstart.symm.trans hstart'))
  · rintro x hx _ hmem rfl
    exact not_dvd_of_mem_interior_of_room hnew hroom hx (haligned x hmem)

omit hnew in
theorem dvd_of_mem_interior (hdvd : new.toNat ∣ old.toNat) {x : Address}
    (hx : x ∈ interior groups old new) : new.toNat ∣ x.toNat := by
  obtain ⟨a, ha, hxa⟩ := List.mem_flatMap.mp hx
  obtain ⟨i, hi, -⟩ := exists_of_mem_insideBlock (hroom a ha) hxa
  rw [alignedMembers_eq, List.mem_filter, mod_eq_zero_iff] at ha
  rw [hi]
  exact Nat.dvd_add (Nat.dvd_trans hdvd ha.2) (Nat.dvd_mul_left _ _)

end Interior

/-- Where a switch to smaller blocks is carried out, what is inside the blocks are addresses. -/
theorem room_of_shrink (hsize : size ≠ 0) (hrun : c.setBlockSize b size = .ok c')
    (hlt : size < c.blockSize) :
    ∀ a ∈ alignedMembers c.groups c.blockSize,
      a.toNat + insideCount c.blockSize size * size.toNat < 2 ^ 64 := by
  rw [setBlockSize, if_neg hsize] at hrun
  obtain ⟨c₁, hcut, -⟩ := exists_of_map_eq_ok hrun
  rw [cutTo, if_pos hlt] at hcut
  obtain ⟨addrs, hinside, -⟩ := exists_of_map_eq_ok hcut
  rw [insideBlocks] at hinside
  split at hinside
  · next hall =>
      intro a ha
      exact of_decide_eq_true (List.all_eq_true.mp hall a ha)
  · cases hinside

/-! ## Adding addresses -/

/-- An address that is classified becomes a member at most once. -/
theorem subperm_classifyAll (b : Bench σ) (allowNew : Bool) (addrs : List Address) (misses : Nat)
    (c : Classifier σ) :
    (allMembers (classifyAll b allowNew addrs misses c).2.groups).Subperm
      (addrs ++ allMembers c.groups) :=
  (List.sublist_append_right _ _).subperm.trans (perm_insertions b allowNew addrs misses c).subperm

/-- A group that is opened takes note of the current size. -/
theorem noted_classify (b : Bench σ) (allowNew : Bool) (addr : Address)
    (h : ∀ g ∈ c.groups, g.blockSize = c.blockSize) :
    ∀ g ∈ (c.classify b allowNew addr).2.groups,
      g.blockSize = (c.classify b allowNew addr).2.blockSize := by
  rw [blockSize_classify]
  rcases classify_cases b allowNew c addr with ⟨i, g, s, hget, -, -, hgroups⟩ | ⟨-, -, hgroups⟩
  · obtain ⟨front, back, hsplit, hmodify⟩ := exists_split hget addr
    rw [hsplit, List.forall_mem_append, List.forall_mem_cons] at h
    rw [hgroups, hmodify, List.forall_mem_append, List.forall_mem_cons]
    exact h
  · rw [hgroups]
    split
    · rw [List.forall_mem_append, List.forall_mem_singleton]
      exact ⟨h, rfl⟩
    · exact h

theorem noted_classifyAll (b : Bench σ) (allowNew : Bool) (addrs : List Address) (misses : Nat)
    (h : ∀ g ∈ c.groups, g.blockSize = c.blockSize) :
    ∀ g ∈ (classifyAll b allowNew addrs misses c).2.groups,
      g.blockSize = (classifyAll b allowNew addrs misses c).2.blockSize := by
  induction addrs generalizing misses c with
  | nil => exact h
  | cons addr rest ih =>
      rw [classifyAll_cons]
      exact ih _ (noted_classify b allowNew addr h)

theorem noted_regroup (b : Bench σ) (h : ∀ g ∈ c.groups, g.blockSize = c.blockSize) :
    ∀ g ∈ (c.regroup b).groups, g.blockSize = (c.regroup b).blockSize := by
  refine regroup_keeps (P := fun c => ∀ g ∈ c.groups, g.blockSize = c.blockSize) ?_ h
  intro c h
  rw [regroupFirst]
  split
  · exact h
  · next g rest heq =>
      rw [heq, List.forall_mem_cons] at h
      exact noted_classifyAll b true g.members 0 (c := { c with groups := rest }) h.2

/-- Groups that keep some of their members, all with a property, keep such members together. -/
theorem subperm_allMembers_map {f : Group → Group} {p : Address → Bool}
    (hf : ∀ g, (f g).members.Subperm (g.members.filter p)) (groups : List Group) :
    (allMembers (groups.map f)).Subperm ((allMembers groups).filter p) := by
  induction groups with
  | nil => exact List.Subperm.refl []
  | cons g rest ih =>
      rw [allMembers, allMembers, List.map_cons, List.flatMap_cons, List.flatMap_cons,
        List.filter_append]
      exact (hf g).append ih

/-! ## Tilings -/

/-- The members are the starts of distinct blocks of the current size, of which every group takes
    note. -/
structure Tiled (c : Classifier σ) : Prop where
  nonzero : c.blockSize ≠ 0
  aligned : ∀ a ∈ allMembers c.groups, c.blockSize.toNat ∣ a.toNat
  nodup : (allMembers c.groups).Nodup
  noted : ∀ g ∈ c.groups, g.blockSize = c.blockSize

namespace Tiled

theorem empty (b : Bench σ) (s : σ) (hinitial : b.settings.initialBlockSize ≠ 0) :
    Tiled (Classifier.empty b s) :=
  ⟨hinitial, fun _ ha => absurd ha List.not_mem_nil, List.nodup_nil,
    fun _ hg => absurd hg List.not_mem_nil⟩

/-- Members are the starts of distinct blocks if they come from distinct starts. -/
theorem of_subperm {starts : List Address} (hnonzero : c'.blockSize ≠ 0)
    (hsub : (allMembers c'.groups).Subperm starts) (hnodup : starts.Nodup)
    (haligned : ∀ a ∈ starts, c'.blockSize.toNat ∣ a.toNat)
    (hnoted : ∀ g ∈ c'.groups, g.blockSize = c'.blockSize) : Tiled c' := by
  refine ⟨hnonzero, fun a ha => haligned a (hsub.subset ha), ?_, hnoted⟩
  obtain ⟨front, hperm, hsublist⟩ := hsub
  exact hperm.nodup_iff.mp (hnodup.sublist hsublist)

variable (h : Tiled c)
include h

theorem warn (w : Warning) : Tiled (c.warn w) := ⟨h.nonzero, h.aligned, h.nodup, h.noted⟩

/-- **STEP**: new addresses on boundaries may be classified. -/
theorem classifyAll (b : Bench σ) (allowNew : Bool) {addrs : List Address} (hnodup : addrs.Nodup)
    (hnew : ∀ a ∈ addrs, c.blockSize.toNat ∣ a.toNat ∧ a ∉ allMembers c.groups) (misses : Nat) :
    Tiled (Classifier.classifyAll b allowNew addrs misses c).2 := by
  have hsize := blockSize_classifyAll b allowNew addrs misses c
  refine of_subperm (hsize ▸ h.nonzero) (subperm_classifyAll b allowNew addrs misses c) ?_ ?_
    (noted_classifyAll b allowNew addrs misses h.noted)
  · refine List.nodup_append.mpr ⟨hnodup, h.nodup, ?_⟩
    rintro a ha _ hmem rfl
    exact (hnew a ha).2 hmem
  · rw [hsize, List.forall_mem_append]
    exact ⟨fun a ha => (hnew a ha).1, h.aligned⟩

theorem regroup (b : Bench σ) : Tiled (c.regroup b) := by
  have hsize := blockSize_regroup b c
  refine of_subperm (hsize ▸ h.nonzero) (perm_regroup b c).subperm h.nodup ?_
    (noted_regroup b h.noted)
  rw [hsize]
  exact h.aligned

theorem sortGroups : Tiled { c with groups := c.groups.map sortGroup } := by
  refine of_subperm h.nonzero (perm_allMembers_sortGroup c.groups).subperm h.nodup h.aligned ?_
  rw [List.forall_mem_map]
  exact h.noted

/-! ## Switching -/

/-- **STEP**: towards smaller blocks, what is inside the blocks is new. -/
theorem shrink (hnew : new ≠ 0) (hdvd : new.toNat ∣ c.blockSize.toNat) (hlt : new < c.blockSize)
    (hrun : c.setBlockSize b new = .ok c') : Tiled c' := by
  have hpos := toNat_pos_iff.mpr hnew
  have hroom := room_of_shrink hnew hrun hlt
  obtain ⟨hsize, hnoted, -⟩ := setBlockSize_cases hnew hrun
  have hsub := subperm_classifyAll b false (interior c.groups c.blockSize new) 0 c
  have hgroups := groups_of_shrink hnew hrun hlt
  refine of_subperm (hsize ▸ hnew) ?_ (nodup_interior_append hpos hroom h.nodup h.aligned) ?_
    (hsize.symm ▸ hnoted)
  · rw [hgroups, allMembers, List.flatMap_map]
    exact hsub
  · rw [hsize, List.forall_mem_append]
    refine ⟨fun x hx => dvd_of_mem_interior hroom hdvd hx, ?_⟩
    exact fun a ha => Nat.dvd_trans hdvd (h.aligned a ha)

/-- **STEP**: towards larger blocks, some of the members are left. -/
theorem grow (hnew : new ≠ 0) (hlt : c.blockSize < new) (hrun : c.setBlockSize b new = .ok c') :
    Tiled c' := by
  obtain ⟨hsize, hnoted, -⟩ := setBlockSize_cases hnew hrun
  have hthin : ∀ g, (thinned c.blockSize new g).members.Subperm
      (g.members.filter fun a => new.toNat ∣ a.toNat) := by
    intro g
    refine (List.mergeSort_perm _ _).subperm.trans (List.Sublist.subperm ?_)
    refine List.monotone_filter_right g.members fun a hwhole => ?_
    exact decide_eq_true (of_decide_eq_true hwhole).1
  have hsub := subperm_allMembers_map hthin c.groups
  rw [← groups_of_grow hnew hrun hlt] at hsub
  refine of_subperm (hsize ▸ hnew) hsub (h.nodup.filter _) ?_ (hsize.symm ▸ hnoted)
  rw [hsize]
  exact fun a ha => of_decide_eq_true (List.mem_filter.mp ha).2

/-- **STEP**: switching to a divisor or a multiple of the size keeps a tiling. -/
theorem setBlockSize (hrelated : new.toNat ∣ c.blockSize.toNat ∨ c.blockSize.toNat ∣ new.toNat)
    (hrun : c.setBlockSize b new = .ok c') : Tiled c' := by
  by_cases hnew : new = 0
  · rw [Classifier.setBlockSize, if_pos hnew] at hrun
    cases hrun
    exact h
  · obtain ⟨hsize, hnoted, ⟨hlt, -⟩ | ⟨hsame, hgroups⟩ | ⟨hgt, -⟩⟩ := setBlockSize_cases hnew hrun
    · refine h.shrink hnew (hrelated.resolve_right fun hdvd => ?_) hlt hrun
      rw [UInt64.lt_iff_toNat_lt] at hlt
      exact absurd hlt (Nat.not_lt_of_le (Nat.le_of_dvd (toNat_pos_iff.mpr hnew) hdvd))
    · have hmembers : allMembers c'.groups = allMembers c.groups := by
        rw [hgroups, allMembers, List.flatMap_map]
        rfl
      refine ⟨hsize ▸ hnew, ?_, hmembers.symm ▸ h.nodup, hsize.symm ▸ hnoted⟩
      rw [hmembers, hsize, hsame]
      exact h.aligned
    · exact h.grow hnew hgt hrun

theorem guessBlockSize (hrun : c.guessBlockSize = .ok (size, c')) : Tiled c' := by
  obtain ⟨-, -, -, rfl⟩ := guessBlockSize_ok hrun
  exact h.sortGroups

/-- Between powers of two, every step is to a divisor or a multiple. -/
theorem setBlockSizeInSteps {target : UInt64} (hold : ∃ k, c.blockSize.toNat = 2 ^ k)
    (htarget : ∃ k, target.toNat = 2 ^ k)
    (hrun : c.setBlockSizeInSteps b target = .ok (size, c')) : Tiled c' := by
  obtain ⟨c₁, hsteps, -, htiled⟩ := exists_steps (b := b) (P := Tiled) hold htarget
    (fun {c₁ c₂ next} h₁ hpower₁ hnext hcloser hset _ => by
      refine h₁.setBlockSize ?_ hset
      rcases hcloser with ⟨hup, -⟩ | ⟨hdown, -⟩
      · exact Or.inr (dvd_of_power_le hpower₁ hnext (UInt64.le_of_lt hup))
      · exact Or.inl (dvd_of_power_le hnext hpower₁ (UInt64.le_of_lt hdown))) h
  cases hrun.symm.trans hsteps
  exact htiled

/-! ## Detection -/

section Detection

variable (hminimum : 1 ≤ b.settings.minimumBlockSize)
include hminimum

/-- **STEP**: half of a power of two divides it. -/
theorem halving (hpower : ∃ k, c.blockSize.toNat = 2 ^ k) (hstep : Halving b c c') :
    Tiled c' ∧ ∃ k, c'.blockSize.toNat = 2 ^ k := by
  obtain ⟨hhalf, -, -, -⟩ := hstep.spec hminimum
  obtain ⟨c₁, hguess, hlarge, hset⟩ := hstep
  have htiled := h.guessBlockSize hguess
  obtain ⟨-, -, -, rfl⟩ := guessBlockSize_ok hguess
  rw [UInt64.lt_iff_toNat_lt] at hlarge
  rw [UInt64.le_iff_toNat_le] at hminimum
  have hone : (1 : UInt64).toNat = 1 := rfl
  obtain ⟨-, hdvd⟩ := half_of_power hpower (by omega)
  exact ⟨htiled.setBlockSize (Or.inl hdvd) hset, hhalf ▸ power_of_dvd hpower hdvd⟩

/-- **RUN**: so halvings keep a tiling. -/
theorem halved {n : Nat} {k : Classifier σ} (hpower : ∃ k, c.blockSize.toNat = 2 ^ k)
    (hhalved : Halved b n c k) : Tiled k := by
  induction hhalved with
  | refl c => exact h
  | step hstep _ ih =>
      obtain ⟨htiled, hpower₁⟩ := h.halving hminimum hpower hstep
      exact ih htiled hpower₁

omit hminimum in
/-- The last guess is a multiple of the size. -/
theorem stops (hstops : Stops b c c') : Tiled c' := by
  obtain ⟨guess, c₁, hguess, -, hcommit⟩ := hstops
  have htiled := h.guessBlockSize hguess
  obtain ⟨lengths, -, hproduct, rfl⟩ := guessBlockSize_ok hguess
  rw [commitGuess] at hcommit
  split at hcommit
  · cases hcommit
    exact htiled.warn _
  · split at hcommit
    · cases hcommit
      exact htiled.warn _
    · refine htiled.setBlockSize (Or.inr ?_) hcommit
      rw [Word.toNat_of_mul hproduct]
      exact Nat.dvd_mul_left _ _

theorem detectBlockSize (hpower : ∃ k, c.blockSize.toNat = 2 ^ k)
    (hrun : c.detectBlockSize b = .ok (size, c')) : Tiled c' := by
  obtain ⟨c₁, hdetect, heq⟩ := exists_of_map_eq_ok hrun
  cases heq
  obtain ⟨n, k, hhalved, hstops⟩ := detectFrom_ok hminimum rfl hdetect
  exact (h.halved hminimum hpower hhalved).stops hstops

end Detection

end Tiled

/-! ## Sessions -/

/-- What an operation has to keep to: it adds new starts of blocks only, and changes the size to
    divisors and multiples, for which steps and detection need a power of two. -/
def Operation.Admissible (s : Settings) (c : Classifier σ) : Operation → Prop
  | .classify addr _ => c.blockSize.toNat ∣ addr.toNat ∧ addr ∉ allMembers c.groups
  | .addRegion base _ => ∀ addrs, regionAddresses s base c.blockSize = .ok addrs →
      ∀ a ∈ addrs, c.blockSize.toNat ∣ a.toNat ∧ a ∉ allMembers c.groups
  | .setBlockSize size => size.toNat ∣ c.blockSize.toNat ∨ c.blockSize.toNat ∣ size.toNat
  | .setBlockSizeInSteps target =>
      (∃ k, c.blockSize.toNat = 2 ^ k) ∧ ∃ k, target.toNat = 2 ^ k
  | .detectBlockSize => ∃ k, c.blockSize.toNat = 2 ^ k
  | .bankIndexFor _ | .regroup | .regroupUntilPlausible _ | .guessBlockSize | .score _ _ => True

/-- Every operation is admissible in the state in which it is its turn. -/
def AdmissibleIn (b : Bench σ) : List Operation → Classifier σ → Prop
  | [], _ => True
  | op :: rest, c => op.Admissible b.settings c
      ∧ ∀ answer c', c.perform b op = .ok (answer, c') → AdmissibleIn b rest c'

/-- **STEP**: admissible operations keep a tiling. -/
theorem Tiled.perform (h : Tiled c) (hminimum : 1 ≤ b.settings.minimumBlockSize) {op : Operation}
    (hop : op.Admissible b.settings c) {answer : Answer}
    (hrun : c.perform b op = .ok (answer, c')) : Tiled c' := by
  cases op with
  | classify addr allowNew =>
      cases hrun
      exact h.classifyAll b allowNew (List.nodup_singleton addr) (List.forall_mem_singleton.mpr hop)
        0
  | bankIndexFor addr =>
      cases hrun
      exact ⟨h.nonzero, h.aligned, h.nodup, h.noted⟩
  | addRegion base allowNew =>
      obtain ⟨⟨n, c₁⟩, hadd, heq⟩ := exists_of_map_eq_ok hrun
      cases heq
      obtain ⟨addrs, haddrs, heq⟩ := exists_of_map_eq_ok hadd
      have htiled := h.classifyAll b allowNew (nodup_regionAddresses haddrs) (hop addrs haddrs) 0
      rwa [heq] at htiled
  | regroup =>
      cases hrun
      exact h.regroup b
  | regroupUntilPlausible maxRounds =>
      cases hrun
      exact regroupRounds_keeps (fun _ h => h.regroup b) maxRounds 0 h
  | guessBlockSize =>
      obtain ⟨size, -, hguess⟩ := exists_of_sizeReply hrun
      exact h.guessBlockSize hguess
  | detectBlockSize =>
      obtain ⟨size, -, hdetect⟩ := exists_of_sizeReply hrun
      exact h.detectBlockSize hminimum hop hdetect
  | setBlockSizeInSteps target =>
      obtain ⟨size, -, hsteps⟩ := exists_of_sizeReply hrun
      exact h.setBlockSizeInSteps hop.1 hop.2 hsteps
  | setBlockSize size =>
      obtain ⟨c₁, hset, heq⟩ := exists_of_map_eq_ok hrun
      cases heq
      exact h.setBlockSize hop hset
  | score index addr =>
      rw [Classifier.perform, scoreAt] at hrun
      split at hrun
      · cases hrun
      · cases hrun
        exact ⟨h.nonzero, h.aligned, h.nodup, h.noted⟩

/-- **RUN**: a session of admissible operations keeps a tiling. -/
theorem Tiled.performAll (h : Tiled c) (hminimum : 1 ≤ b.settings.minimumBlockSize)
    {ops : List Operation} (hops : AdmissibleIn b ops c) {answers : List Answer}
    (hrun : performAll b ops c = .ok (answers, c')) : Tiled c' := by
  induction ops generalizing c answers with
  | nil =>
      cases hrun
      exact h
  | cons op rest ih =>
      rw [Classifier.performAll] at hrun
      split at hrun
      · cases hrun
      · next answer c₁ hop =>
          obtain ⟨⟨more, c₂⟩, hrest, heq⟩ := exists_of_map_eq_ok hrun
          cases heq
          exact ih (h.perform hminimum hops.1 hop) (hops.2 answer c₁ hop) hrest

/-- **TILINGS**: whatever the probe answers, in the state behind any admissible session every
    member is on a boundary of the current block size, no address is a member twice, in one group
    or in two, and every group takes note of this size. -/
theorem session_tiled (hinitial : 1 ≤ b.settings.initialBlockSize)
    (hminimum : 1 ≤ b.settings.minimumBlockSize) {s : σ} {ops : List Operation}
    (hops : AdmissibleIn b ops (empty b s)) {answers : List Answer}
    (hrun : performAll b ops (empty b s) = .ok (answers, c)) :
    (∀ g ∈ c.groups, ∀ a ∈ g.members, c.blockSize.toNat ∣ a.toNat)
      ∧ (allMembers c.groups).Nodup
      ∧ ∀ g ∈ c.groups, g.blockSize = c.blockSize := by
  have hnonzero : b.settings.initialBlockSize ≠ 0 := toNat_pos_iff.mp hinitial
  have htiled := (Tiled.empty b s hnonzero).performAll hminimum hops hrun
  refine ⟨?_, htiled.nodup, htiled.noted⟩
  exact fun g hg a ha => htiled.aligned a (List.mem_flatMap.mpr ⟨g, hg, ha⟩)

/-- Two banks of eight KB each, in a huge block of which four pages are classified. -/
def fourPages : Bench Nat := Bench.simulated { endPage := 4 } [8192]

/-- The four pages in their banks. -/
def pagesOfTwoBanks : Classifier Nat :=
  ⟨[.ofMembers [0, 4096] 4096, .ofMembers [8192, 12288] 4096], 4096, 8, []⟩

/-- The four pages with the addresses inside them. -/
def halvesOfTwoBanks : Classifier Nat :=
  ⟨[.ofMembers [0, 4096, 2048, 6144] 2048, .ofMembers [8192, 12288, 10240, 14336] 2048], 2048, 30,
    []⟩

/-- The halves and an address of another huge block. -/
def nineHalves : Classifier Nat :=
  ⟨[.ofMembers [0, 4096, 2048, 6144, 16384] 2048, .ofMembers [8192, 12288, 10240, 14336] 2048],
    2048, 38, []⟩

/-- A session that inserts at two block sizes and ends in a third one. -/
def fourPagesSession : List Operation :=
  [.addRegion 0 true, .setBlockSize 2048, .classify 16384 true, .detectBlockSize]

theorem session_tiled_four_pages :
    ∃ answers c, performAll fourPages fourPagesSession (empty fourPages 0) = .ok (answers, c)
      ∧ (∀ g ∈ c.groups, ∀ a ∈ g.members, c.blockSize.toNat ∣ a.toNat)
      ∧ (allMembers c.groups).Nodup
      ∧ ∀ g ∈ c.groups, g.blockSize = c.blockSize := by
  have hregion : (empty fourPages 0).perform fourPages (.addRegion 0 true)
      = .ok (.misses 2, pagesOfTwoBanks) := by cbv
  have hshrink : pagesOfTwoBanks.perform fourPages (.setBlockSize 2048)
      = .ok (.done, halvesOfTwoBanks) := by cbv
  have hclassify : halvesOfTwoBanks.perform fourPages (.classify 16384 true)
      = .ok (.found true, nineHalves) := by cbv
  obtain ⟨-, hends, -⟩ := detectBlockSize_settles (b := fourPages) (c := nineHalves)
    (by decide) (by decide)
  obtain ⟨size, c, hdetect⟩ := hends (forall_mem_of_all (by decide +kernel))
  have hlast : nineHalves.perform fourPages .detectBlockSize = .ok (.size size, c) := by
    rw [perform, hdetect, sizeReply, Except.map]
  have hrun : performAll fourPages fourPagesSession (empty fourPages 0)
      = .ok ([.misses 2, .done, .found true, .size size], c) := by
    simp only [fourPagesSession, performAll, hregion, hshrink, hclassify, hlast, Except.map]
  have hadmissible : AdmissibleIn fourPages fourPagesSession (empty fourPages 0) := by
    refine ⟨?_, fun answer c₁ h₁ => ?_⟩
    · intro addrs haddrs
      have hblocks : regionAddresses fourPages.settings 0 4096
          = .ok [0, 4096, 8192, 12288] := by cbv
      cases hblocks.symm.trans haddrs
      exact forall_mem_of_all (by decide)
    · cases hregion.symm.trans h₁
      refine ⟨Or.inl (by decide), fun answer c₂ h₂ => ?_⟩
      cases hshrink.symm.trans h₂
      refine ⟨⟨by decide, by decide⟩, fun answer c₃ h₃ => ?_⟩
      cases hclassify.symm.trans h₃
      exact ⟨⟨11, by decide⟩, fun _ _ _ => trivial⟩
  exact ⟨_, c, hrun, session_tiled (by decide) (by decide) hadmissible hrun⟩

end DramBanks.Classifier
