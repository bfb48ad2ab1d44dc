import DramBanks.Block
import DramBanks.Proofs.Classifier.Lengths
import DramBanks.Proofs.Classifier.Region
/-!
# Staying inside of blocks

    A probe may only be asked for timings of addresses in the blocks.  The
    classifier asks it for timings of new addresses against members, so it
    keeps to the blocks as long as its members and the new addresses lie in
    them, whatever the probe answers (`Contained`).

    New addresses come from two places.  A region lies in its block.  And
    what is inside an aligned piece of a block lies in the block, as long as
    the size of the piece divides the size of the block: so switching to
    smaller blocks is only safe from such a size.  Stepping and detection
    never shrink from any other size, and they never get close to the end of
    the word, because there is room for another block behind each block
    (`Contained.stepTo`, `Contained.detectBlockSize`). -/

namespace DramBanks

variable {σ : Type}

/-- A property of the states of a probe that choices of samples keep, and timings of addresses
    that are good. -/
structure Probe.Keeps (p : Probe σ) (Good : Address → Prop) (Inv : σ → Prop) : Prop where
  measure : ∀ q s, Good q.known → Good q.candidate → Inv s → Inv (p.measure q s).2
  choose : ∀ n k s, Inv s → Inv (p.choose n k s).2

/-- A computation is carried out with a result in `Q`, unless memory runs out. -/
def Succeeds {α : Type} (Q : α → Prop) : Except Fault α → Prop
  | .error f => f = .capacity
  | .ok a => Q a

theorem Succeeds.map {α γ : Type} {Q : α → Prop} {R : γ → Prop} {x : Except Fault α} {f : α → γ}
    (h : Succeeds Q x) (hf : ∀ a, Q a → R (f a)) : Succeeds R (x.map f) := by
  cases x with
  | error f => exact h
  | ok a => exact hf a h

namespace Block

/-- The address lies in one of the blocks. -/
def Mapped (blocks : List Block) (addr : Address) : Prop :=
  ∃ block ∈ blocks, block.contains addr = true

/-- Aligned blocks of `size` bytes, a power of two, with room for another block behind each. -/
structure Spacious (size : UInt64) (blocks : List Block) : Prop where
  power : ∃ k, size.toNat = 2 ^ k
  sizes : ∀ block ∈ blocks, block.size = size
  aligned : ∀ block ∈ blocks, size.toNat ∣ block.base.toNat
  room : ∀ block ∈ blocks, block.base.toNat + 2 * size.toNat ≤ 2 ^ 64

namespace Spacious

variable {size step : UInt64} {blocks : List Block} (h : Spacious size blocks) {a : Address}
include h

theorem mapped {block : Block} (hblock : block ∈ blocks) (hle : block.base.toNat ≤ a.toNat)
    (hlt : a.toNat < block.base.toNat + size.toNat) : Mapped blocks a := by
  refine ⟨block, hblock, contains_iff.mpr ⟨hle, ?_⟩⟩
  rwa [h.sizes block hblock]

/-- A piece of a block whose size divides the block lies in the block. -/
theorem mapped_of_piece (hstep : step.toNat ∣ size.toNat) (ha : Mapped blocks a)
    (haligned : step.toNat ∣ a.toNat) {x : Address} (hle : a.toNat ≤ x.toNat)
    (hlt : x.toNat < a.toNat + step.toNat) : Mapped blocks x := by
  obtain ⟨block, hblock, hcontains⟩ := ha
  obtain ⟨hbase, hend⟩ := contains_iff.mp hcontains
  rw [h.sizes block hblock] at hend
  have hdvd : step.toNat ∣ block.base.toNat + size.toNat - a.toNat :=
    Nat.dvd_sub (Nat.dvd_add (Nat.dvd_trans hstep (h.aligned block hblock)) hstep) haligned
  have hroom : step.toNat ≤ block.base.toNat + size.toNat - a.toNat :=
    Nat.le_of_dvd (by omega) hdvd
  exact h.mapped hblock (by omega) (by omega)

/-- A step of at most a block from an address of the blocks stays inside the word. -/
theorem add_lt (hstep : step.toNat ≤ size.toNat) (ha : Mapped blocks a) :
    a.toNat + step.toNat < 2 ^ 64 := by
  obtain ⟨block, hblock, hcontains⟩ := ha
  obtain ⟨-, hend⟩ := contains_iff.mp hcontains
  rw [h.sizes block hblock] at hend
  have hroom := h.room block hblock
  omega

/-- Disjoint blocks hold fewer bytes than there are addresses. -/
theorem length_mul_lt
    (hdisjoint : blocks.Pairwise fun x y => ∀ a, x.contains a = true → ¬ y.contains a = true) :
    blocks.length * size.toNat < 2 ^ 64 := by
  have hpos := Classifier.pos_of_power h.power
  have hbase : ∀ block ∈ blocks, block.contains block.base = true := by
    intro block hblock
    refine contains_iff.mpr ⟨Nat.le_refl _, ?_⟩
    rw [h.sizes block hblock]
    omega
  -- blocks are told apart by their number in the word
  have hnodup : (blocks.map fun block => block.base.toNat / size.toNat).Nodup := by
    refine List.pairwise_map.mpr (hdisjoint.imp_of_mem ?_)
    intro x y hx hy hxy heq
    have hbases : x.base.toNat = y.base.toNat := by
      rw [← Nat.div_mul_cancel (h.aligned x hx), heq, Nat.div_mul_cancel (h.aligned y hy)]
    have hsame : x.base = y.base := UInt64.toNat_inj.mp hbases
    exact hxy x.base (hbase x hx) (hsame ▸ hbase y hy)
  have hsubset : (blocks.map fun block => block.base.toNat / size.toNat)
      ⊆ List.range (2 ^ 64 / size.toNat - 1) := by
    intro i hi
    obtain ⟨block, hblock, rfl⟩ := List.mem_map.mp hi
    have hlast : block.base.toNat / size.toNat + 2 ≤ 2 ^ 64 / size.toNat := by
      rw [← Nat.add_mul_div_right _ _ hpos]
      exact Nat.div_le_div_right (h.room block hblock)
    exact List.mem_range.mpr (by omega)
  have hlength := (List.subperm_of_subset hnodup hsubset).length_le
  rw [List.length_map, List.length_range] at hlength
  have hone : 1 ≤ 2 ^ 64 / size.toNat :=
    Nat.div_pos (Nat.le_of_lt (UInt64.toNat_lt size)) hpos
  calc blocks.length * size.toNat
      < (blocks.length + 1) * size.toNat := by rw [Nat.succ_mul]; omega
    _ ≤ 2 ^ 64 / size.toNat * size.toNat := Nat.mul_le_mul_right _ (by omega)
    _ ≤ 2 ^ 64 := Nat.div_mul_le_self _ _

end Spacious

end Block

open Block

/-! ## Timings -/

section Timings

variable {b : Bench σ} {Good : Address → Prop} {Inv : σ → Prop} {addr : Address} {s : σ}
  (hprobe : b.probe.Keeps Good Inv) (haddr : Good addr)
include hprobe haddr

theorem Group.timings_keeps {members : List Address} (hmembers : ∀ m ∈ members, Good m)
    (h : Inv s) : Inv (Group.timings b addr members s).2 := by
  induction members generalizing s with
  | nil => exact h
  | cons m rest ih =>
      rw [List.forall_mem_cons] at hmembers
      exact ih hmembers.2 (hprobe.measure _ s hmembers.1 haddr h)

theorem Group.score_keeps {g : Group} (hg : ∀ m ∈ g.members, Good m) (h : Inv s) :
    Inv (g.score b addr s).2 :=
  timings_keeps hprobe haddr (fun m hm => hg m (Group.mem_of_mem_sampled hm))
    (hprobe.choose _ _ s h)

namespace Classifier

variable {groups : List Group} (hgroups : ∀ g ∈ groups, ∀ m ∈ g.members, Good m)
include hgroups

theorem bestGroup_keeps (index : Nat) (best : Option (Nat × Latency)) (h : Inv s) :
    Inv (bestGroup b addr groups index best s).2 := by
  induction groups generalizing index best s with
  | nil => exact h
  | cons g rest ih =>
      rw [List.forall_mem_cons] at hgroups
      exact ih hgroups.2 _ _ (Group.score_keeps hprobe haddr hgroups.1 h)

theorem search_keeps (attempts : Nat) (h : Inv s) :
    Inv (search b addr groups attempts s).2 := by
  induction attempts generalizing s with
  | zero => exact h
  | succ attempts ih =>
      have hbest := bestGroup_keeps hprobe haddr hgroups 0 none h
      rw [search]
      split
      · next heq =>
          rw [heq] at hbest
          exact hbest
      · next heq =>
          rw [heq] at hbest
          exact ih hbest

end Classifier

end Timings

namespace Classifier

/-- All members lie in the blocks, and the state of the probe has a property. -/
structure Contained (blocks : List Block) (Inv : σ → Prop) (c : Classifier σ) : Prop where
  members : ∀ g ∈ c.groups, ∀ a ∈ g.members, Mapped blocks a
  probe : Inv c.probe

variable {b : Bench σ} {c : Classifier σ} {size : UInt64} {blocks : List Block} {Inv : σ → Prop}

namespace Contained

/-! ## Adding addresses -/

section Adding

variable (hprobe : b.probe.Keeps (Mapped blocks) Inv) (h : Contained blocks Inv c)
include hprobe h

/-- **STEP**: an address of the blocks may be classified. -/
theorem classify (allowNew : Bool) {addr : Address} (haddr : Mapped blocks addr) :
    Contained blocks Inv (c.classify b allowNew addr).2 := by
  refine ⟨?_, ?_⟩
  · have hmodify : ∀ {i g}, c.groups[i]? = some g →
        ∀ k ∈ c.groups.modify i (·.push addr), ∀ a ∈ k.members, Mapped blocks a := by
      intro i g hget k hk a ha
      have hmem := (perm_allMembers_modify hget addr).mem_iff.mp (mem_allMembers.mpr ⟨k, hk, ha⟩)
      rcases List.mem_cons.mp hmem with rfl | hmem
      · exact haddr
      · obtain ⟨k', hk', ha'⟩ := mem_allMembers.mp hmem
        exact h.members k' hk' a ha'
    rcases classify_cases b allowNew c addr with ⟨i, g, s, hget, -, -, hgroups⟩ | ⟨-, -, hgroups⟩
    · rw [hgroups]
      exact hmodify hget
    · rw [hgroups]
      cases allowNew with
      | false => exact h.members
      | true =>
          rw [if_pos rfl, List.forall_mem_append, List.forall_mem_singleton]
          exact ⟨h.members, fun a ha => List.mem_singleton.mp ha ▸ haddr⟩
  · have hsearch := search_keeps hprobe haddr h.members (attempts b) h.probe
    have hstate : (c.classify b allowNew addr).2.probe
        = (search b addr c.groups (attempts b) c.probe).2 := by
      rw [Classifier.classify]
      split
      · next heq => exact congrArg (fun r => r.2.probe) heq.symm
      · next heq =>
          have hsame := congrArg (fun r => r.2.probe) heq.symm
          cases allowNew <;> exact hsame
    rwa [hstate]

theorem classifyAll (allowNew : Bool) {addrs : List Address}
    (haddrs : ∀ a ∈ addrs, Mapped blocks a) (misses : Nat) :
    Contained blocks Inv (Classifier.classifyAll b allowNew addrs misses c).2 := by
  induction addrs generalizing misses c with
  | nil => exact h
  | cons addr rest ih =>
      rw [List.forall_mem_cons] at haddrs
      exact ih (h.classify hprobe allowNew haddrs.1) haddrs.2 _

theorem regroupFirst : Contained blocks Inv (c.regroupFirst b) := by
  rw [Classifier.regroupFirst]
  split
  · exact h
  · next g rest heq =>
      have hmembers := h.members
      rw [heq, List.forall_mem_cons] at hmembers
      exact classifyAll (c := { c with groups := rest }) hprobe ⟨hmembers.2, h.probe⟩ true
        hmembers.1 0

theorem regroup : Contained blocks Inv (c.regroup b) :=
  regroup_keeps (fun _ h => h.regroupFirst hprobe) h

theorem regroupRounds (left done : Nat) :
    Contained blocks Inv (Classifier.regroupRounds b left done c).2 :=
  regroupRounds_keeps (fun _ h => h.regroup hprobe) left done h

end Adding

/-! ## Adding regions -/

theorem misses_le (allowNew : Bool) (addrs : List Address) (misses : Nat) (c : Classifier σ) :
    (Classifier.classifyAll b allowNew addrs misses c).1 ≤ misses + addrs.length := by
  induction addrs generalizing misses c with
  | nil => exact Nat.le_refl misses
  | cons addr rest ih =>
      have hone : (if (c.classify b allowNew addr).1 then misses else misses + 1) ≤ misses + 1 := by
        split
        · exact Nat.le_succ misses
        · exact Nat.le_refl _
      have hrest := ih (if (c.classify b allowNew addr).1 then misses else misses + 1)
        (c.classify b allowNew addr).2
      rw [classifyAll_cons, List.length_cons]
      omega

/-- The addresses of the classified part of a block lie in it, whatever the block size, and there
    are no more of them than bytes in the block. -/
theorem regionAddresses_succeeds (hspace : Spacious size blocks) {s : Settings}
    (hstart : s.startPage ≤ s.endPage) (hstop : s.endPage.toNat * 4096 ≤ size.toNat)
    {step : UInt64} (hstep : step ≠ 0) {block : Block} (hblock : block ∈ blocks) :
    Succeeds (fun addrs => addrs.length ≤ size.toNat ∧ ∀ a ∈ addrs, Mapped blocks a)
      (regionAddresses s block.base step) := by
  have hroom := hspace.room block hblock
  have hpos := pos_of_power hspace.power
  have hle := UInt64.le_iff_toNat_le.mp hstart
  have hlastroom : block.base.toNat + s.endPage.toNat * 4096 < 2 ^ 64 := by omega
  have hfirstroom : block.base.toNat + s.startPage.toNat * 4096 < 2 ^ 64 :=
    Nat.lt_of_le_of_lt (Nat.add_le_add_left (Nat.mul_le_mul_right _ hle) _) hlastroom
  have hsteppos : 0 < step.toNat := toNat_pos_iff.mpr hstep
  rw [regionAddresses_eq hfirstroom hlastroom hsteppos]
  split
  · rfl
  refine ⟨?_, ?_⟩
  · have hbytes : (s.endPage.toNat - s.startPage.toNat) * 4096 ≤ size.toNat :=
      Nat.le_trans (Nat.mul_le_mul_right _ (Nat.sub_le _ _)) hstop
    rw [visited, progression, List.length_map, List.length_range]
    exact Nat.le_trans (visitCount_le hsteppos) hbytes
  · intro a ha
    obtain ⟨hfirst, hlast⟩ := ((mem_visited_iff hfirstroom hlastroom hsteppos).mp ha).1
    exact hspace.mapped hblock (by omega) (by omega)

theorem addRegion (hprobe : b.probe.Keeps (Mapped blocks) Inv) (hspace : Spacious size blocks)
    (hstart : b.settings.startPage ≤ b.settings.endPage)
    (hstop : b.settings.endPage.toNat * 4096 ≤ size.toNat) (hsize : c.blockSize ≠ 0)
    (h : Contained blocks Inv c) (allowNew : Bool) {block : Block} (hblock : block ∈ blocks) :
    Succeeds (fun r => r.1 ≤ size.toNat ∧ r.2.blockSize = c.blockSize ∧ Contained blocks Inv r.2)
      (c.addRegion b allowNew block.base) := by
  refine (regionAddresses_succeeds hspace hstart hstop hsize hblock).map ?_
  rintro addrs ⟨hlength, haddrs⟩
  have hmisses := misses_le (b := b) allowNew addrs 0 c
  exact ⟨by omega, blockSize_classifyAll b allowNew addrs 0 c,
    h.classifyAll hprobe allowNew haddrs 0⟩

/-! ## Switching -/

theorem map (h : Contained blocks Inv c) {f : Group → Group}
    (hf : ∀ g, (f g).members ⊆ g.members) :
    Contained blocks Inv { c with groups := c.groups.map f } := by
  refine ⟨?_, h.probe⟩
  intro g' hg' a ha
  obtain ⟨g, hg, rfl⟩ := List.mem_map.mp hg'
  exact h.members g hg a (hf g ha)

theorem warn (h : Contained blocks Inv c) (w : Warning) : Contained blocks Inv (c.warn w) :=
  ⟨h.members, h.probe⟩

theorem commit (h : Contained blocks Inv c) (new : UInt64) :
    Contained blocks Inv (c.commit new) := by
  have hmap := h.map (f := fun g => { g with blockSize := new }) fun _ _ ha => ha
  rw [Classifier.commit]
  split
  · exact ⟨hmap.members, hmap.probe⟩
  · exact ⟨hmap.members, hmap.probe⟩

/-- Smaller blocks are classified at addresses of the old ones. -/
theorem expand (hprobe : b.probe.Keeps (Mapped blocks) Inv) (hspace : Spacious size blocks)
    (h : Contained blocks Inv c) (hold : c.blockSize.toNat ∣ size.toNat) (new : UInt64) :
    ∃ c', c.expand b c.blockSize new = .ok c' ∧ Contained blocks Inv c' := by
  have hpower := power_of_dvd hspace.power hold
  have hstarts : ∀ a ∈ alignedMembers c.groups c.blockSize,
      Mapped blocks a ∧ c.blockSize.toNat ∣ a.toNat := by
    intro a ha
    obtain ⟨g, hg, hmem⟩ := List.mem_flatMap.mp ha
    obtain ⟨hag, haligned⟩ := List.mem_filter.mp hmem
    exact ⟨h.members g hg a hag, mod_eq_zero_iff.mp haligned⟩
  have hinside := insideBlocks_eq (pos_of_power hpower)
    (fun a ha => add_size_le hpower (hstarts a ha).2) new
  refine ⟨_, by rw [Classifier.expand, hinside]; rfl, h.classifyAll hprobe false ?_ 0⟩
  intro x hx
  obtain ⟨a, ha, hxa⟩ := List.mem_flatMap.mp hx
  obtain ⟨i, hi, rfl⟩ := List.mem_map.mp hxa
  obtain ⟨hmapped, haligned⟩ := hstarts a ha
  have hend := add_size_le hpower haligned
  have hoffset : (i + 1) * new.toNat ≤ c.blockSize.toNat - 1 :=
    Nat.le_trans (Nat.mul_le_mul_right _ (List.mem_range.mp hi)) (Nat.div_mul_le_self _ _)
  have hpos := pos_of_power hpower
  have hnat : (a + UInt64.ofNat (i + 1) * new).toNat = a.toNat + (i + 1) * new.toNat :=
    toNat_add_mul (by omega)
  exact hspace.mapped_of_piece hold hmapped haligned (by omega) (by omega)

/-- Where no member is within a step of the end of the word, successors can be looked up. -/
theorem successorsIn_of_room {members : List Address} {step : UInt64}
    (h : ∀ m ∈ members, m.toNat + step.toNat < 2 ^ 64) (count : Nat) {a : Address}
    (ha : a ∈ members) :
    successorsIn (Std.HashSet.ofList members) step count a
      = .ok (successorsAmong members step count a) := by
  induction count generalizing a with
  | zero => rfl
  | succ count ih =>
      have hnext : Word.add a step = .ok (a + step) := if_pos (h a ha)
      rw [successorsIn, hnext, successorsAmong_succ]
      simp only [Std.HashSet.contains_ofList]
      cases hmem : members.contains (a + step) with
      | true => exact ih (List.contains_iff_mem.mp hmem)
      | false => rfl

/-- Larger blocks are looked up without leaving the word: because there is room behind the blocks,
    or because the blocks are aligned to their new size. -/
theorem simplify (hspace : Spacious size blocks) (h : Contained blocks Inv c) {new : UInt64}
    (hsizes : c.blockSize.toNat ∣ size.toNat
      ∨ (∃ k, new.toNat = 2 ^ k) ∧ c.blockSize.toNat ∣ new.toNat) :
    ∃ c', c.simplify c.blockSize new = .ok c' ∧ Contained blocks Inv c' := by
  have hcontained := h.map (subset_simplified c.blockSize new)
  rcases hsizes with hold | ⟨hpower, hdvd⟩
  · have hpos := Nat.pos_of_dvd_of_pos hold (pos_of_power hspace.power)
    have hle := Nat.le_of_dvd (pos_of_power hspace.power) hold
    have hnonzero : c.blockSize ≠ 0 := toNat_pos_iff.mp hpos
    refine ⟨_, ?_, hcontained⟩
    rw [Classifier.simplify, if_neg hnonzero, simplifyGroups_eq]
    · rfl
    · intro g hg a ha _
      exact successorsIn_of_room (fun m hm => hspace.add_lt hle (h.members g hg m hm)) _ ha
  · exact ⟨_, simplify_eq hpower hdvd, hcontained⟩

/-- **SWITCH**: any block size can be switched to from one that divides the blocks, and a larger
    power of two from one that divides it. -/
theorem setBlockSize (hprobe : b.probe.Keeps (Mapped blocks) Inv) (hspace : Spacious size blocks)
    (h : Contained blocks Inv c) {new : UInt64} (hnew : new ≠ 0)
    (hsizes : c.blockSize.toNat ∣ size.toNat
      ∨ c.blockSize < new ∧ (∃ k, new.toNat = 2 ^ k) ∧ c.blockSize.toNat ∣ new.toNat) :
    ∃ c', c.setBlockSize b new = .ok c' ∧ c'.blockSize = new ∧ Contained blocks Inv c' := by
  have hcut : ∃ c', c.cutTo b new = .ok c' ∧ Contained blocks Inv c' := by
    rw [Classifier.cutTo]
    split
    · next hlt =>
        have hold := hsizes.resolve_right fun hup => UInt64.lt_asymm hlt hup.1
        exact h.expand hprobe hspace hold new
    · split
      · exact h.simplify hspace (hsizes.imp_right And.right)
      · exact ⟨c, rfl, h⟩
  obtain ⟨c', hrun, hcontained⟩ := hcut
  refine ⟨c'.commit new, ?_, blockSize_commit new c', hcontained.commit new⟩
  rw [Classifier.setBlockSize, if_neg hnew, hrun]
  rfl

/-! ## Guessing -/

/-- **GUESS**: a guess from members of the blocks stays inside the word. -/
theorem guessBlockSize (hspace : Spacious size blocks) (h : Contained blocks Inv c)
    (hold : c.blockSize.toNat ∣ size.toNat) :
    ∃ guess c', c.guessBlockSize = .ok (guess, c') ∧ c'.blockSize = c.blockSize
      ∧ Contained blocks Inv c' := by
  have hle := Nat.le_of_dvd (pos_of_power hspace.power) hold
  cases hguess : c.guessBlockSize with
  | error f =>
      obtain ⟨-, a, ha, hge⟩ := guessBlockSize_error hguess
      obtain ⟨g, hg, hmem⟩ := mem_allMembers.mp ha
      exact absurd (hspace.add_lt hle (h.members g hg a hmem)) (Nat.not_lt.mpr hge)
  | ok result =>
      obtain ⟨lengths, -, -, heq⟩ := guessBlockSize_ok hguess
      exact ⟨result.1, result.2, rfl, heq ▸ rfl,
        heq ▸ h.map (f := sortGroup) fun g a ha => mem_sorted.mp ha⟩

/-! ## Detection and steps -/

section Settling

variable (hprobe : b.probe.Keeps (Mapped blocks) Inv) (hspace : Spacious size blocks)
include hprobe hspace

/-- A guess can be taken, whether or not it divides the blocks: nothing is shrunk behind it. -/
theorem commitGuess (h : Contained blocks Inv c) (hold : c.blockSize.toNat ∣ size.toNat)
    (guess : UInt64) :
    ∃ c', c.commitGuess b guess = .ok c' ∧ c'.blockSize ≠ 0 ∧ Contained blocks Inv c' := by
  have hnonzero : c.blockSize ≠ 0 :=
    toNat_pos_iff.mp (Nat.pos_of_dvd_of_pos hold (pos_of_power hspace.power))
  rw [Classifier.commitGuess]
  split
  · exact ⟨_, rfl, hnonzero, h.warn _⟩
  · next hguess =>
      split
      · exact ⟨_, rfl, hnonzero, h.warn _⟩
      · obtain ⟨c', hset, hsame, hcontained⟩ := h.setBlockSize hprobe hspace hguess (Or.inl hold)
        exact ⟨c', hset, hsame ▸ hguess, hcontained⟩

/-- **DETECTION**: the sizes that are halved divide the blocks, and halving ends above zero. -/
theorem detectFrom (hminimum : b.settings.minimumBlockSize ≠ 0) {now : UInt64}
    (h : Contained blocks Inv c) (hnow : c.blockSize = now) (hold : now.toNat ∣ size.toNat) :
    ∃ c', c.detectFrom b now = .ok c' ∧ c'.blockSize ≠ 0 ∧ Contained blocks Inv c' := by
  induction hn : now.toNat using Nat.strong_induction_on generalizing now c with
  | _ n ih =>
      subst hn
      obtain ⟨guess, c₁, hguess, hsame₁, h₁⟩ := h.guessBlockSize hspace (hnow ▸ hold)
      have hold₁ : c₁.blockSize.toNat ∣ size.toNat := by
        rw [hsame₁, hnow]
        exact hold
      rw [Classifier.detectFrom, hguess]
      simp only
      split
      · next hcond =>
          have hpos := toNat_pos_iff.mpr hminimum
          have hlt := UInt64.lt_iff_toNat_lt.mp hcond.2
          obtain ⟨hnonzero, hhalf⟩ := half_of_power (power_of_dvd hspace.power hold) (by omega)
          obtain ⟨c₂, hset, hsame₂, h₂⟩ := h₁.setBlockSize hprobe hspace hnonzero (Or.inl hold₁)
          have hless : (now / 2).toNat < now.toNat := by
            rw [UInt64.toNat_div]
            exact Nat.div_lt_self (by omega) (by decide)
          rw [if_neg hnonzero, hset]
          exact ih _ hless h₂ hsame₂ (Nat.dvd_trans hhalf hold) rfl
      · exact h₁.commitGuess hprobe hspace hold₁ guess

theorem detectBlockSize (hminimum : b.settings.minimumBlockSize ≠ 0) (h : Contained blocks Inv c)
    (hold : c.blockSize.toNat ∣ size.toNat) :
    ∃ sz c', c.detectBlockSize b = .ok (sz, c') ∧ c'.blockSize ≠ 0 ∧ Contained blocks Inv c' := by
  obtain ⟨c', hdetect, hnonzero, hcontained⟩ := h.detectFrom hprobe hspace hminimum rfl hold
  exact ⟨c'.blockSize, c', by rw [Classifier.detectBlockSize, hdetect]; rfl, hnonzero, hcontained⟩

/-- **STEPS**: a size that is halved divides the blocks, and one that is doubled does not exceed
    the target. -/
theorem stepTo {target : UInt64} {i t left : Nat} (ht : target.toNat = 2 ^ t)
    (hi : c.blockSize.toNat = 2 ^ i) (hup : t ≤ i + left) (hdown : i ≤ t + left)
    (h : Contained blocks Inv c) (hold : c.blockSize.toNat ∣ size.toNat) :
    ∃ c', c.stepTo b target left = .ok c' ∧ c'.blockSize = target ∧ Contained blocks Inv c' := by
  have hnext : ∀ {c : Classifier σ} {next : UInt64} {i j : Nat},
      (c.blockSize.toNat ∣ size.toNat ∨ c.blockSize.toNat ≤ 2 ^ t) ∧ Contained blocks Inv c →
      c.blockSize.toNat = 2 ^ i → next.toNat = 2 ^ j → (i < t ∧ j = i + 1 ∨ t < i ∧ i = j + 1) →
      ∃ c', c.setBlockSize b next = .ok c' ∧ c'.blockSize = next
        ∧ (c'.blockSize.toNat ∣ size.toNat ∨ c'.blockSize.toNat ≤ 2 ^ t)
        ∧ Contained blocks Inv c' := by
    rintro c next i j ⟨hsizes, h⟩ hi hj hcloser
    have hnonzero : next ≠ 0 := toNat_pos_iff.mp (pos_of_power ⟨j, hj⟩)
    rcases hcloser with ⟨hlt, rfl⟩ | ⟨hlt, rfl⟩
    · have hgrow : c.blockSize < next ∧ (∃ k, next.toNat = 2 ^ k)
          ∧ c.blockSize.toNat ∣ next.toNat := by
        rw [UInt64.lt_iff_toNat_lt, hi, hj]
        exact ⟨Nat.pow_lt_pow_right Nat.one_lt_two (Nat.lt_succ_self i), ⟨_, rfl⟩,
          Nat.pow_dvd_pow 2 (Nat.le_succ i)⟩
      obtain ⟨c', hset, hsame, h'⟩ := h.setBlockSize hprobe hspace hnonzero (Or.inr hgrow)
      refine ⟨c', hset, hsame, Or.inr ?_, h'⟩
      rw [hsame, hj]
      exact Nat.pow_le_pow_right Nat.two_pos hlt
    · have hdvd : c.blockSize.toNat ∣ size.toNat := by
        refine hsizes.resolve_right (Nat.not_le_of_lt ?_)
        rw [hi]
        exact Nat.pow_lt_pow_right Nat.one_lt_two hlt
      obtain ⟨c', hset, hsame, h'⟩ := h.setBlockSize hprobe hspace hnonzero (Or.inl hdvd)
      refine ⟨c', hset, hsame, Or.inl (Nat.dvd_trans ?_ hdvd), h'⟩
      rw [hsame, hi, hj]
      exact Nat.pow_dvd_pow 2 (Nat.le_succ j)
  obtain ⟨c', hstep, hsame, -, h'⟩ := exists_stepTo ht hnext hi hup hdown ⟨Or.inl hold, h⟩
  exact ⟨c', hstep, hsame, h'⟩

theorem setBlockSizeInSteps (hminimum : b.settings.minimumBlockSize ≠ 0)
    (h : Contained blocks Inv c) (hold : c.blockSize.toNat ∣ size.toNat) (target : UInt64) :
    ∃ sz c', c.setBlockSizeInSteps b target = .ok (sz, c') ∧ c'.blockSize ≠ 0
      ∧ Contained blocks Inv c' := by
  have hpower := power_of_dvd hspace.power hold
  rw [Classifier.setBlockSizeInSteps]
  split
  · exact ⟨_, _, rfl, toNat_pos_iff.mp (pos_of_power hpower), h⟩
  · split
    · next hpowers =>
        rw [Bool.and_eq_true, Word.isPowerOfTwo_iff, Word.isPowerOfTwo_iff] at hpowers
        obtain ⟨⟨t, ht⟩, i, hi⟩ := hpowers
        have ht64 := exponent_lt ht
        have hi64 := exponent_lt hi
        have hup : t ≤ i + 64 := by omega
        have hdown : i ≤ t + 64 := by omega
        obtain ⟨c', hstep, hsame, hcontained⟩ :=
          h.stepTo hprobe hspace ht hi hup hdown hold
        refine ⟨c'.blockSize, c', by rw [hstep]; rfl, ?_, hcontained⟩
        rw [hsame]
        exact toNat_pos_iff.mp (pos_of_power ⟨t, ht⟩)
    · exact (h.warn _).detectBlockSize hprobe hspace hminimum hold

end Settling

end Contained

end Classifier

end DramBanks
