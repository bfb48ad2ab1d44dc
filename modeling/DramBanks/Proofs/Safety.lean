import DramBanks.Analysis
import DramBanks.Proofs.Calibration.Gap
import DramBanks.Proofs.Classifier.Containment
/-!
# Analyses stay inside of their blocks

    An analysis of valid settings asks its probe for timings of addresses in
    its blocks only, whatever the probe answers and whichever members it
    samples, and no arithmetic of it leaves the word: the only fault is a
    collection that does not fit into memory (`Analysis.group_stays_inside`).

    The blocks are those that an allocator hands out for the settings
    (`Analysis.Suited`).  Calibration times the pages of the first block, and
    a threshold lies below the highest latency.  What is measured afterwards
    goes through the classifier, which starts at a block size that divides
    the blocks. -/

namespace DramBanks

open Block

variable {σ κ : Type} {p : Probe σ} {size : UInt64} {blocks : List Block} {Inv : σ → Prop} {s : σ}

/-! ## Calibration -/

namespace Calibration

/-- A threshold is a latency: the only obstacle is a histogram that does not fit into memory. -/
theorem thresholdOf_succeeds (times : List Latency) :
    Succeeds (fun _ => True) (thresholdOf times) := by
  rcases thresholdOf_cases times with ⟨-, threshold, gap, hrun, -, -⟩ | ⟨-, herror⟩
  · rw [hrun]
    trivial
  · rw [herror]
    rfl

section Timings

variable (hprobe : p.Keeps (Mapped blocks) Inv) (hspace : Spacious size blocks) {block : Block}
  (hblock : block ∈ blocks)
include hprobe hspace hblock

/-- The pages of a block are timed inside of it. -/
theorem timePages_keeps (rounds : UInt64) (fenced : Bool) {left page : Nat}
    (hpages : (page + left) * 4096 ≤ size.toNat) (times : List Latency) (h : Inv s) :
    Inv (timePages p block.base rounds fenced left page times s).2 := by
  induction left generalizing page times s with
  | zero => exact h
  | succ left ih =>
      have hroom := hspace.room block hblock
      have hpage : (UInt64.ofNat (page * 4096)).toNat = page * 4096 := by
        refine UInt64.toNat_ofNat_of_lt' ?_
        show _ < 2 ^ 64
        omega
      have hadd : (block.base + UInt64.ofNat (page * 4096)).toNat
          = block.base.toNat + page * 4096 := by
        rw [UInt64.toNat_add, hpage]
        exact Nat.mod_eq_of_lt (by omega)
      have hfirst : Mapped blocks block.base :=
        hspace.mapped hblock (Nat.le_refl _) (Nat.lt_add_of_pos_right (by omega))
      have hother : Mapped blocks (block.base + UInt64.ofNat (page * 4096)) :=
        hspace.mapped hblock (by rw [hadd]; omega) (by rw [hadd]; omega)
      have hleft : (page + 1 + left) * 4096 ≤ size.toNat := by
        rwa [Nat.add_assoc, Nat.add_comm 1]
      rw [timePages]
      exact ih hleft _ (hprobe.measure _ s hfirst hother h)

variable {settings : Settings} (hpages : settings.pagesPerHugeBlock.toNat * 4096 ≤ size.toNat)
include hpages

theorem singleThreshold_keeps (h : Inv s) :
    Succeeds (fun r => Inv r.2) (singleThreshold p block.base settings.pagesPerHugeBlock.toNat
      settings.rounds settings.fenced s) := by
  have hroom := hspace.room block hblock
  have hpos := Classifier.pos_of_power hspace.power
  rw [singleThreshold]
  split
  · exact h
  · have hlast : block.base.toNat + (settings.pagesPerHugeBlock.toNat - 1) * 4096
        < UInt64.size := by
      show _ < 2 ^ 64
      omega
    rw [if_pos hlast]
    have hall : (0 + settings.pagesPerHugeBlock.toNat) * 4096 ≤ size.toNat := by
      rwa [Nat.zero_add]
    have htimes :=
      timePages_keeps hprobe hspace hblock settings.rounds settings.fenced hall [] h
    exact (thresholdOf_succeeds _).map fun _ _ => htimes

theorem runs_keeps (left done : Nat) (r : Runs σ) (h : Inv s) :
    Succeeds (fun r => Inv r.2) (runs p settings block.base left done r s) := by
  induction left generalizing done r s with
  | zero => exact h
  | succ left ih =>
      have hsingle := singleThreshold_keeps hprobe hspace hblock hpages h
      rw [runs]
      split
      · next heq =>
          rw [heq] at hsingle
          exact hsingle
      · next heq =>
          rw [heq] at hsingle
          exact ih _ _ hsingle
      · next heq =>
          rw [heq] at hsingle
          exact ih _ _ hsingle

theorem conflictThreshold_keeps (h : Inv s) :
    Succeeds (fun r => Inv r.2.2) (conflictThreshold p settings block.base s) := by
  rw [conflictThreshold]
  split
  · rfl
  · exact (runs_keeps hprobe hspace hblock hpages _ 0 _ h).map fun _ hr => hr

end Timings

end Calibration

/-! ## Grouping -/

namespace Analysis

open Classifier (Contained)

/-- The blocks that an allocator hands out for the settings: as many as they ask for, disjoint,
    each large enough for a huge block, and aligned with room behind it. -/
structure Suited (s : Settings) (size : UInt64) (blocks : List Block) : Prop
    extends Spacious size blocks where
  disjoint : blocks.Pairwise fun x y => ∀ a, x.contains a = true → ¬ y.contains a = true
  count : blocks.length = s.initialHugeBlocks.toNat + s.additionalHugeBlocks.toNat
  pages : s.pagesPerHugeBlock.toNat * 4096 ≤ size.toNat

section Grouping

variable {settings : Settings} (hvalid : settings.Valid) (hsuited : Suited settings size blocks)
include hvalid hsuited

theorem Suited.ne_nil : blocks ≠ [] := by
  intro hnil
  have hcount := hsuited.count
  rw [hnil, List.length_nil] at hcount
  have hpos := Classifier.toNat_pos_iff.mpr hvalid.initialHugeBlocks_ne_zero
  omega

/-- The initial block size divides the blocks. -/
theorem Suited.initial_dvd : settings.initialBlockSize.toNat ∣ size.toNat := by
  obtain ⟨k, hk⟩ := hvalid.exists_initialBlockSize
  obtain ⟨n, hn⟩ := hsuited.power
  have hle : settings.initialBlockSize.toNat ≤ size.toNat :=
    Nat.le_trans hvalid.initial hsuited.pages
  rw [hk, hn] at hle ⊢
  exact Nat.pow_dvd_pow 2 ((Nat.pow_le_pow_iff_right Nat.one_lt_two).mp hle)

theorem Suited.stop_le : settings.endPage.toNat * 4096 ≤ size.toNat :=
  Nat.le_trans (Nat.mul_le_mul_right _ (UInt64.le_iff_toNat_le.mp hvalid.stop)) hsuited.pages

variable {verdict : σ → Except Fault Unit}

omit hvalid in
/-- Calibration keeps to the first block. -/
theorem threshold_keeps (hblocks : blocks ≠ []) (hprobe : p.Keeps (Mapped blocks) Inv)
    (stage : Stage σ) (h : Inv stage.probe) :
    Inv (threshold p settings blocks stage).2.probe
      ∧ ∀ e, (threshold p settings blocks stage).1 = .error e →
          e = .noGap settings.calibrationRuns ∨ e = .fault .capacity := by
  unfold threshold
  split
  · exact ⟨h, fun e he => nomatch he⟩
  · exact absurd rfl hblocks
  · next block rest _ =>
      have hcalibrated := Calibration.conflictThreshold_keeps hprobe hsuited.toSpacious
        (List.mem_cons_self ..) hsuited.pages h
      split
      · next heq =>
          rw [heq] at hcalibrated
          refine ⟨h, ?_⟩
          rintro e ⟨⟩
          exact Or.inr (congrArg Failure.fault hcalibrated)
      · next heq =>
          rw [heq] at hcalibrated
          exact ⟨hcalibrated, fun e he => nomatch he⟩
      · next heq =>
          rw [heq] at hcalibrated
          refine ⟨hcalibrated, ?_⟩
          rintro e ⟨⟩
          exact Or.inl rfl

variable {b : Bench σ} (hsettings : b.settings = settings)
  (hprobe : b.probe.Keeps (Mapped blocks) Inv) {c : Classifier σ}
include hsettings hprobe

/-- Any number of the blocks may be added, at any block size, and no block has more addresses
    without a group than bytes. -/
theorem addBlocks_keeps (allowNew : Bool) {added : List Block} (hadded : added ⊆ blocks)
    (hsize : c.blockSize ≠ 0) (h : Contained blocks Inv c) :
    Succeeds (fun r => r.1.sum ≤ added.length * size.toNat ∧ r.2.blockSize = c.blockSize
        ∧ Contained blocks Inv r.2)
      (addBlocks b allowNew added c) := by
  induction added generalizing c with
  | nil => exact ⟨Nat.zero_le _, rfl, h⟩
  | cons block rest ih =>
      have hstart : b.settings.startPage ≤ b.settings.endPage := by
        rw [hsettings]
        exact UInt64.le_of_lt hvalid.start
      have hstop : b.settings.endPage.toNat * 4096 ≤ size.toNat := by
        rw [hsettings]
        exact hsuited.stop_le hvalid
      have hadd := h.addRegion hprobe hsuited.toSpacious hstart hstop hsize allowNew
        (hadded (List.mem_cons_self ..))
      rw [addBlocks]
      split
      · next heq =>
          rw [heq] at hadd
          exact hadd
      · next misses c₁ heq =>
          rw [heq] at hadd
          obtain ⟨hfew, hsame, h₁⟩ := hadd
          refine (ih (List.subset_of_cons_subset hadded) (hsame ▸ hsize) h₁).map ?_
          rintro ⟨more, c'⟩ ⟨hsum, hsame', hcontained⟩
          refine ⟨?_, hsame'.trans hsame, hcontained⟩
          rw [List.sum_cons, List.length_cons, Nat.succ_mul, Nat.add_comm]
          exact Nat.add_le_add hsum hfew

/-- The block size is settled from one that divides the blocks. -/
theorem settleBlockSize_keeps (hold : c.blockSize.toNat ∣ size.toNat)
    (h : Contained blocks Inv c) :
    ∃ sz c', settleBlockSize b c = .ok (sz, c') ∧ c'.blockSize ≠ 0 ∧ Contained blocks Inv c' := by
  have hminimum : b.settings.minimumBlockSize ≠ 0 := by
    rw [hsettings]
    exact hvalid.minimumBlockSize_ne_zero
  rw [settleBlockSize]
  split
  · next target _ =>
      exact h.setBlockSizeInSteps hprobe hsuited.toSpacious hminimum hold target
  · exact h.detectBlockSize hprobe hsuited.toSpacious hminimum hold

omit hvalid hsettings hprobe in
/-- The addresses of some of the blocks can be counted. -/
theorem totalCount_eq {added : List Block} (hadded : added.Sublist blocks) {misses : List Nat}
    (h : misses.sum ≤ added.length * size.toNat) : totalCount misses = .ok misses.sum := by
  have hbytes := hsuited.length_mul_lt hsuited.disjoint
  have hsum : misses.sum ≤ blocks.length * size.toNat :=
    Nat.le_trans h (Nat.mul_le_mul_right _ hadded.length_le)
  exact if_pos (Nat.lt_of_le_of_lt hsum hbytes)

/-- Settling the block size and adding the additional blocks only fails for lack of memory. -/
theorem finish_keeps (hverdict : ∀ s, Inv s → verdict s = .ok ()) {additional : List Block}
    (hadditional : additional.Sublist blocks) (hold : c.blockSize.toNat ∣ size.toNat)
    (h : Contained blocks Inv c) :
    Inv (finish b verdict additional c).2.probe
      ∧ Succeeds (fun _ => True) (finish b verdict additional c).1 := by
  obtain ⟨sz, c₁, hsettle, hnonzero, h₁⟩ :=
    settleBlockSize_keeps hvalid hsuited hsettings hprobe hold h
  have hadd := addBlocks_keeps hvalid hsuited hsettings hprobe false hadditional.subset hnonzero h₁
  rw [finish, hsettle]
  simp only [hverdict _ h₁.probe]
  rw [addAdditional]
  split
  · next heq =>
      rw [heq] at hadd
      exact ⟨h₁.probe, hadd⟩
  · next misses c₂ heq =>
      rw [heq] at hadd
      obtain ⟨hsum, -, h₂⟩ := hadd
      simp only [totalCount_eq hsuited hadditional hsum]
      refine ⟨?_, trivial⟩
      split
      · exact h₂.probe
      · exact h₂.probe

/-- Sorting blocks into banks fails for an odd number of them, or for lack of memory. -/
theorem groupAt_keeps (hverdict : ∀ s, Inv s → verdict s = .ok ()) (stage : Stage σ)
    (h : Inv stage.probe) :
    Inv (groupAt b verdict blocks stage).2.probe
      ∧ ∀ e, (groupAt b verdict blocks stage).1 = .error e →
          (∃ banks, e = .oddBankCount banks settings.maxRegroupRounds.toNat)
            ∨ e = .fault .capacity := by
  have hinitial : b.settings.initialBlockSize.toNat ∣ size.toNat := by
    rw [hsettings]
    exact hsuited.initial_dvd hvalid
  have hnonzero : b.settings.initialBlockSize ≠ 0 := Classifier.toNat_pos_iff.mp
    (Nat.pos_of_dvd_of_pos hinitial (Classifier.pos_of_power hsuited.power))
  have hempty : Contained blocks Inv
      { Classifier.empty b stage.probe with warnings := stage.warnings } :=
    ⟨fun g hg => absurd hg List.not_mem_nil, h⟩
  have hadd := addBlocks_keeps hvalid hsuited hsettings hprobe true
    (List.take_subset b.settings.initialHugeBlocks.toNat blocks) hnonzero hempty
  have hcount : ¬ blocks.length < b.settings.initialHugeBlocks.toNat := by
    rw [hsuited.count, hsettings]
    exact Nat.not_lt_of_le (Nat.le_add_right _ _)
  unfold groupAt
  simp only [hcount, if_false]
  split
  · next heq =>
      -- every block has as many addresses, so those of the first one are too many already, and
      -- nothing was timed
      rw [heq] at hadd
      refine ⟨h, ?_⟩
      rintro e ⟨⟩
      exact Or.inr (congrArg Failure.fault hadd)
  next misses c₁ heq₁ =>
  rw [heq₁] at hadd
  obtain ⟨-, hsame, h₁⟩ := hadd
  have hrounds := h₁.regroupRounds hprobe b.settings.maxRegroupRounds.toNat 0
  have hsize := Classifier.blockSize_regroupRounds b b.settings.maxRegroupRounds.toNat 0 c₁
  split
  · next heq =>
      rw [Classifier.regroupUntilPlausible] at heq
      rw [heq] at hrounds
      refine ⟨hrounds.probe, ?_⟩
      rintro e ⟨⟩
      exact Or.inl ⟨_, by rw [hsettings]⟩
  · next rounds c₂ heq =>
      rw [Classifier.regroupUntilPlausible] at heq
      rw [heq] at hrounds hsize
      have hold : c₂.blockSize.toNat ∣ size.toNat := by
        have hsize' : c₂.blockSize = b.settings.initialBlockSize := hsize.trans hsame
        rw [hsize']
        exact hinitial
      obtain ⟨hprobe', hfinish⟩ := finish_keeps hvalid hsuited hsettings hprobe hverdict
        (List.drop_sublist b.settings.initialHugeBlocks.toNat blocks) hold hrounds
      refine ⟨hprobe', ?_⟩
      intro e he
      cases hresult : (finish b verdict (blocks.drop b.settings.initialHugeBlocks.toNat) c₂).1 with
      | error f =>
          rw [hresult] at he hfinish
          cases he
          exact Or.inr (congrArg Failure.fault hfinish)
      | ok grouping =>
          rw [hresult] at he
          cases he

omit hsettings hprobe in
/-- **CONTAINMENT**: what timings of the blocks keep, the whole grouping keeps.  It fails if there
    is no gap between latencies, an odd number of banks, or too little memory. -/
theorem group_keeps (hprobe : p.Keeps (Mapped blocks) Inv)
    (hverdict : ∀ s, Inv s → verdict s = .ok ()) (stage : Stage σ) (h : Inv stage.probe) :
    Inv (group p verdict settings blocks stage).2.probe
      ∧ ∀ e, (group p verdict settings blocks stage).1 = .error e →
          e = .noGap settings.calibrationRuns
            ∨ (∃ banks, e = .oddBankCount banks settings.maxRegroupRounds.toNat)
            ∨ e = .fault .capacity := by
  obtain ⟨hstate, hfail⟩ := threshold_keeps hsuited (hsuited.ne_nil hvalid) hprobe stage h
  rw [group]
  split
  · next heq =>
      rw [heq] at hstate hfail
      refine ⟨hstate, ?_⟩
      rintro e ⟨⟩
      exact (hfail _ rfl).imp_right Or.inr
  · next t stage' heq =>
      rw [heq] at hstate
      obtain ⟨hstate', hfail'⟩ := groupAt_keeps (b := ⟨settings, t, p⟩) hvalid hsuited rfl hprobe
        hverdict stage' hstate
      exact ⟨hstate', fun e he => Or.inr (hfail' e he)⟩

end Grouping

/-! ## Guarded and recorded probes -/

theorem keeps_recorded (p : Probe σ) (blocks : List Block) :
    p.recorded.Keeps (Mapped blocks)
      fun s => ∀ q ∈ s.2, Mapped blocks q.known ∧ Mapped blocks q.candidate := by
  refine ⟨?_, fun _ _ _ h => h⟩
  intro q s hknown hcandidate h
  exact List.forall_mem_cons.mpr ⟨⟨hknown, hcandidate⟩, h⟩

/-- Addresses of the blocks pass the check of timings. -/
theorem checkMember_of_mapped {addr : Address}
    (hstops : ∀ block ∈ blocks, block.base.toNat + block.size.toNat < 2 ^ 64)
    (h : Mapped blocks addr) : checkMember blocks addr = .ok () := by
  induction blocks with
  | nil =>
      obtain ⟨block, hblock, -⟩ := h
      cases hblock
  | cons first rest ih =>
      rw [List.forall_mem_cons] at hstops
      have hstop : first.stop = .ok (first.base + first.size) := if_pos hstops.1
      rw [checkMember, hstop]
      simp only
      split
      · rfl
      · next hout =>
          refine ih hstops.2 ?_
          obtain ⟨block, hblock, hcontains⟩ := h
          rcases List.mem_cons.mp hblock with rfl | hblock
          · exact absurd hcontains hout
          · exact ⟨block, hblock, hcontains⟩

theorem keeps_guarded (p : Probe σ) (hspace : Spacious size blocks) :
    (p.guarded fun q => checkMapped blocks q.known q.candidate).Keeps (Mapped blocks)
      fun s => s.2 = .ok () := by
  have hstops : ∀ block ∈ blocks, block.base.toNat + block.size.toNat < 2 ^ 64 := by
    intro block hblock
    have hroom := hspace.room block hblock
    have hpos := Classifier.pos_of_power hspace.power
    rw [hspace.sizes block hblock]
    omega
  refine ⟨?_, fun _ _ _ h => h⟩
  intro q s hknown hcandidate h
  have hcheck : checkMapped blocks q.known q.candidate = .ok () := by
    rw [checkMapped, checkMember_of_mapped hstops hknown]
    exact checkMember_of_mapped hstops hcandidate
  simp only [Probe.guarded, h]
  exact hcheck

/-- **SAFETY**: an analysis of valid settings times addresses of its blocks only, whatever the
    probe answers and chooses.  It fails if calibration finds no gap or regrouping leaves an odd
    number of banks, and otherwise only if memory runs out: the check of its timings never fails,
    and no step of it overflows, leaves a list, steps by zero or goes on forever.  A calibration run
    for which memory runs out has timed addresses of the blocks, too. -/
theorem group_stays_inside {settings : Settings} (hvalid : settings.firstViolation = .ok none)
    (hsuited : Suited settings size blocks) (p : Probe σ) (state : σ) (w : World κ) :
    (∀ q ∈ (group p.recorded (fun _ => .ok ()) settings blocks ⟨(state, []), []⟩).2.probe.2,
        Mapped blocks q.known ∧ Mapped blocks q.candidate)
      ∧ (∀ e, (groupGuarded p settings blocks state w).1 = .error e →
          e = .noGap settings.calibrationRuns
            ∨ (∃ banks, e = .oddBankCount banks settings.maxRegroupRounds.toNat)
            ∨ e = .fault .capacity)
      ∧ ∀ block ∈ blocks.head?, ∀ q ∈ (Calibration.timePages p.recorded block.base settings.rounds
          settings.fenced settings.pagesPerHugeBlock.toNat 0 [] (state, [])).2.2,
        Mapped blocks q.known ∧ Mapped blocks q.candidate := by
  rw [Settings.firstViolation_eq_none_iff] at hvalid
  refine ⟨?_, ?_, ?_⟩
  · exact (group_keeps hvalid hsuited (keeps_recorded p blocks) (fun _ _ => rfl) _
      fun q hq => absurd hq List.not_mem_nil).1
  · obtain ⟨hstate, hfail⟩ := group_keeps hvalid hsuited
      (keeps_guarded p hsuited.toSpacious) (fun _ h => h) ⟨(state, .ok ()), []⟩ rfl
    intro e he
    refine hfail e ?_
    rw [groupGuarded] at he
    simp only at he
    rw [hstate] at he
    exact he
  · intro block hblock
    exact Calibration.timePages_keeps (keeps_recorded p blocks) hsuited.toSpacious
      (List.mem_of_mem_head? hblock) settings.rounds settings.fenced
      (by rw [Nat.zero_add]; exact hsuited.pages) [] fun q hq => absurd hq List.not_mem_nil

/-- One huge block under the default settings, whose pages alternate in pairs between two banks. -/
theorem group_stays_inside_two_banks :
    (∀ q ∈ (group (Bench.simulated {} [8192]).probe.recorded (fun _ => .ok ()) {}
          [⟨0x200000, 0x200000⟩] ⟨(0, []), []⟩).2.probe.2,
        Mapped [⟨0x200000, 0x200000⟩] q.known ∧ Mapped [⟨0x200000, 0x200000⟩] q.candidate)
      ∧ (∀ e, (groupGuarded (Bench.simulated {} [8192]).probe {} [⟨0x200000, 0x200000⟩] 0
            (⟨(), []⟩ : World Unit)).1 = .error e →
          e = .noGap 21 ∨ (∃ banks, e = .oddBankCount banks (Settings.maxRegroupRounds {}).toNat)
            ∨ e = .fault .capacity)
      ∧ ∀ block ∈ [(⟨0x200000, 0x200000⟩ : Block)].head?,
          ∀ q ∈ (Calibration.timePages (Bench.simulated {} [8192]).probe.recorded block.base
            (Settings.rounds {}) (Settings.fenced {}) (Settings.pagesPerHugeBlock {}).toNat 0 []
            (0, [])).2.2,
          Mapped [⟨0x200000, 0x200000⟩] q.known ∧ Mapped [⟨0x200000, 0x200000⟩] q.candidate := by
  have hspace : Spacious 0x200000 [⟨0x200000, 0x200000⟩] :=
    ⟨⟨21, rfl⟩, by decide, by decide, by decide⟩
  have hsuited : Suited {} 0x200000 [⟨0x200000, 0x200000⟩] :=
    ⟨hspace, List.pairwise_singleton _ _, rfl, by decide⟩
  exact group_stays_inside Settings.firstViolation_default hsuited
    (Bench.simulated {} [8192]).probe 0 ⟨(), []⟩

end Analysis

end DramBanks
