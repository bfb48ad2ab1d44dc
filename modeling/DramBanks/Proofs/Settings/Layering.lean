import DramBanks.Analysis
import DramBanks.Options.Parser
import DramBanks.Proofs.Settings.Objects
import DramBanks.Proofs.Settings.Validation
/-!
# Defaults, file and command line

    A setting has the value that the command line gives it, or else the
    value of the configuration file, or else the default, and that for every
    setting alone (`Options.eq_settings_iff`).  An option of the command
    line gives a value to the setting that it is about and to no other
    (`CommandOption.given?_assign`).

    Rules are only looked at once all layers are laid over each other.  So
    a file that breaks a rule is as good as any other if the command line
    says something else, and a file in order does not help a command line
    that breaks one (`Analysis.settings_layered`). -/

namespace DramBanks

variable {o o' : Options} {f g : Field}

/-- No rule is about the additional blocks, the fences, the retries, the type of the memory or the
    seed. -/
theorem Settings.firstViolation_of_unruled (s : Settings) (blocks retries : UInt64)
    (fenced : Bool) (memoryType : MemoryType) (seed : Option UInt64) :
    { s with
      additionalHugeBlocks := blocks, fenced := fenced, retries := retries,
      memoryType := memoryType, seed := seed }.firstViolation = s.firstViolation := rfl

namespace Options

/-- The value that the command line gives to a setting.  Without fences a timing is not fenced, and
    there is no option that asks for fences. -/
def given? (o : Options) : (f : Field) → Option f.Value
  | .fenced => if o.noFences then some false else none
  | f => o.values.value? f

/-- The options with one more value. -/
def give (o : Options) : (f : Field) → f.Value → Options
  | .fenced, _ => { o with noFences := true }
  | f, v => { o with values := o.values.put f v }

theorem value?_layer (o : Options) (f : Field) : o.layer.value? f = o.given? f := by
  cases f <;> rfl

theorem given?_of_ne_fenced (o : Options) (h : f ≠ .fenced) : o.given? f = o.values.value? f := by
  cases f <;> first | rfl | exact absurd rfl h

theorem give_of_ne_fenced (o : Options) (v : f.Value) (h : f ≠ .fenced) :
    o.give f v = { o with values := o.values.put f v } := by
  cases f <;> first | rfl | exact absurd rfl h

theorem given?_give_self (o : Options) (v : f.Value) (h : f ≠ .fenced) :
    (o.give f v).given? f = some v := by
  rw [give_of_ne_fenced o v h, given?_of_ne_fenced _ h]
  exact o.values.value?_put_self f v

/-- A value for one setting is none for another. -/
theorem given?_give_of_ne (o : Options) (v : f.Value) (h : g ≠ f) :
    (o.give f v).given? g = o.given? g := by
  -- the fences are a flag beside the values, so each of the two settings can be this one
  by_cases hf : f = .fenced
  · subst hf
    rw [given?_of_ne_fenced _ h, given?_of_ne_fenced _ h]
    rfl
  · rw [give_of_ne_fenced o v hf]
    by_cases hg : g = .fenced
    · subst hg
      rfl
    · rw [given?_of_ne_fenced _ hg, given?_of_ne_fenced _ hg]
      exact o.values.value?_put_of_ne v h

/-- **FIELDS**: a setting has the value of the command line, or else that of the file, or else the
    default, and no other settings are like that. -/
theorem eq_settings_iff {s : Settings} (o : Options) (file : Overrides) :
    s = o.settings file ↔ ∀ processors f, s.value processors f
      = (o.given? f).getD ((file.value? f).getD (({} : Settings).value processors f)) := by
  have hvalue : ∀ processors f, (o.settings file).value processors f
      = (o.given? f).getD ((file.value? f).getD (({} : Settings).value processors f)) := by
    intro processors f
    rw [settings, Settings.value_override, Settings.value_override, value?_layer]
  constructor
  · rintro rfl
    exact hvalue
  · intro h
    exact Settings.eq_of_value fun processors f =>
      (h processors f).trans (hvalue processors f).symm

/-- The layer of the configuration file, which is empty without a file. -/
def fileLayer (content : String → Except Errno ByteArray) (o : Options) :
    Except Settings.LoadError Overrides :=
  o.config.elim (.ok {}) (Settings.load ∘ content)

/-- Values for all settings that a rule is about. -/
def repairing : Overrides where
  initialHugeBlocks := some 1
  pagesPerHugeBlock := some 512
  startPage := some 0
  endPage := some 512
  initialBlockSize := some 4096
  blockSize := some (some 4096)
  minimumBlockSize := some 64
  conflictThreshold := some (some 250)
  calibrationRuns := some 21
  sampleSize := some 9
  rounds := some 200
  errorPercentage := some 1
  threads := some 1
  maxMaskBits := some 7
  maxRegroupRounds := some 64

/-- The defaults with these values. -/
def repaired : Settings := ({} : Settings).override repairing

/-- The values are in order with whatever the file and the rest of the command line say, which is
    left to the settings that no rule is about. -/
theorem firstViolation_repairing (o : Options) (file : Overrides) :
    ({ o with values := repairing }.settings file).firstViolation = .ok none := by
  obtain ⟨blocks, fenced, retries, memoryType, seed, hsettings⟩ :
      ∃ blocks fenced retries memoryType seed, { o with values := repairing }.settings file
        = { repaired with
            additionalHugeBlocks := blocks, fenced := fenced, retries := retries,
            memoryType := memoryType, seed := seed } :=
    ⟨_, _, _, _, _, rfl⟩
  rw [hsettings, Settings.firstViolation_of_unruled]
  rfl

/-- No initial blocks are a mistake with whatever the file and the rest of the command line say. -/
theorem firstViolation_give_zero (o : Options) (file : Overrides) :
    ((o.give .initialHugeBlocks (0 : UInt64)).settings file).firstViolation
      = .ok (some (.zero "initial-thps")) := rfl

end Options

namespace CommandOption

/-- The setting that an option is about. -/
def field? : CommandOption → Option Field
  | initialHugeBlocks => some .initialHugeBlocks
  | additionalHugeBlocks => some .additionalHugeBlocks
  | pagesPerHugeBlock => some .pagesPerHugeBlock
  | startPage => some .startPage
  | endPage => some .endPage
  | initialBlockSize => some .initialBlockSize
  | blockSize => some .blockSize
  | minimumBlockSize => some .minimumBlockSize
  | conflictThreshold => some .conflictThreshold
  | calibrationRuns => some .calibrationRuns
  | sampleSize => some .sampleSize
  | rounds => some .rounds
  | retries => some .retries
  | errorPercentage => some .errorPercentage
  | threads => some .threads
  | maxMaskBits => some .maxMaskBits
  | maxRegroupRounds => some .maxRegroupRounds
  | memoryType => some .memoryType
  | seed => some .seed
  | noFences => some .fenced
  | config | allocator | debug | output | help => none

end CommandOption

/-- The value that the text behind an option stands for. -/
def Field.ofArgument? : (f : Field) → List Char → Option f.Value
  | .blockSize, text | .conflictThreshold, text | .seed, text => (Decimal.word? text).map some
  | .fenced, _ => some false
  | .maxMaskBits, text =>
      (Decimal.ofSigned? text).bind fun n =>
        if 0 ≤ n ∧ n.toNat < UInt32.size then some (UInt32.ofNat n.toNat) else none
  | .memoryType, text => MemoryType.ofText? (String.ofList text)
  | .initialHugeBlocks, text | .additionalHugeBlocks, text | .pagesPerHugeBlock, text
  | .startPage, text | .endPage, text | .initialBlockSize, text | .minimumBlockSize, text
  | .calibrationRuns, text | .sampleSize, text | .rounds, text | .retries, text
  | .errorPercentage, text | .threads, text | .maxRegroupRounds, text => Decimal.word? text

namespace CommandOption

variable {option : CommandOption} {text : List Char}

/-- An option of a setting gives it the value that its text stands for. -/
theorem assign_of_field? (h : option.field? = some f) :
    option.assign o text = match f.ofArgument? text with
      | some v => .ok (o.give f v)
      | none => .error .valueValidation := by
  cases option <;> cases h
  case noFences => rfl
  case memoryType =>
    simp only [assign, Field.ofArgument?]
    cases MemoryType.ofText? (String.ofList text) <;> rfl
  case maxMaskBits =>
    simp only [assign, halfWordValue, Field.ofArgument?]
    cases Decimal.ofSigned? text with
    | none => rfl
    | some n =>
        by_cases hn : 0 ≤ n ∧ n.toNat < UInt32.size
        · simp only [Option.bind_some, if_pos hn]
          rfl
        · simp only [Option.bind_some, if_neg hn]
  -- the others take a word
  all_goals
    simp only [assign, wordValue, Field.ofArgument?]
    cases Decimal.word? text <;> rfl

/-- The other options give no setting a value. -/
theorem given?_assign_of_none (h : option.assign o text = .ok o') (hnone : option.field? = none) :
    o'.given? = o.given? := by
  have hsame : o'.values = o.values ∧ o'.noFences = o.noFences := by
    cases option <;> cases hnone <;> simp only [assign] at h
    case help => cases h
    case config =>
      split at h
      · cases h
      · cases h
        exact ⟨rfl, rfl⟩
    case allocator =>
      split at h
      · cases h
        exact ⟨rfl, rfl⟩
      · cases h
    case debug | output =>
      cases h
      exact ⟨rfl, rfl⟩
  obtain ⟨hvalues, hfences⟩ := hsame
  funext f
  by_cases hf : f = .fenced
  · subst hf
    simp only [Options.given?, hfences]
  · rw [Options.given?_of_ne_fenced _ hf, Options.given?_of_ne_fenced _ hf, hvalues]

/-- **OPTION**: an option gives the setting that it is about a value, and no other setting. -/
theorem given?_assign (h : option.assign o text = .ok o') :
    (∀ f, option.field? = some f → ∃ v, f.ofArgument? text = some v ∧ o'.given? f = some v)
      ∧ ∀ g, option.field? ≠ some g → o'.given? g = o.given? g := by
  cases hfield : option.field? with
  | none =>
      have hsame := given?_assign_of_none h hfield
      exact ⟨fun f hf => (nomatch hf), fun g _ => congrFun hsame g⟩
  | some f =>
      rw [assign_of_field? hfield] at h
      cases hv : f.ofArgument? text with
      | none =>
          rw [hv] at h
          cases h
      | some v =>
          rw [hv] at h
          cases h
          constructor
          · intro g hg
            cases hg
            refine ⟨v, hv, ?_⟩
            by_cases hf : f = .fenced
            · subst hf
              cases hv
              rfl
            · exact o.given?_give_self v hf
          · intro g hg
            exact o.given?_give_of_ne v fun heq => hg (congrArg some heq.symm)

end CommandOption

namespace Analysis

variable {content : String → Except Errno ByteArray} {file : Overrides}

/-- What becomes of settings whose layers are all known. -/
def judge (s : Settings) : Except Failure Settings :=
  match s.firstViolation with
  | .error f => .error (.fault f)
  | .ok (some e) => .error (.settings e)
  | .ok none => .ok s

theorem settings_of_fileLayer (h : o.fileLayer content = .ok file) :
    settings (Settings.load ∘ content) o = judge (o.settings file) := by
  rw [Options.fileLayer] at h
  rw [settings, h]
  rfl

/-- Settings are accepted if they keep the rules, and else the broken one is the failure. -/
theorem settings_of_fits (h : o.fileLayer content = .ok file)
    (hbytes : (o.settings file).pagesPerHugeBlock.toNat * 4096 < 2 ^ 64) :
    (∀ s, settings (Settings.load ∘ content) o = .ok s
        ↔ s = o.settings file ∧ s.Rules)
      ∧ ∀ e, settings (Settings.load ∘ content) o = .error e
        ↔ ∃ r, (o.settings file).firstViolation = .ok (some r) ∧ e = .settings r := by
  rw [settings_of_fileLayer h, judge]
  rcases Settings.firstViolation_cases (o.settings file) with
    ⟨r, hr, hbreaks⟩ | hnone | ⟨-, -, hvast⟩
  · rw [hr]
    constructor
    · intro s
      refine iff_of_false (fun heq => nomatch heq) ?_
      rintro ⟨rfl, hrules⟩
      exact hbreaks.not_rules hrules
    · intro e
      simp only [Except.error.injEq, Except.ok.injEq, Option.some.injEq, exists_eq_left', eq_comm]
  · rw [hnone]
    have hrules := (Settings.firstViolation_eq_none_iff.mp hnone).rules
    constructor
    · intro s
      constructor
      · intro h
        cases h
        exact ⟨rfl, hrules⟩
      · rintro ⟨rfl, -⟩
        rfl
    · intro e
      refine iff_of_false (fun heq => nomatch heq) ?_
      rintro ⟨r, hr, -⟩
      cases hr
  · exact absurd hbytes (Nat.not_lt_of_le hvast)

/-- **LAYERS**: without a configuration file its layer is empty, and with the text of an object that
    gives no setting twice it has exactly the values that the object gives.  A file that cannot be
    loaded is the failure of the run.  Otherwise every setting has the value of the command line, or
    else of the file, or else the default, and an option decides about its own setting only.  If the
    size of a huge block fits into a word, these settings are accepted exactly if they keep the
    rules, and else the broken rule is the failure.  So with any file there are values for the
    command line that lead to settings, and there is an option with which none are left. -/
theorem settings_layered (content : String → Except Errno ByteArray) (o : Options) :
    (o.config = none → o.fileLayer content = .ok {})
      ∧ (∀ path bytes entries, o.config = some path → content path = .ok bytes →
          Settings.Describes bytes entries → (entries.map Sigma.fst).Nodup →
          ∃ file, o.fileLayer content = .ok file
            ∧ ∀ (f : Field) (v : f.Value), file.value? f = some v ↔ ⟨f, v⟩ ∈ entries)
      ∧ (∀ e, o.fileLayer content = .error e →
          settings (Settings.load ∘ content) o = .error (.load e))
      ∧ ∀ file, o.fileLayer content = .ok file →
          (∀ s, s = o.settings file ↔ ∀ processors f, s.value processors f
            = (o.given? f).getD ((file.value? f).getD (({} : Settings).value processors f)))
          ∧ (∀ option text o', CommandOption.assign option o text = .ok o' → ∀ processors f,
              (option.field? = some f →
                f.ofArgument? text = some ((o'.settings file).value processors f))
              ∧ (option.field? ≠ some f →
                (o'.settings file).value processors f = (o.settings file).value processors f))
          ∧ ((o.settings file).pagesPerHugeBlock.toNat * 4096 < 2 ^ 64 →
              (∀ s, settings (Settings.load ∘ content) o = .ok s
                ↔ s = o.settings file ∧ s.Rules)
              ∧ ∀ e, settings (Settings.load ∘ content) o = .error e
                ↔ ∃ r, (o.settings file).firstViolation = .ok (some r) ∧ e = .settings r)
          ∧ (∃ values s, settings (Settings.load ∘ content) { o with values := values } = .ok s)
          ∧ ∃ f v e, settings (Settings.load ∘ content) (o.give f v) = .error (.settings e) := by
  refine ⟨?_, ?_, ?_, ?_⟩
  · intro hconfig
    rw [Options.fileLayer, hconfig]
    rfl
  · intro path bytes entries hconfig hbytes hdescribes hnodup
    obtain ⟨file, hload, hvalues⟩ := Settings.exists_load hdescribes hnodup
    refine ⟨file, ?_, hvalues⟩
    rw [Options.fileLayer, hconfig, Option.elim_some, Function.comp_apply, hbytes, hload]
  · intro e he
    rw [Options.fileLayer] at he
    rw [settings, he]
  · intro file hfile
    refine ⟨fun s => o.eq_settings_iff file, ?_, settings_of_fits hfile, ?_, ?_⟩
    · intro option text o' hassign processors f
      obtain ⟨hown, hother⟩ := CommandOption.given?_assign hassign
      have hafter := (o'.eq_settings_iff file).mp rfl processors f
      have hbefore := (o.eq_settings_iff file).mp rfl processors f
      constructor
      · intro hf
        obtain ⟨v, hv, hgiven⟩ := hown f hf
        rw [hafter, hgiven, hv]
        rfl
      · intro hf
        rw [hafter, hbefore, hother f hf]
    · have hrepaired : { o with values := Options.repairing }.fileLayer content = .ok file := hfile
      refine ⟨Options.repairing, { o with values := Options.repairing }.settings file, ?_⟩
      rw [settings_of_fileLayer hrepaired, judge, Options.firstViolation_repairing]
    · have hbroken : (o.give .initialHugeBlocks (0 : UInt64)).fileLayer content = .ok file := hfile
      refine ⟨.initialHugeBlocks, (0 : UInt64), .zero "initial-thps", ?_⟩
      rw [settings_of_fileLayer hbroken, judge, Options.firstViolation_give_zero]

/-- A configuration that asks for no threads at all. -/
def noThreads : String := "\x7b\"threads\": 0, \"seed\": 5, \"note\": [1]\x7d"

/-- The tokens of that configuration. -/
def noThreadsTokens : List Json.Token :=
  [.beginObject, .string "threads".toList, .colon, .number ['0'], .comma,
    .string "seed".toList, .colon, .number ['5'], .comma,
    .string "note".toList, .colon, .beginArray, .number ['1'], .endArray, .endObject]

theorem describes_noThreads :
    Settings.Describes noThreads.toUTF8 [⟨.threads, (0 : UInt64)⟩, ⟨.seed, some (5 : UInt64)⟩] := by
  have hnote : ∀ f : Field, "note" ≠ f.key := fun f => by cases f <;> decide
  refine ⟨noThreads, noThreadsTokens, by rfl, by rfl, ?_⟩
  refine .members (.more (.setting (f := .threads) (v := (0 : UInt64)) rfl rfl) ?_)
  refine .more (.setting (f := .seed) (v := some (5 : UInt64)) rfl rfl) ?_
  exact .last (.unknown rfl hnote rfl)

/-- A command line that asks for four. -/
def fourThreads : Options := { config := some "settings.json", values := { threads := some 4 } }

/-- The file is rejected as it is, and accepted below the command line. -/
theorem settings_layered_four_threads :
    ∃ file, fourThreads.fileLayer (fun _ => .ok noThreads.toUTF8) = .ok file
      ∧ ¬ (({} : Settings).override file).Rules
      ∧ settings (Settings.load ∘ fun _ => .ok noThreads.toUTF8) fourThreads
        = .ok { threads := some 4, seed := some 5 } := by
  obtain ⟨-, hfile, -, hlayers⟩ := settings_layered (fun _ => .ok noThreads.toUTF8) fourThreads
  obtain ⟨file, hload, hvalues⟩ := hfile _ _ _ rfl rfl describes_noThreads (by decide)
  obtain ⟨-, -, haccept, -⟩ := hlayers file hload
  obtain rfl : file = { threads := some 0, seed := some (some 5) } :=
    Except.ok.inj (hload.symm.trans rfl)
  refine ⟨_, hload, ?_, ?_⟩
  · intro hrules
    exact hrules.threads 0 rfl rfl
  · refine ((haccept (by decide)).1 _).mpr ⟨rfl, ?_⟩
    exact (Settings.firstViolation_eq_none_iff.mp rfl).rules

end Analysis

end DramBanks
