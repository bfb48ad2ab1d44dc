import DramBanks.Proofs.Settings.Fields
import Mathlib.Data.List.Nodup
/-!
# What an object says of the settings

    The members of an object either give a value to the setting that their
    key names or are skipped.  `Settings.Object` says so of the tokens,
    without a layer and without fuel, and the reader reads exactly the
    objects that give no setting twice, into the layer with the values that
    they give (`Settings.overridesOfTokens?_eq_some_iff`).

    A layer is read member by member.  What a member adds is said by
    `Overrides.Adds`, which goes through lists of entries by one entry
    (`Adds.cons_iff`) and by appending (`Adds.append_iff`). -/

namespace DramBanks

/-- A setting with a value for it. -/
abbrev Entry := (f : Field) × f.Value

namespace Overrides

variable {o o' : Overrides} {f g : Field} {entries : List Entry}

/-- The entries are about different settings without a value, and the second layer has them on top
    of what the first one gives. -/
structure Adds (o : Overrides) (entries : List Entry) (o' : Overrides) : Prop where
  nodup : (entries.map Sigma.fst).Nodup
  fresh : ∀ e ∈ entries, o.value? e.1 = none
  value?_iff : ∀ (f : Field) (v : f.Value),
    o'.value? f = some v ↔ o.value? f = some v ∨ ⟨f, v⟩ ∈ entries

/-- What a layer gives after one more value was put into it. -/
theorem value?_put_eq_some_iff {v : f.Value} (h : o.value? f = none) (w : g.Value) :
    (o.put f v).value? g = some w ↔ o.value? g = some w ∨ (⟨g, w⟩ : Entry) = ⟨f, v⟩ := by
  by_cases hfg : g = f
  · subst hfg
    rw [value?_put_self, h, Option.some.injEq, Sigma.mk.injEq, heq_eq_eq]
    simp only [reduceCtorEq, true_and, false_or, eq_comm]
  · have hne : (⟨g, w⟩ : Entry) ≠ ⟨f, v⟩ := fun heq => hfg (congrArg Sigma.fst heq)
    rw [value?_put_of_ne o v hfg]
    exact ⟨Or.inl, fun hor => hor.resolve_right hne⟩

namespace Adds

theorem nil_iff : Adds o [] o' ↔ o' = o := by
  constructor
  · intro h
    refine eq_of_value? fun f => Option.ext fun v => ?_
    rw [h.value?_iff f v]
    exact or_iff_left List.not_mem_nil
  · rintro rfl
    exact ⟨List.nodup_nil, fun e he => absurd he List.not_mem_nil,
      fun f v => (or_iff_left List.not_mem_nil).symm⟩

/-- **ONE ENTRY**: the setting had no value, and the others are added to the layer with it. -/
theorem cons_iff {v : f.Value} :
    Adds o (⟨f, v⟩ :: entries) o' ↔ o.value? f = none ∧ Adds (o.put f v) entries o' := by
  constructor
  · intro h
    have hnone : o.value? f = none := h.fresh ⟨f, v⟩ List.mem_cons_self
    obtain ⟨hnot, hnodup⟩ := List.nodup_cons.mp h.nodup
    refine ⟨hnone, hnodup, ?_, ?_⟩
    · intro e he
      have hne : e.1 ≠ f := fun heq => hnot (List.mem_map.mpr ⟨e, he, heq⟩)
      rw [value?_put_of_ne o v hne]
      exact h.fresh e (List.mem_cons_of_mem _ he)
    · intro g w
      rw [h.value?_iff g w, value?_put_eq_some_iff hnone, List.mem_cons, or_assoc]
  · rintro ⟨hnone, h⟩
    have hne : ∀ e ∈ entries, e.1 ≠ f := by
      intro e he heq
      have hfresh := h.fresh e he
      rw [heq, value?_put_self] at hfresh
      cases hfresh
    refine ⟨List.nodup_cons.mpr ⟨?_, h.nodup⟩, ?_, ?_⟩
    · intro hmem
      obtain ⟨e, he, heq⟩ := List.mem_map.mp hmem
      exact hne e he heq
    · refine List.forall_mem_cons.mpr ⟨hnone, fun e he => ?_⟩
      rw [← value?_put_of_ne o v (hne e he)]
      exact h.fresh e he
    · intro g w
      rw [h.value?_iff g w, value?_put_eq_some_iff hnone, List.mem_cons, or_assoc]

theorem append_iff {later : List Entry} :
    Adds o (entries ++ later) o' ↔ ∃ o₁, Adds o entries o₁ ∧ Adds o₁ later o' := by
  induction entries generalizing o with
  | nil => simp only [List.nil_append, nil_iff, exists_eq_left]
  | cons e entries ih =>
      obtain ⟨f, v⟩ := e
      simp only [List.cons_append, cons_iff, ih, and_assoc, exists_and_left]

/-- Entries about different settings can be added to a layer that gives none of them. -/
theorem exists_of_nodup (hnodup : (entries.map Sigma.fst).Nodup)
    (hfresh : ∀ e ∈ entries, o.value? e.1 = none) : ∃ o', Adds o entries o' := by
  induction entries generalizing o with
  | nil => exact ⟨o, nil_iff.mpr rfl⟩
  | cons e entries ih =>
      obtain ⟨f, v⟩ := e
      obtain ⟨hnot, hnodup⟩ := List.nodup_cons.mp hnodup
      obtain ⟨hnone, hfresh⟩ := List.forall_mem_cons.mp hfresh
      have hput : ∀ e ∈ entries, (o.put f v).value? e.1 = none := by
        intro e he
        have hne : e.1 ≠ f := fun heq => hnot (List.mem_map.mpr ⟨e, he, heq⟩)
        rw [value?_put_of_ne o v hne]
        exact hfresh e he
      obtain ⟨o', h⟩ := ih hnodup hput
      exact ⟨o', cons_iff.mpr ⟨hnone, h⟩⟩

end Adds

end Overrides

namespace Settings

open Json (Token)
open Overrides (Adds)

/-! ## Tokens -/

/-- The tokens begin with a member of an object and go on with the rest.  The member gives a setting
    its value or, if its key names none, is skipped. -/
inductive Member : Option Entry → List Token → List Token → Prop where
  | setting {body : List Char} {f : Field} {v : f.Value} {tokens rest : List Token} :
      (Token.unescape? body).map String.ofList = some f.key →
      f.read? tokens = some (v, rest) →
      Member (some ⟨f, v⟩) (.string body :: .colon :: tokens) rest
  | unknown {body : List Char} {name : String} {tokens rest : List Token} :
      (Token.unescape? body).map String.ofList = some name → (∀ f : Field, name ≠ f.key) →
      Token.skipValue? tokens = some rest →
      Member none (.string body :: .colon :: tokens) rest

/-- The tokens are members of an object and its end, and the members give these settings. -/
inductive Members : List Entry → List Token → Prop where
  | last {member : Option Entry} {tokens : List Token} :
      Member member tokens [.endObject] → Members member.toList tokens
  | more {member : Option Entry} {entries : List Entry} {tokens rest : List Token} :
      Member member tokens (.comma :: rest) → Members entries rest →
      Members (member.toList ++ entries) tokens

/-- The tokens are an object that gives these settings. -/
inductive Object : List Entry → List Token → Prop where
  | empty : Object [] [.beginObject, .endObject]
  | members {entries : List Entry} {tokens : List Token} :
      Members entries tokens → Object entries (.beginObject :: tokens)

variable {o o' : Overrides} {f : Field} {member : Option Entry} {entries : List Entry}
  {tokens rest : List Token}

/-! ## Tokens are used up -/

theorem length_lt_of_word? {n : UInt64} (h : word? tokens = some (n, rest)) :
    rest.length < tokens.length := by
  unfold word? at h
  split at h
  · obtain ⟨_, -, ⟨⟩⟩ := Option.map_eq_some_iff.mp h
    exact Nat.lt_succ_self _
  · cases h

theorem length_lt_of_halfWord? {n : UInt32} (h : halfWord? tokens = some (n, rest)) :
    rest.length < tokens.length := by
  unfold halfWord? at h
  split at h
  · obtain ⟨_, -, ⟨⟩⟩ := Option.map_eq_some_iff.mp h
    exact Nat.lt_succ_self _
  · cases h

theorem length_lt_of_optionalWord? {n : Option UInt64} (h : optionalWord? tokens = some (n, rest)) :
    rest.length < tokens.length := by
  unfold optionalWord? at h
  split at h
  · cases h
    exact Nat.lt_succ_self _
  · obtain ⟨_, hword, ⟨⟩⟩ := Option.map_eq_some_iff.mp h
    exact length_lt_of_word? hword

theorem length_lt_of_bool? {b : Bool} (h : bool? tokens = some (b, rest)) :
    rest.length < tokens.length := by
  unfold bool? at h
  split at h
  · cases h
    exact Nat.lt_succ_self _
  · cases h

theorem length_lt_of_memoryType? {m : MemoryType} (h : memoryType? tokens = some (m, rest)) :
    rest.length < tokens.length := by
  unfold memoryType? at h
  split at h
  · obtain ⟨_, -, ⟨⟩⟩ := Option.map_eq_some_iff.mp h
    exact Nat.lt_succ_self _
  · obtain ⟨_, -, ⟨⟩⟩ := Option.map_eq_some_iff.mp h
    simp only [List.length_cons]
    omega
  · cases h

theorem length_lt_of_read? {v : f.Value} (h : f.read? tokens = some (v, rest)) :
    rest.length < tokens.length := by
  cases f with
  | blockSize | conflictThreshold | seed => exact length_lt_of_optionalWord? h
  | fenced => exact length_lt_of_bool? h
  | maxMaskBits => exact length_lt_of_halfWord? h
  | memoryType => exact length_lt_of_memoryType? h
  | _ => exact length_lt_of_word? h

/-- What is left after a value was skipped is not longer than what there was. -/
theorem length_le_of_skip? {expected : Token.Expected} {depth : List Bool}
    (h : Token.skip? expected depth tokens = some rest) : rest.length ≤ tokens.length := by
  fun_induction Token.skip? expected depth tokens with
  | case1 tail =>
      cases h
      exact Nat.le_refl _
  | case2 | case24 => cases h
  | _ =>
      -- one token is skipped, and the others are by the hypothesis
      rename_i ih
      exact Nat.le_succ_of_le (ih h)

theorem Member.length_lt (h : Member member tokens rest) : rest.length < tokens.length := by
  cases h with
  | setting _ hread =>
      have hlt := length_lt_of_read? hread
      simp only [List.length_cons]
      omega
  | unknown _ _ hskip =>
      have hle := length_le_of_skip? hskip
      simp only [List.length_cons]
      omega

/-! ## Reading -/

theorem assign?_eq_some_iff {α : Type} {current : Option α}
    {read : List Token → Option (α × List Token)} {put : α → Overrides} :
    assign? current read put tokens = some (o', rest)
      ↔ current = none ∧ ∃ v, read tokens = some (v, rest) ∧ put v = o' := by
  cases current with
  | some v => exact iff_of_false (fun h => nomatch h) fun h => nomatch h.1
  | none => simp only [assign?, Option.map_eq_some_iff, Prod.exists, Prod.mk.injEq, true_and,
      ← and_assoc, exists_eq_right]

/-- **MEMBER**: reading a member adds what it gives. -/
theorem readMember?_eq_some_iff : readMember? o tokens = some (o', rest)
    ↔ ∃ member, Member member tokens rest ∧ Adds o member.toList o' := by
  constructor
  · intro h
    unfold readMember? at h
    split at h
    · next body tail =>
        split at h
        · cases h
        · next key hkey =>
            split at h
            · next f hf =>
                rw [readField?_eq, assign?_eq_some_iff] at h
                obtain ⟨hnone, v, hread, rfl⟩ := h
                refine ⟨some ⟨f, v⟩, .setting ?_ hread, ?_⟩
                · rw [hkey, Option.map_some, Field.eq_key_of_ofKey? hf]
                · exact Adds.cons_iff.mpr ⟨hnone, Adds.nil_iff.mpr rfl⟩
            · next hf =>
                obtain ⟨_, hskip, ⟨⟩⟩ := Option.map_eq_some_iff.mp h
                refine ⟨none, .unknown ?_ (Field.ofKey?_eq_none_iff.mp hf) hskip,
                  Adds.nil_iff.mpr rfl⟩
                rw [hkey, Option.map_some]
    · cases h
  · rintro ⟨member, hmember, hadds⟩
    cases hmember with
    | setting hkey hread =>
        obtain ⟨key, hbody, hname⟩ := Option.map_eq_some_iff.mp hkey
        obtain ⟨hnone, hput⟩ := Adds.cons_iff.mp hadds
        obtain rfl := Adds.nil_iff.mp hput
        simp only [readMember?, hbody, Field.ofKey?_eq_some_iff.mpr hname]
        rw [readField?_eq, assign?_eq_some_iff]
        exact ⟨hnone, _, hread, rfl⟩
    | unknown hkey hname hskip =>
        obtain ⟨key, hbody, rfl⟩ := Option.map_eq_some_iff.mp hkey
        obtain rfl := Adds.nil_iff.mp hadds
        simp only [readMember?, hbody, Field.ofKey?_eq_none_iff.mpr hname, hskip, Option.map_some]

/-- What is read are members, each of which adds what it gives. -/
theorem members_of_readMembers? {fuel : Nat} (h : readMembers? fuel o tokens = some o') :
    ∃ entries, Members entries tokens ∧ Adds o entries o' := by
  -- a member at the end of the object, or one with others behind a comma
  fun_induction readMembers? fuel o tokens with
  | case1 => cases h
  | case2 o tokens fuel o₁ hread =>
      cases h
      obtain ⟨member, hmember, hadds⟩ := readMember?_eq_some_iff.mp hread
      exact ⟨member.toList, .last hmember, hadds⟩
  | case3 o tokens fuel o₁ rest hread ih =>
      obtain ⟨member, hmember, hadds⟩ := readMember?_eq_some_iff.mp hread
      obtain ⟨entries, hmembers, hlater⟩ := ih h
      exact ⟨member.toList ++ entries, .more hmember hmembers,
        Adds.append_iff.mpr ⟨o₁, hadds, hlater⟩⟩
  | case4 => cases h

/-- Members are read with as much fuel as there are tokens. -/
theorem readMembers?_of_members (hmembers : Members entries tokens) (hadds : Adds o entries o')
    {fuel : Nat} (hfuel : tokens.length ≤ fuel) : readMembers? fuel o tokens = some o' := by
  -- every member takes a token and a round, so the fuel lasts as long as there are tokens
  induction hmembers generalizing o fuel with
  | last hmember =>
      have hlt := hmember.length_lt
      obtain ⟨fuel, rfl⟩ := Nat.exists_eq_add_one_of_ne_zero (show fuel ≠ 0 by omega)
      rw [readMembers?, readMember?_eq_some_iff.mpr ⟨_, hmember, hadds⟩]
  | more hmember _ ih =>
      have hlt := hmember.length_lt
      rw [List.length_cons] at hlt
      obtain ⟨fuel, rfl⟩ := Nat.exists_eq_add_one_of_ne_zero (show fuel ≠ 0 by omega)
      obtain ⟨o₁, hfirst, hlater⟩ := Adds.append_iff.mp hadds
      rw [readMembers?, readMember?_eq_some_iff.mpr ⟨_, hmember, hfirst⟩]
      exact ih hlater (by omega)

/-- No members are just the end of an object. -/
theorem Members.ne_end (h : Members entries tokens) : tokens ≠ [.endObject] := by
  rintro rfl
  cases h with
  | last hmember => cases hmember
  | more hmember _ => cases hmember

theorem overridesOfTokens?_of_ne_end (h : tokens ≠ [.endObject]) :
    overridesOfTokens? (.beginObject :: tokens) = readMembers? tokens.length {} tokens := by
  unfold overridesOfTokens?
  split
  · next htokens => exact absurd (List.cons.inj htokens).2 h
  · next htokens => cases htokens
  · next htokens => rw [(List.cons.inj htokens).2]
  · next htokens => cases htokens
  · next hother _ => exact absurd rfl (hother tokens)

/-- **OBJECT**: the tokens of an object are read exactly into the layers with the values that its
    members give, each setting once. -/
theorem overridesOfTokens?_eq_some_iff :
    overridesOfTokens? (.beginObject :: tokens) = some o
      ↔ ∃ entries, Object entries (.beginObject :: tokens) ∧ Adds {} entries o := by
  by_cases hend : tokens = [.endObject]
  · subst hend
    constructor
    · intro h
      cases h
      exact ⟨[], .empty, Adds.nil_iff.mpr rfl⟩
    · rintro ⟨entries, hobject, hadds⟩
      cases hobject with
      | empty =>
          obtain rfl := Adds.nil_iff.mp hadds
          rfl
      | members hmembers => exact absurd rfl hmembers.ne_end
  · rw [overridesOfTokens?_of_ne_end hend]
    constructor
    · intro h
      obtain ⟨entries, hmembers, hadds⟩ := members_of_readMembers? h
      exact ⟨entries, .members hmembers, hadds⟩
    · rintro ⟨entries, hobject, hadds⟩
      cases hobject with
      | empty => exact absurd rfl hend
      | members hmembers => exact readMembers?_of_members hmembers hadds (Nat.le_refl _)

/-! ## Files -/

/-- The content of a file is the text of an object that gives these settings. -/
def Describes (bytes : ByteArray) (entries : List Entry) : Prop :=
  ∃ text tokens, String.fromUTF8? bytes = some text ∧ Token.ofText? text.toList = some tokens
    ∧ Object entries tokens

theorem Object.exists_cons (h : Object entries tokens) : ∃ rest, tokens = .beginObject :: rest := by
  cases h with
  | empty => exact ⟨_, rfl⟩
  | members _ => exact ⟨_, rfl⟩

/-- **FILE**: an object that gives no setting twice is loaded into the layer with its values. -/
theorem exists_load {bytes : ByteArray} (h : Describes bytes entries)
    (hnodup : (entries.map Sigma.fst).Nodup) :
    ∃ file, load (.ok bytes) = .ok file
      ∧ ∀ (f : Field) (v : f.Value), file.value? f = some v ↔ ⟨f, v⟩ ∈ entries := by
  obtain ⟨text, tokens, htext, htokens, hobject⟩ := h
  obtain ⟨rest, rfl⟩ := hobject.exists_cons
  obtain ⟨file, hadds⟩ := Adds.exists_of_nodup hnodup fun e _ => Overrides.value?_empty e.1
  have hread := overridesOfTokens?_eq_some_iff.mpr ⟨entries, hobject, hadds⟩
  refine ⟨file, ?_, ?_⟩
  · simp only [load, htext, overridesOfText?, htokens, Option.bind_some, hread]
  · intro f v
    rw [hadds.value?_iff f v, Overrides.value?_empty]
    exact or_iff_right (nomatch ·)

end Settings

end DramBanks
