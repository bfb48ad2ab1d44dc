import DramBanks.Proofs.ReportedParities
import DramBanks.Report
import Mathlib.Logic.Function.Basic
/-!
# What a report tells of its function

    A report has the masks and the relevant bits as hexadecimal text.  A
    reader that takes nothing but the mark and lowercase digits
    (`Hex.ofText?`) gets back the words that were written, so different
    words have different texts, and different reports have different values
    (`Report.toJson_injective`).

    The two flags of a report are computed apart from its rows: one from the
    number of masks, the other from parities of its own.  They say of the
    reported data what they should (`Report.Consistent`), as the masks of a
    derived function are independent and in ascending order. -/

namespace DramBanks

/-! ## Hexadecimal text -/

namespace Hex

/-- The value of a digit in lower case. -/
def lower? (c : Char) : Option Nat :=
  if 'A' ≤ c ∧ c ≤ 'F' then none else value? c

/-- The number that digits in lower case spell. -/
def number? (digits : List Char) : Option Nat :=
  digits.foldlM (fun n c => (lower? c).map fun d => n * 16 + d) 0

/-- The word that a text of a mark and at least one digit stands for. -/
def ofText? (text : String) : Option UInt64 :=
  match text.toList with
  | '0' :: 'x' :: d :: ds =>
      ((number? (d :: ds)).filter fun n => decide (n < 2 ^ 64)).map UInt64.ofNat
  | _ => none

theorem lower?_digitChar : ∀ d < 16, lower? (Nat.digitChar d) = some d := by
  decide

/-- **DIGITS** of a number spell it. -/
theorem number?_digits (n : Nat) : number? (digits n) = some n := by
  induction n using Nat.strongRecOn with
  | ind n ih =>
      by_cases hn : n < 16
      · rw [digits, Nat.toDigits_of_lt_base hn, number?, List.foldlM_cons, lower?_digitChar n hn]
        simp
      · -- the last digit is the remainder, and those in front of it spell the quotient
        have hle : 16 ≤ n := Nat.le_of_not_lt hn
        have hlast := lower?_digitChar (n % 16) (Nat.mod_lt n (by decide))
        have hfront := ih (n / 16) (Nat.div_lt_self (by omega) (by decide))
        rw [number?, digits] at hfront
        rw [digits, Nat.toDigits_of_base_le (by decide) hle, number?, List.foldlM_append, hfront]
        simp only [Option.bind_eq_bind, Option.bind_some, List.foldlM_cons, List.foldlM_nil, hlast,
          Option.map_some, Option.pure_def, Nat.div_add_mod']

/-- **TEXT** of a word is read back as this word. -/
theorem ofText?_word (x : UInt64) : ofText? (word x) = some x := by
  obtain ⟨d, ds, hdigits⟩ : ∃ d ds, Nat.toDigits 16 x.toNat = d :: ds :=
    List.exists_cons_of_ne_nil Nat.toDigits_ne_nil
  have hnumber := number?_digits x.toNat
  rw [digits, hdigits] at hnumber
  rw [ofText?, word, String.toList_ofList, digits, hdigits]
  simp only [hnumber, Option.filter_some, x.toNat_lt, decide_true, if_true, Option.map_some,
    UInt64.ofNat_toNat]

theorem word_injective : Function.Injective word := by
  intro x y h
  have hread := ofText?_word x
  rw [h, ofText?_word y] at hread
  exact (Option.some.inj hread).symm

end Hex

/-! ## Values -/

namespace Json

theorem ofNat_injective : Function.Injective ofNat :=
  fun _ _ h => Int.ofNat.inj (Json.number.inj h)

theorem ofWord_injective : Function.Injective ofWord :=
  fun _ _ h => UInt64.toNat_inj.mp (ofNat_injective h)

/-- Arrays of the same values have the same items, if items of the same value are the same. -/
theorem array_map_injective {α : Type} {f : α → Json} (hf : Function.Injective f) :
    Function.Injective fun items : List α => array (items.map f) :=
  fun _ _ h => List.map_injective_iff.mpr hf (Json.array.inj h)

end Json

namespace Report

/-- **VALUES**: a report can be told from its value. -/
theorem toJson_injective : Function.Injective toJson := by
  intro r r' h
  have hmembers : r.members = r'.members := Json.object.inj h
  simp only [members, List.cons_append, List.nil_append, List.cons.injEq, Prod.mk.injEq,
    true_and, Json.bool.injEq, Json.string.injEq] at hmembers
  obtain ⟨hsuccess, hbanks, hsize, hthreshold, hseed, herrors, hmasks, hparities, horthogonal,
    hbits, hdata⟩ := hmembers
  have hstring : Function.Injective Json.string := fun _ _ h => Json.string.inj h
  have hpair : Function.Injective fun data : Json => ("data", data) :=
    fun _ _ h => congrArg Prod.snd h
  have hsame := congrArg List.head? (List.map_injective_iff.mpr hpair hdata)
  rw [Option.head?_toList, Option.head?_toList] at hsame
  cases r
  cases r'
  rw [Report.mk.injEq]
  exact ⟨hsuccess, Json.ofNat_injective hbanks, Json.ofWord_injective hsize,
    Json.ofWord_injective hthreshold, Json.ofWord_injective hseed, Json.ofNat_injective herrors,
    Json.array_map_injective hstring hmasks,
    Json.array_map_injective (Json.array_map_injective Json.ofWord_injective) hparities,
    horthogonal, hbits, hsame⟩

/-- A report has everything that is known of its function. -/
theorem eq_of_ofFunction_eq {f g : BankFunction} {size threshold seed : UInt64} {errors : Nat}
    {size' threshold' seed' : UInt64} {errors' : Nat}
    (h : ofFunction f size threshold seed errors = ofFunction g size' threshold' seed' errors') :
    f = g := by
  rw [ofFunction, ofFunction, Report.mk.injEq] at h
  obtain ⟨-, hbanks, -, -, -, -, hmasks, hparities, horthogonal, hbits, -⟩ := h
  cases f
  cases g
  rw [BankFunction.mk.injEq]
  exact ⟨List.map_injective_iff.mpr Hex.word_injective hmasks, hparities, hbanks, horthogonal,
    Hex.word_injective hbits⟩

/-! ## Consistency -/

/-- In how many of the banks two rows have the same parity. -/
def agreements (banks : Nat) (a b : List UInt64) : Nat :=
  (List.range banks).countP fun k => a[k]? == b[k]?

theorem agreements_comm (banks : Nat) (a b : List UInt64) :
    agreements banks a b = agreements banks b a :=
  List.countP_congr fun k _ => by rw [beq_iff_eq, beq_iff_eq, eq_comm]

/-- The columns in which rows of one length agree. -/
theorem countP_zip {a b : List UInt64} {banks : Nat} (ha : a.length = banks)
    (hb : b.length = banks) :
    ((a.zip b).countP fun p => p.1 == p.2) = agreements banks a b := by
  induction a generalizing b banks with
  | nil =>
      subst ha
      rfl
  | cons p a ih =>
      obtain _ | ⟨q, b⟩ := b
      · rw [← ha] at hb
        cases hb
      · subst ha
        have hlen : b.length = a.length := Nat.succ.inj hb
        have hcolumns := ih rfl hlen
        rw [agreements] at hcolumns
        rw [agreements, List.zip_cons_cons, List.length_cons, List.range_succ_eq_map,
          List.countP_cons, List.countP_cons, List.countP_map, hcolumns]
        rfl

/-- Every two rows at different positions agree in exactly half of the banks. -/
def AgreeInHalves (banks : Nat) (rows : List (List UInt64)) : Prop :=
  ∀ (i j : Nat) (row row' : List UInt64), i ≠ j → rows[i]? = some row → rows[j]? = some row' →
    2 * agreements banks row row' = banks

/-- What a report says is right of the function that it is about, and its flags are right of what
    it says. -/
structure Consistent (r : Report) (f : BankFunction) : Prop where
  banks : r.banks = f.bankCount
  success : r.success = true ↔ 2 ^ r.masks.length = r.banks
  masks : r.masks.map Hex.ofText? = f.masks.map some
  ascending : f.masks.Pairwise (· < ·)
  relevantBits : Hex.ofText? r.relevantBits = some f.relevantBits
  rows : r.parities.length = r.masks.length
  entries : ∀ row ∈ r.parities, row.length = r.banks ∧ ∀ p ∈ row, p = 0 ∨ p = 1
  orthogonal : r.orthogonal = true ↔ AgreeInHalves r.banks r.parities

end Report

namespace BankFunction

open Mask

variable {groups : List (List Address)} {masks : List Mask}

theorem entries_of_mem_rows {row : List UInt64} (h : row ∈ masks.map (dominantParities groups)) :
    row.length = groups.length ∧ ∀ p ∈ row, p = 0 ∨ p = 1 := by
  obtain ⟨m, -, rfl⟩ := List.mem_map.mp h
  refine ⟨List.length_map _, fun p hp => ?_⟩
  obtain ⟨g, -, rfl⟩ := List.mem_map.mp hp
  exact dominantParity_eq_zero_or_one m g

/-- **ORTHOGONAL** rows: every two of them agree in half of the columns. -/
theorem pairwiseHalf_iff_agreeInHalves {rows : List (List UInt64)} {banks : Nat}
    (hlen : ∀ row ∈ rows, row.length = banks) :
    pairwiseHalf rows = true ↔ Report.AgreeInHalves banks rows := by
  have hagree : ∀ row ∈ rows, ∀ row' ∈ rows, (agreeInHalf row row' = true
      ↔ 2 * Report.agreements banks row row' = banks) := by
    intro row hrow row' hrow'
    rw [agreeInHalf, beq_iff_eq, Report.countP_zip (hlen row hrow) (hlen row' hrow'),
      hlen row hrow, Nat.mul_comm]
  rw [pairwiseHalf_iff, List.pairwise_iff_getElem]
  constructor
  · intro h i j row row' hne hi hj
    obtain ⟨hilen, rfl⟩ := List.getElem?_eq_some_iff.mp hi
    obtain ⟨hjlen, rfl⟩ := List.getElem?_eq_some_iff.mp hj
    rcases Nat.lt_or_gt_of_ne hne with hlt | hgt
    · exact (hagree _ (List.getElem_mem _) _ (List.getElem_mem _)).mp (h i j hilen hjlen hlt)
    · rw [Report.agreements_comm]
      exact (hagree _ (List.getElem_mem _) _ (List.getElem_mem _)).mp (h j i hjlen hilen hgt)
  · intro h i j hi hj hlt
    exact (hagree _ (List.getElem_mem _) _ (List.getElem_mem _)).mpr
      (h i j _ _ (Nat.ne_of_lt hlt) (List.getElem?_eq_getElem hi) (List.getElem?_eq_getElem hj))

/-- The guard against too many masks does not matter as long as the banks can be counted. -/
theorem isComplete_iff_of_count {f : BankFunction} (hcount : f.bankCount < 2 ^ 64) :
    f.isComplete = true ↔ 2 ^ f.masks.length = f.bankCount := by
  rw [isComplete_iff]
  refine ⟨And.right, fun h => ⟨?_, h⟩⟩
  rw [← h] at hcount
  exact (Nat.pow_lt_pow_iff_right Nat.one_lt_two).mp hcount

/-- **CONSISTENCY** of the report on masks in ascending order, with any grouping of a countable
    number of banks. -/
theorem consistent_ofMasks {blockSize : UInt64} (hcount : groups.length < 2 ^ 64)
    (hascending : masks.Pairwise (· < ·)) (size threshold seed : UInt64) (errors : Nat) :
    (Report.ofFunction (ofMasks groups blockSize masks) size threshold seed errors).Consistent
      (ofMasks groups blockSize masks) where
  banks := rfl
  success := by
    rw [Report.ofFunction, List.length_map]
    exact isComplete_iff_of_count hcount
  masks := by
    rw [Report.ofFunction, List.map_map]
    exact List.map_congr_left fun m _ => Hex.ofText?_word m
  ascending := hascending
  relevantBits := Hex.ofText?_word _
  rows := by
    rw [Report.ofFunction, List.length_map]
    exact List.length_map _
  entries := fun row hrow => entries_of_mem_rows hrow
  orthogonal := pairwiseHalf_iff_agreeInHalves fun row hrow => (entries_of_mem_rows hrow).1

/-- **REPORT** on a derived function: success is said exactly if the masks make as many banks as
    there are groups, the texts of the masks stand for the masks in strictly ascending order and
    that of the relevant bits for these, there is a row of zeroes and ones for every mask with one
    entry for every bank, and the masks are called orthogonal exactly if every two rows agree in
    half of the banks.  A function that is not the same in every part has another report, whatever
    else the two reports say. -/
theorem report_consistent {blockSize percentage : UInt64} {maxBits threads : Nat}
    {f : BankFunction} (hcount : groups.length < 2 ^ 64)
    (h : derive groups blockSize percentage maxBits threads = .ok f)
    (size threshold seed : UInt64) (errors : Nat) :
    (Report.ofFunction f size threshold seed errors).Consistent f
      ∧ ∀ (g : BankFunction) (size' threshold' seed' : UInt64) (errors' : Nat),
        g.masks ≠ f.masks ∨ g.parities ≠ f.parities ∨ g.bankCount ≠ f.bankCount
          ∨ g.orthogonal ≠ f.orthogonal ∨ g.relevantBits ≠ f.relevantBits →
        (Report.ofFunction g size' threshold' seed' errors').toJson
          ≠ (Report.ofFunction f size threshold seed errors).toJson := by
  constructor
  · obtain ⟨found, rfl, -⟩ := exists_found_of_derive h
    exact consistent_ofMasks hcount (pairwise_basis found) size threshold seed errors
  · rintro g size' threshold' seed' errors' hne heq
    obtain rfl := Report.eq_of_ofFunction_eq (Report.toJson_injective heq)
    simp only [ne_eq, not_true_eq_false, or_self] at hne

/-- Four banks of 8 KiB blocks, which bits 13 and 14 tell apart. -/
theorem report_consistent_four_banks :
    ∃ f, derive [[0], [0x2000], [0x4000], [0x6000]] 8192 0 1 1 = .ok f
      ∧ (Report.ofFunction f 8192 150 7 0).masks = ["0x2000", "0x4000"]
      ∧ (Report.ofFunction f 8192 150 7 0).Consistent f
      ∧ ∀ (g : BankFunction) (size' threshold' seed' : UInt64) (errors' : Nat),
        g.masks ≠ f.masks ∨ g.parities ≠ f.parities ∨ g.bankCount ≠ f.bankCount
          ∨ g.orthogonal ≠ f.orthogonal ∨ g.relevantBits ≠ f.relevantBits →
        (Report.ofFunction g size' threshold' seed' errors').toJson
          ≠ (Report.ofFunction f 8192 150 7 0).toJson := by
  have hsearch : search ⟨[[0], [0x2000], [0x4000], [0x6000]], 0⟩ ⟨skippedBits 8192, 1⟩ 1
      = .ok [0x2000, 0x4000] := by
    rw [search, Candidates.toList_eq_upTo 65 (by decide +kernel)]
    decide +kernel
  have hbasis : basis [0x2000, 0x4000] = [0x2000, 0x4000] := by
    rw [basis, ascending, List.mergeSort_of_pairwise (by decide)]
    rfl
  have hderive : derive [[0], [0x2000], [0x4000], [0x6000]] 8192 0 1 1
      = .ok (ofMasks [[0], [0x2000], [0x4000], [0x6000]] 8192 [0x2000, 0x4000]) := by
    rw [derive, hsearch, Except.map, hbasis]
  exact ⟨_, hderive, rfl, report_consistent (by decide) hderive 8192 150 7 0⟩

end BankFunction

end DramBanks
