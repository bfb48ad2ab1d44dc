import DramBanks.Bits
/-!
# The candidate masks

    A candidate has at least one and at most `maxBits` bits, none of them
    among the `skip` lowest, which lie inside one block.  Candidates are
    enumerated by weight and, within a weight, upward: the single bits
    first, then the pairs, and so on.

    The enumeration walks a cursor.  A cursor holds a mask, counted from
    the lowest bit that may be used, together with its weight; it moves to
    the next mask of the same weight, or to the lowest mask of the next
    weight.  Either the weight grows, which it can do 64 times, or the
    mask does (`Cursor.next?_decreasing`), so the walk ends.
-/

namespace DramBanks.Mask

/-- An enumeration of candidates above bit `skip` with at most `maxBits` bits. -/
structure Candidates where
  skip : Nat
  maxBits : Nat
deriving DecidableEq, Repr

/-- A place in an enumeration. -/
structure Cursor where
  weight : Nat
  mask : Mask
deriving DecidableEq, Repr

namespace Candidates

/-- The number of bits that a candidate may use. -/
def width (c : Candidates) : Nat := 64 - c.skip

/-- Whether a mask that is counted from the lowest usable bit stays inside the word. -/
def fits (c : Candidates) (mask : Mask) : Bool :=
  c.skip == 0 || mask >>> UInt64.ofNat c.width == 0

/-- The first place, unless there is no candidate at all. -/
def start? (c : Candidates) : Option Cursor :=
  if c.skip < 64 ∧ 0 < c.maxBits then some ⟨1, 1⟩ else none

def maskAt (c : Candidates) (p : Cursor) : Mask := p.mask <<< UInt64.ofNat c.skip

end Candidates

namespace Cursor

def next? (c : Candidates) (p : Cursor) : Option Cursor :=
  match (Bits.nextSameWeight p.mask).filter c.fits with
  | some mask => some ⟨p.weight, mask⟩
  | none =>
      if p.weight + 1 ≤ c.maxBits ∧ p.weight + 1 ≤ c.width then
        some ⟨p.weight + 1, Bits.lowOnes (p.weight + 1)⟩
      else none

/-- A step leaves fewer weights to come, or the same weights and fewer masks. -/
theorem next?_decreasing {c : Candidates} {p q : Cursor} (h : next? c p = some q) :
    64 - q.weight < 64 - p.weight
      ∨ q.weight = p.weight ∧ UInt64.size - q.mask.toNat < UInt64.size - p.mask.toNat := by
  unfold next? at h
  split at h
  · next mask hmask =>
      cases h
      obtain ⟨hnext, -⟩ := Option.filter_eq_some_iff.mp hmask
      have hlt := UInt64.lt_iff_toNat_lt.mp (Bits.lt_of_nextSameWeight hnext)
      have hbound : mask.toNat < UInt64.size := UInt64.toNat_lt mask
      exact Or.inr ⟨rfl, by simp only; omega⟩
  · split at h
    · next hroom =>
        cases h
        have hwidth := hroom.2
        unfold Candidates.width at hwidth
        exact Or.inl (by simp only; omega)
    · cases h

end Cursor

namespace Candidates

/-- The candidates from a place on, in front of which those in `passed` were met, latest
    first. -/
def walk (c : Candidates) (p : Cursor) (passed : List Mask) : List Mask :=
  match _hnext : p.next? c with
  | some q => walk c q (c.maskAt p :: passed)
  | none => (c.maskAt p :: passed).reverse
termination_by (64 - p.weight, UInt64.size - p.mask.toNat)
decreasing_by
  rcases Cursor.next?_decreasing _hnext with hweight | ⟨hweight, hmask⟩
  · exact Prod.Lex.left _ _ hweight
  · rw [hweight]
    exact Prod.Lex.right _ hmask

/-- All candidates in the order of the enumeration. -/
def toList (c : Candidates) : List Mask :=
  match c.start? with
  | none => []
  | some p => c.walk p []

/-! ## Prefixes -/

/-- At most `left` candidates from a place on, in front of which those in `passed` were met,
    latest first. -/
def walkUpTo (c : Candidates) : (left : Nat) → Cursor → (passed : List Mask) → List Mask
  | 0, _, passed => passed.reverse
  | left + 1, p, passed =>
      match p.next? c with
      | some q => walkUpTo c left q (c.maskAt p :: passed)
      | none => (c.maskAt p :: passed).reverse

/-- The first `count` candidates, or all of them when there are fewer.  The rest of the
    enumeration is not walked. -/
def upTo (c : Candidates) (count : Nat) : List Mask :=
  match c.start? with
  | none => []
  | some p => c.walkUpTo count p []

theorem walk_of_next {c : Candidates} {p q : Cursor} (passed : List Mask)
    (h : p.next? c = some q) : c.walk p passed = c.walk q (c.maskAt p :: passed) := by
  rw [walk]
  split
  · next q' hnext =>
      rw [h] at hnext
      cases hnext
      rfl
  · next hnone =>
      rw [h] at hnone
      cases hnone

theorem walk_of_last {c : Candidates} {p : Cursor} (passed : List Mask)
    (h : p.next? c = none) : c.walk p passed = (c.maskAt p :: passed).reverse := by
  rw [walk]
  split
  · next q hnext =>
      rw [h] at hnext
      cases hnext
  · rfl

/-- The candidates that were passed come first. -/
theorem walk_eq_append (c : Candidates) (p : Cursor) (passed : List Mask) :
    c.walk p passed = passed.reverse ++ c.walk p [] := by
  cases hnext : p.next? c with
  | none => simp [walk_of_last _ hnext]
  | some q =>
      rw [walk_of_next passed hnext, walk_of_next [] hnext,
        walk_eq_append c q (c.maskAt p :: passed), walk_eq_append c q [c.maskAt p]]
      simp
termination_by (64 - p.weight, UInt64.size - p.mask.toNat)
decreasing_by
  all_goals
    rcases Cursor.next?_decreasing hnext with hweight | ⟨hweight, hmask⟩
    · exact Prod.Lex.left _ _ hweight
    · rw [hweight]
      exact Prod.Lex.right _ hmask

/-- A walk that is cut short has met the first candidates of the whole walk. -/
theorem walkUpTo_eq_append (c : Candidates) (left : Nat) (p : Cursor) (passed : List Mask) :
    c.walkUpTo left p passed = passed.reverse ++ (c.walk p []).take left := by
  induction left generalizing p passed with
  | zero => simp [walkUpTo]
  | succ left ih =>
      cases hnext : p.next? c with
      | none => simp [walkUpTo, hnext, walk_of_last [] hnext]
      | some q =>
          rw [walk_of_next [] hnext, walk_eq_append c q [c.maskAt p]]
          simp [walkUpTo, hnext, ih]

/-- A prefix of the enumeration, however it is computed. -/
theorem upTo_eq_take (c : Candidates) (count : Nat) : c.upTo count = c.toList.take count := by
  unfold upTo toList
  split
  · simp
  · rw [walkUpTo_eq_append]
    rfl

/-! ## Shares -/

/-- The share of one of several workers: the positions `worker`, `worker + workers`, and so
    on. -/
def share (worker workers : Nat) (masks : List Mask) : List Mask :=
  (masks.zipIdx.filter fun m => decide (worker ≤ m.2) && (m.2 - worker) % workers == 0).map
    Prod.fst

end Candidates

end DramBanks.Mask
