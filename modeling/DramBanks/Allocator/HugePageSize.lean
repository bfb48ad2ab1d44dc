import DramBanks.Decimal
import DramBanks.Pieces
import DramBanks.Word
/-!
# The size of huge pages

    The memory statistics have a line with the default size of a huge
    page, as a number and its unit, which is kB or missing.
-/

namespace DramBanks.Allocator.HugePageSize

/-! ## Lines and words -/

/-- The lines of a text.  A carriage return at the end of a line is a blank like any other and
    stays. -/
def lines (text : List Char) : List (List Char) := Pieces.split '\n' text

def isBlank (c : Char) : Bool :=
  let n := c.toNat
  (9 ≤ n && n ≤ 13) || n == 0x20 || n == 0x85 || n == 0xa0 || n == 0x1680
    || (0x2000 ≤ n && n ≤ 0x200a) || n == 0x2028 || n == 0x2029 || n == 0x202f || n == 0x205f
    || n == 0x3000

/-- The words of a line between blanks, of which `current` is the reversed beginning of the
    first. -/
def wordsFrom (current : List Char) : List Char → List (List Char)
  | [] => if current.isEmpty then [] else [current.reverse]
  | c :: rest =>
      if isBlank c then
        if current.isEmpty then wordsFrom [] rest else current.reverse :: wordsFrom [] rest
      else wordsFrom (c :: current) rest

def words (line : List Char) : List (List Char) := wordsFrom [] line

/-- What follows a token at the start of a line. -/
def behind? (token line : List Char) : Option (List Char) :=
  if token.isPrefixOf line then some (line.drop token.length) else none

/-! ## The size -/

/-- The token in front of the size. -/
def token : List Char := "Hugepagesize:".toList

def unit? : Option (List Char) → Option UInt64
  | none => some 1
  | some ['k', 'B'] => some 1024
  | some _ => none

/-- The size in the first line that begins with the token. -/
def ofText? (text : String) : Except Fault (Option UInt64) :=
  match (lines text.toList).findSome? (behind? token) with
  | none => .ok none
  | some rest =>
      match words rest with
      | [] => .ok none
      | number :: more =>
          match Decimal.word? number, unit? more.head? with
          | some size, some unit => (Word.mul size unit).map some
          | _, _ => .ok none

end DramBanks.Allocator.HugePageSize
