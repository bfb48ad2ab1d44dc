/-!
# Pieces of a text

    A separator cuts a text into pieces: one more than there are
    separators, of which some may be empty.
-/

namespace DramBanks.Pieces

/-- The pieces of a text, of which `current` is the reversed beginning of the first. -/
def splitFrom (separator : Char) (current : List Char) : List Char → List (List Char)
  | [] => [current.reverse]
  | c :: rest =>
      if c = separator then current.reverse :: splitFrom separator [] rest
      else splitFrom separator (c :: current) rest

def split (separator : Char) (text : List Char) : List (List Char) := splitFrom separator [] text

end DramBanks.Pieces
