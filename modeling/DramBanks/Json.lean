import DramBanks.Hex
/-!
# JSON values

    The values that a report is made of, and their text in lines of two
    blanks per level: an item or member per line, empty collections on
    one line, and no line end behind the value.
-/

namespace DramBanks

/-- A JSON value. -/
inductive Json where
  | null
  | bool (value : Bool)
  | number (value : Int)
  | string (text : String)
  | array (items : List Json)
  | object (members : List (String × Json))
deriving Repr, Inhabited

namespace Json

def ofNat (n : Nat) : Json := number (Int.ofNat n)

def ofWord (w : UInt64) : Json := ofNat w.toNat

def ofOption {α : Type} (f : α → Json) : Option α → Json
  | none => null
  | some x => f x

/-! ## Strings -/

/-- A character inside of quotes.  Control characters are escaped, the common ones by a
    letter. -/
def escape (c : Char) : List Char :=
  if c = '"' then ['\\', '"']
  else if c = '\\' then ['\\', '\\']
  else if c = '\x08' then ['\\', 'b']
  else if c = '\x0c' then ['\\', 'f']
  else if c = '\n' then ['\\', 'n']
  else if c = '\r' then ['\\', 'r']
  else if c = '\t' then ['\\', 't']
  else if c.toNat < 16 then ['\\', 'u', '0', '0', '0'] ++ Hex.digits c.toNat
  else if c.toNat < 32 then ['\\', 'u', '0', '0'] ++ Hex.digits c.toNat
  else [c]

def quote (text : String) : List Char := '"' :: text.toList.flatMap escape ++ ['"']

/-! ## Order of keys -/

mutual

/-- The value with the members of every object in the order of their keys. -/
def sortKeys : Json → Json
  | array items => array (sortItems items)
  | object members => object ((sortMembers members).mergeSort fun a b => decide (a.1 ≤ b.1))
  | null => null
  | bool value => bool value
  | number value => number value
  | string text => string text

def sortItems : List Json → List Json
  | [] => []
  | item :: rest => sortKeys item :: sortItems rest

def sortMembers : List (String × Json) → List (String × Json)
  | [] => []
  | (key, value) :: rest => (key, sortKeys value) :: sortMembers rest

end

/-! ## Text -/

/-- The start of a line at a level. -/
def newline (level : Nat) : List Char := '\n' :: List.replicate (2 * level) ' '

mutual

/-- The text of a value whose first line is at the given level. -/
def pretty (level : Nat) : Json → List Char
  | null => ['n', 'u', 'l', 'l']
  | bool true => ['t', 'r', 'u', 'e']
  | bool false => ['f', 'a', 'l', 's', 'e']
  | number value => (toString value).toList
  | string text => quote text
  | array [] => ['[', ']']
  | array (item :: rest) =>
      '[' :: newline (level + 1) ++ pretty (level + 1) item ++ prettyItems level rest
  | object [] => ['{', '}']
  | object ((key, value) :: rest) =>
      '{' :: newline (level + 1) ++ quote key ++ [':', ' '] ++ pretty (level + 1) value
        ++ prettyMembers level rest

/-- The items behind the first one, and the end of the array. -/
def prettyItems (level : Nat) : List Json → List Char
  | [] => newline level ++ [']']
  | item :: rest =>
      ',' :: newline (level + 1) ++ pretty (level + 1) item ++ prettyItems level rest

/-- The members behind the first one, and the end of the object. -/
def prettyMembers (level : Nat) : List (String × Json) → List Char
  | [] => newline level ++ ['}']
  | (key, value) :: rest =>
      ',' :: newline (level + 1) ++ quote key ++ [':', ' '] ++ pretty (level + 1) value
        ++ prettyMembers level rest

end

def toText (j : Json) : String := String.ofList (pretty 0 j)

end Json

end DramBanks
