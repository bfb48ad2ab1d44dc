import DramBanks.Decimal
import DramBanks.Hex
/-!
# Tokens of JSON text

    The lexical half of a strict JSON reader: punctuation, the three
    words, numbers and strings.  Number literals and the bodies of strings
    are kept as they are written, since a reader that only skips a string
    does not care what its escapes stand for; `Token.unescape?` gives the
    text of a body and refuses a surrogate without its partner.

    The lexer is one pass over the characters.  Its mode says what it is
    inside of, and a token is put down when the mode is left.
-/

namespace DramBanks.Json

/-- A token of JSON text. -/
inductive Token where
  | beginObject
  | endObject
  | beginArray
  | endArray
  | colon
  | comma
  | null
  | bool (value : Bool)
  | number (literal : List Char)
  /-- The characters between the quotes of a string, escapes included. -/
  | string (body : List Char)
deriving DecidableEq, Repr

namespace Token

open Decimal (isDigit)

/-! ## Character classes -/

def isBlank (c : Char) : Bool := c == ' ' || c == '\n' || c == '\t' || c == '\r'

def isNumberChar (c : Char) : Bool :=
  isDigit c || c == '+' || c == '-' || c == '.' || c == 'e' || c == 'E'

def isWordChar (c : Char) : Bool := decide ('a' ≤ c ∧ c ≤ 'z')

/-! ## Numbers -/

/-- An exponent, or nothing. -/
def isExponent : List Char → Bool
  | [] => true
  | e :: rest =>
      (e == 'e' || e == 'E')
        && match rest with
          | '+' :: ds | '-' :: ds => !ds.isEmpty && ds.all isDigit
          | ds => !ds.isEmpty && ds.all isDigit

/-- A fraction and an exponent, both of which may be missing. -/
def isFraction : List Char → Bool
  | '.' :: rest =>
      !(rest.takeWhile isDigit).isEmpty && isExponent (rest.dropWhile isDigit)
  | rest => isExponent rest

/-- A natural number without leading zeros, and what may follow it. -/
def isUnsigned : List Char → Bool
  | '0' :: rest => isFraction rest
  | c :: rest => isDigit c && isFraction (rest.dropWhile isDigit)
  | [] => false

def isNumber : List Char → Bool
  | '-' :: rest => isUnsigned rest
  | cs => isUnsigned cs

/-! ## The lexer -/

/-- What the lexer is inside of; collected characters are in reverse. -/
inductive Mode where
  | between
  | number (body : List Char)
  | word (body : List Char)
  | string (body : List Char)
  | escape (body : List Char)
  | hexEscape (left : Nat) (body : List Char)
deriving Repr

def ofWord? (letters : List Char) : Option Token :=
  if letters = ['n', 'u', 'l', 'l'] then some null
  else if letters = ['t', 'r', 'u', 'e'] then some (bool true)
  else if letters = ['f', 'a', 'l', 's', 'e'] then some (bool false)
  else none

/-- Puts down the token that a mode has collected, if the mode can end here. -/
def close? : Mode → List Token → Option (List Token)
  | .between, done => some done
  | .number body, done =>
      if isNumber body.reverse then some (number body.reverse :: done) else none
  | .word body, done => (ofWord? body.reverse).map (· :: done)
  | .string _, _ | .escape _, _ | .hexEscape _ _, _ => none

/-- The mode and tokens after a character that stands between tokens. -/
def start? (c : Char) (done : List Token) : Option (Mode × List Token) :=
  if isBlank c then some (.between, done)
  else if c = '{' then some (.between, beginObject :: done)
  else if c = '}' then some (.between, endObject :: done)
  else if c = '[' then some (.between, beginArray :: done)
  else if c = ']' then some (.between, endArray :: done)
  else if c = ':' then some (.between, colon :: done)
  else if c = ',' then some (.between, comma :: done)
  else if c = '"' then some (.string [], done)
  else if isNumberChar c then some (.number [c], done)
  else if isWordChar c then some (.word [c], done)
  else none

/-- The mode and tokens after one more character. -/
def step? (mode : Mode) (done : List Token) (c : Char) : Option (Mode × List Token) :=
  match mode with
  | .between => start? c done
  | .number body =>
      if isNumberChar c then some (.number (c :: body), done)
      else (close? mode done).bind (start? c)
  | .word body =>
      if isWordChar c then some (.word (c :: body), done)
      else (close? mode done).bind (start? c)
  | .string body =>
      if c = '"' then some (.between, string body.reverse :: done)
      else if c = '\\' then some (.escape (c :: body), done)
      else if c.toNat < 32 then none
      else some (.string (c :: body), done)
  | .escape body =>
      if c = 'u' then some (.hexEscape 4 (c :: body), done)
      else if c ∈ ['"', '\\', '/', 'b', 'f', 'n', 'r', 't'] then some (.string (c :: body), done)
      else none
  | .hexEscape left body =>
      if (Hex.value? c).isNone then none
      else if left ≤ 1 then some (.string (c :: body), done)
      else some (.hexEscape (left - 1) (c :: body), done)

/-- Runs the lexer over the characters; the tokens come out in reverse. -/
def scan? (mode : Mode) (done : List Token) : List Char → Option (List Token)
  | [] => close? mode done
  | c :: rest =>
      match step? mode done c with
      | some (mode, done) => scan? mode done rest
      | none => none

/-- The tokens of a text, if it consists of tokens. -/
def ofText? (text : List Char) : Option (List Token) :=
  (scan? .between [] text).map List.reverse

/-! ## The text of a string -/

/-- The value of four hexadecimal digits. -/
def unit? (a b c d : Char) : Option Nat := do
  let a ← Hex.value? a
  let b ← Hex.value? b
  let c ← Hex.value? c
  let d ← Hex.value? d
  return ((a * 16 + b) * 16 + c) * 16 + d

/-- The character that a single letter stands for behind a backslash. -/
def escaped? (c : Char) : Option Char :=
  if c = 'b' then some '\x08'
  else if c = 'f' then some '\x0c'
  else if c = 'n' then some '\n'
  else if c = 'r' then some '\r'
  else if c = 't' then some '\t'
  else if c = '"' ∨ c = '\\' ∨ c = '/' then some c
  else none

/-- The text of a string's body.  A high surrogate has to be followed by a low one. -/
def unescape? : List Char → Option (List Char)
  | [] => some []
  | '\\' :: 'u' :: a :: b :: c :: d :: rest =>
      match unit? a b c d with
      | none => none
      | some high =>
          if 0xdc00 ≤ high ∧ high ≤ 0xdfff then none
          else if 0xd800 ≤ high ∧ high ≤ 0xdbff then
            match rest with
            | '\\' :: 'u' :: e :: f :: g :: h :: rest =>
                match unit? e f g h with
                | none => none
                | some low =>
                    if 0xdc00 ≤ low ∧ low ≤ 0xdfff then
                      (unescape? rest).map
                        (Char.ofNat (0x10000 + (high - 0xd800) * 0x400 + (low - 0xdc00)) :: ·)
                    else none
            | _ => none
          else (unescape? rest).map (Char.ofNat high :: ·)
  | '\\' :: c :: rest =>
      match escaped? c with
      | some c => (unescape? rest).map (c :: ·)
      | none => none
  | c :: rest => (unescape? rest).map (c :: ·)

/-! ## Skipping a value -/

/-- What may come next while a value is skipped. -/
inductive Expected where
  | value
  /-- A value, or the end of the array that was just opened. -/
  | valueOrEnd
  /-- A key, or the end of the object that was just opened. -/
  | keyOrEnd
  | key
  | colon
  /-- A comma, or the end of the innermost collection. -/
  | commaOrEnd
deriving DecidableEq, Repr

/-- Skips to the end of a value.  `depth` says of every collection that is still open, from
    the inside out, whether it is an object. -/
def skip? : Expected → (depth : List Bool) → List Token → Option (List Token)
  | .commaOrEnd, [], rest => some rest
  | _, _, [] => none
  | expected, depth, token :: rest =>
      match expected, token, depth with
      | .value, .beginArray, depth | .valueOrEnd, .beginArray, depth =>
          skip? .valueOrEnd (false :: depth) rest
      | .value, .beginObject, depth | .valueOrEnd, .beginObject, depth =>
          skip? .keyOrEnd (true :: depth) rest
      | .value, .null, depth | .value, .bool _, depth | .value, .number _, depth
      | .value, .string _, depth | .valueOrEnd, .null, depth | .valueOrEnd, .bool _, depth
      | .valueOrEnd, .number _, depth | .valueOrEnd, .string _, depth =>
          skip? .commaOrEnd depth rest
      | .keyOrEnd, .string _, depth | .key, .string _, depth => skip? .colon depth rest
      | .colon, .colon, depth => skip? .value depth rest
      | .commaOrEnd, .comma, true :: depth => skip? .key (true :: depth) rest
      | .commaOrEnd, .comma, false :: depth => skip? .value (false :: depth) rest
      | .commaOrEnd, .endObject, true :: depth | .keyOrEnd, .endObject, true :: depth
      | .commaOrEnd, .endArray, false :: depth | .valueOrEnd, .endArray, false :: depth =>
          skip? .commaOrEnd depth rest
      | _, _, _ => none

/-- What stands behind the value at the front. -/
def skipValue? (tokens : List Token) : Option (List Token) := skip? .value [] tokens

end Token

end DramBanks.Json
