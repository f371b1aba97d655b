import Diglot.Json
import Diglot.Text.Class

namespace Diglot.Json

-- The blanks that may stand between the parts of a JSON text.
def isSpace (c : Char) : Bool := c == ' ' || c == '\t' || c == '\n' || c == '\r'

def skipSpaces (text : List Char) : List Char := text.dropWhile isSpace

-- The value of a hexadecimal digit.
def hexValue? (c : Char) : Option Nat :=
  if '0' ≤ c && c ≤ '9' then some (c.toNat - '0'.toNat)
  else if 'a' ≤ c && c ≤ 'f' then some (c.toNat - 'a'.toNat + 10)
  else if 'A' ≤ c && c ≤ 'F' then some (c.toNat - 'A'.toNat + 10)
  else none

-- The UTF-16 unit that four hexadecimal digits name.
def unit? (a b c d : Char) : Option Nat := do
  return (((← hexValue? a) * 16 + (← hexValue? b)) * 16 + (← hexValue? c)) * 16 + (← hexValue? d)

def isHighUnit (unit : Nat) : Bool := 0xD800 ≤ unit && unit < 0xDC00

def isLowUnit (unit : Nat) : Bool := 0xDC00 ≤ unit && unit < 0xE000

-- The character that one UTF-16 unit stands for. Half a pair stands for the given one, if for any.
def unitChar? (half : Option Char) (unit : Nat) : Option Char :=
  if isHighUnit unit || isLowUnit unit then half else some (Char.ofNat unit)

-- The character that a pair of UTF-16 units stands for.
def pairChar (high low : Nat) : Char :=
  Char.ofNat (0x10000 + (high - 0xD800) * 0x400 + (low - 0xDC00))

-- The character that a letter behind a backslash stands for.
def shortEscape? : Char → Option Char
  | '"' => some '"'
  | '\\' => some '\\'
  | '/' => some '/'
  | 'b' => some '\x08'
  | 'f' => some '\x0c'
  | 'n' => some '\n'
  | 'r' => some '\r'
  | 't' => some '\t'
  | _ => none

-- Puts a character in front of what has been read of a string.
def prepend (c : Char) : Option (List Char × List Char) → Option (List Char × List Char)
  | none => none
  | some (value, rest) => some (c :: value, rest)

-- Reads a string behind its opening quote. Gives its characters and what follows it. Half a pair of
-- UTF-16 units stands for the given character, or makes the string no text.
def stringBody (half : Option Char) : List Char → Option (List Char × List Char)
  | [] => none
  | '"' :: rest => some ([], rest)
  | '\\' :: 'u' :: a :: b :: c :: d :: '\\' :: 'u' :: e :: f :: g :: h :: rest =>
      match unit? a b c d, unit? e f g h with
      | some first, some second =>
          if isHighUnit first && isLowUnit second then
            prepend (pairChar first second) (stringBody half rest)
          else
            match unitChar? half first with
            | some found =>
                prepend found (stringBody half ('\\' :: 'u' :: e :: f :: g :: h :: rest))
            | none => none
      | _, _ => none
  | '\\' :: 'u' :: a :: b :: c :: d :: rest =>
      match (unit? a b c d).bind (unitChar? half) with
      | some found => prepend found (stringBody half rest)
      | none => none
  | '\\' :: c :: rest =>
      match shortEscape? c with
      | some found => prepend found (stringBody half rest)
      | none => none
  | c :: rest => if c.toNat < 32 || c == '\\' then none else prepend c (stringBody half rest)
termination_by text => text.length

-- The value of some decimal digits.
def digitsValue (digits : List Char) : Nat :=
  digits.foldl (fun value c => value * 10 + (c.toNat - '0'.toNat)) 0

-- Reads one or more digits. Gives them and what follows.
def someDigits (text : List Char) : Option (List Char × List Char) :=
  let digits := text.takeWhile isDigit
  if digits.isEmpty then none else some (digits, text.drop digits.length)

-- Reads the fraction of a number, if there is one. A point needs digits.
def fractionPart : List Char → Option (List Char × List Char)
  | '.' :: rest => prepend '.' (someDigits rest)
  | text => some ([], text)

-- Reads the exponent of a number, if there is one. Its mark needs digits.
def exponentPart : List Char → Option (List Char × List Char)
  | mark :: rest =>
      if mark == 'e' || mark == 'E' then
        match rest with
        | '+' :: rest => prepend mark (prepend '+' (someDigits rest))
        | '-' :: rest => prepend mark (prepend '-' (someDigits rest))
        | rest => prepend mark (someDigits rest)
      else some ([], mark :: rest)
  | [] => some ([], [])

-- Reads a number without its sign. A leading zero stands alone.
def unsigned (text : List Char) : Option (Json × List Char) := do
  let (whole, rest) ← someDigits text
  if whole.head? == some '0' && whole.length != 1 then none
  else
    let (fraction, rest) ← fractionPart rest
    let (exponent, rest) ← exponentPart rest
    if fraction.isEmpty && exponent.isEmpty then return (nat (digitsValue whole), rest)
    else return (number (String.ofList (whole ++ fraction ++ exponent)), rest)

-- The number with a minus sign in front.
def negative : Json → Json
  | nat value => number ("-" ++ toString value)
  | number literal => number ("-" ++ literal)
  | other => other

-- Reads a word that stands for a value.
def word (text : List Char) : Option (Json × List Char) :=
  if "null".toList.isPrefixOf text then some (null, text.drop 4)
  else if "true".toList.isPrefixOf text then some (bool true, text.drop 4)
  else if "false".toList.isPrefixOf text then some (bool false, text.drop 5)
  else none

section Containers

-- The readers of the strings of a value, behind their opening quotes, and of the values inside it.
variable (string : List Char → Option (List Char × List Char))
variable (value : List Char → Option (Json × List Char))

-- Reads the items of an array up to its end, of which there is at least one.
def items : Nat → List Char → Option (List Json × List Char)
  | 0, _ => none
  | limit + 1, text => do
      let (first, rest) ← value text
      match skipSpaces rest with
      | ']' :: rest => return ([first], rest)
      | ',' :: rest => do
          let (more, rest) ← items limit rest
          return (first :: more, rest)
      | _ => none

-- Reads the fields of an object up to its end, of which there is at least one.
def fields : Nat → List Char → Option (List (String × Json) × List Char)
  | 0, _ => none
  | limit + 1, text =>
      match skipSpaces text with
      | '"' :: rest => do
          let (name, rest) ← string rest
          match skipSpaces rest with
          | ':' :: rest => do
              let (first, rest) ← value rest
              match skipSpaces rest with
              | '}' :: rest => return ([(String.ofList name, first)], rest)
              | ',' :: rest => do
                  let (more, rest) ← fields limit rest
                  return ((String.ofList name, first) :: more, rest)
              | _ => none
          | _ => none
      | _ => none

-- Reads a value with the blanks in front of it. An array or object in it has fewer parts than the
-- limit.
def layer (limit : Nat) (text : List Char) : Option (Json × List Char) :=
  match skipSpaces text with
  | '"' :: rest => do
      let (found, rest) ← string rest
      return (str (String.ofList found), rest)
  | '[' :: rest =>
      match skipSpaces rest with
      | ']' :: rest => some (arr [], rest)
      | rest => do
          let (found, rest) ← items value limit rest
          return (arr found, rest)
  | '{' :: rest =>
      match skipSpaces rest with
      | '}' :: rest => some (obj [], rest)
      | rest => do
          let (found, rest) ← fields string value limit rest
          return (obj found, rest)
  | '-' :: rest => do
      let (found, rest) ← unsigned rest
      return (negative found, rest)
  | text => (unsigned text).or (word text)

end Containers

-- Reads a value of fewer characters than the limit. What it contains has fewer still.
def value (half : Option Char) : Nat → List Char → Option (Json × List Char)
  | 0, _ => none
  | limit + 1, text => layer (stringBody half) (value half limit) limit text

-- What a reader makes of a whole text, blanks behind it aside.
def whole (reader : List Char → Option (Json × List Char)) (text : String) : Option Json := do
  let (found, rest) ← reader text.toList
  if (skipSpaces rest).isEmpty then return found else none

-- The value that a text is, all of whose strings are texts.
def parse? (text : String) : Option Json := whole (value none (text.toList.length + 1)) text

-- The value that a text is, with only the strings of its outermost layer held to be texts. Inside,
-- half a pair of UTF-16 units is read as U+FFFD.
def parseOuter? (text : String) : Option Json :=
  let size := text.toList.length
  whole (layer (stringBody none) (value (some '\ufffd') size) size) text

end Diglot.Json
