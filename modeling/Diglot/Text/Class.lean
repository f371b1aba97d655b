namespace Diglot

-- Letters of names: the ASCII letters and the underscore.
def isLetter (c : Char) : Bool := c.isAlpha || c == '_'

-- Decimal digits, ASCII only.
def isDigit (c : Char) : Bool := c.isDigit

-- Hexadecimal digits, ASCII only.
def isHexDigit (c : Char) : Bool :=
  c.isDigit || ('a' ≤ c && c ≤ 'f') || ('A' ≤ c && c ≤ 'F')

-- Characters that may follow the first one of a name.
def isWordChar (c : Char) : Bool := isLetter c || isDigit c

-- The characters with the Unicode property White_Space.
def isBlank (c : Char) : Bool :=
  ('\t' ≤ c && c ≤ '\r') || c == ' ' || c == '\u0085' || c == '\u00a0' || c == '\u1680' ||
    ('\u2000' ≤ c && c ≤ '\u200a') || c == '\u2028' || c == '\u2029' || c == '\u202f' ||
    c == '\u205f' || c == '\u3000'

-- A text without the blanks at its two ends.
def trimBlanks (text : List Char) : List Char :=
  ((text.dropWhile isBlank).reverse.dropWhile isBlank).reverse

end Diglot
