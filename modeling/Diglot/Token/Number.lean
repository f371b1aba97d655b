import Diglot.Text.Class

namespace Diglot.Number

-- The `.` and the digits at the start of a text, or nothing where no digit follows the point.
def fraction : List Char → List Char
  | '.' :: rest =>
      let digits := rest.takeWhile isDigit
      if digits.isEmpty then [] else '.' :: digits
  | _ => []

-- The sign at the start of a text, if it has one.
def sign : List Char → List Char
  | '+' :: _ => ['+']
  | '-' :: _ => ['-']
  | _ => []

-- The exponent at the start of a text, or nothing where no digit follows its mark and sign.
def exponent : List Char → List Char
  | mark :: rest =>
      if mark == 'e' || mark == 'E' then
        let digits := (rest.drop (sign rest).length).takeWhile isDigit
        if digits.isEmpty then [] else mark :: sign rest ++ digits
      else []
  | [] => []

-- The hexadecimal literal at the start of a text. At least one digit follows `0x`.
def hexadecimal? : List Char → Option (List Char)
  | '0' :: mark :: rest =>
      let digits := rest.takeWhile isHexDigit
      if (mark == 'x' || mark == 'X') && !digits.isEmpty then some ('0' :: mark :: digits) else none
  | _ => none

-- Accepts a literal at the start of a text unless a letter follows it directly. What is refused is
-- the literal with the word that it runs into.
def finish (literal text : List Char) : Except String (List Char) :=
  let rest := text.drop literal.length
  if rest.head?.any isLetter then
    .error (String.ofList (literal ++ rest.takeWhile isWordChar))
  else .ok literal

-- The number literal at the start of a text that starts with a digit: hexadecimal, or decimal with
-- an optional fraction and an optional exponent. A second fraction is refused.
def read (text : List Char) : Except String (List Char) :=
  match hexadecimal? text with
  | some literal => finish literal text
  | none =>
      let whole := text.takeWhile isDigit
      let part := fraction (text.drop whole.length)
      let mantissa := whole ++ part
      let rest := text.drop mantissa.length
      if !part.isEmpty && !(fraction rest).isEmpty then
        .error (String.ofList (mantissa ++ '.' :: (rest.drop 1).takeWhile isWordChar))
      else finish (mantissa ++ exponent rest) text

theorem finish_eq_ok {literal text found : List Char} (h : finish literal text = .ok found) :
    found = literal := by
  simp only [finish] at h
  split at h
  · cases h
  · cases h; rfl

-- A literal that starts with a digit is not empty.
theorem read_ne_nil {c : Char} {rest literal : List Char} (hc : isDigit c = true)
    (h : read (c :: rest) = .ok literal) : literal ≠ [] := by
  unfold read at h
  split at h
  · rename_i found hfound
    rw [finish_eq_ok h]
    intro hnil
    subst hnil
    unfold hexadecimal? at hfound
    split at hfound
    · dsimp only at hfound
      split at hfound <;> cases hfound
    · cases hfound
  · dsimp only at h
    split at h
    · cases h
    · rw [finish_eq_ok h]
      simp [hc]

end Diglot.Number
