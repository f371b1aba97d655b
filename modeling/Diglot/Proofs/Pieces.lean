import Diglot.Text.Quote
import Diglot.Token.Piece

namespace Diglot

variable {p : Char → Bool} {rest : List Char} {c : Char}

-- Pieces of text in front of any text that cannot carry them on.

theorem takeWhile_eq_nil_of_head (h : rest.head?.any p = false) : rest.takeWhile p = [] := by
  cases rest with
  | nil => rfl
  | cons c rest =>
      have hc : p c = false := by simpa using h
      simp [hc]

theorem takeWhile_append_of_head (hrest : rest.head?.any p = false) (text : List Char) :
    (text ++ rest).takeWhile p = text.takeWhile p := by
  rw [List.takeWhile_append, takeWhile_eq_nil_of_head hrest]
  split
  · rename_i hfull
    rw [List.append_nil, (List.takeWhile_prefix p).eq_of_length hfull]
  · rfl

theorem head_any_of_imp {q : Char → Bool} (himp : ∀ c, p c = true → q c = true) {text : List Char}
    (h : text.head?.any q = false) : text.head?.any p = false := by
  cases text with
  | nil => rfl
  | cons c text =>
      simp only [List.head?_cons, Option.any_some] at h ⊢
      apply Bool.eq_false_iff.mpr
      intro hc
      simp [himp c hc] at h

theorem ne_of_test {d : Char} (hc : p c = true) (hd : p d = false) : c ≠ d := by
  rintro rfl
  simp [hc] at hd

-- The classes of characters by their codes.

theorem isDigit_iff : isDigit c = true ↔ 48 ≤ c.val.toNat ∧ c.val.toNat ≤ 57 := by
  have h0 : '0'.val.toNat = 48 := rfl
  have h9 : '9'.val.toNat = 57 := rfl
  change (decide ('0'.val ≤ c.val) && decide (c.val ≤ '9'.val)) = true ↔ _
  simp only [Bool.and_eq_true, decide_eq_true_eq, UInt32.le_iff_toNat_le, h0, h9]

theorem isLetter_iff :
    isLetter c = true ↔ (65 ≤ c.val.toNat ∧ c.val.toNat ≤ 90) ∨
      (97 ≤ c.val.toNat ∧ c.val.toNat ≤ 122) ∨ c = '_' := by
  have hA : 'A'.val.toNat = 65 := rfl
  have hZ : 'Z'.val.toNat = 90 := rfl
  have ha : 'a'.val.toNat = 97 := rfl
  have hz : 'z'.val.toNat = 122 := rfl
  change (decide ('A'.val ≤ c.val ∧ c.val ≤ 'Z'.val) ||
    decide ('a'.val ≤ c.val) && decide (c.val ≤ 'z'.val) || c == '_') = true ↔ _
  simp only [Bool.or_eq_true, Bool.and_eq_true, decide_eq_true_eq, UInt32.le_iff_toNat_le,
    beq_iff_eq, hA, hZ, ha, hz, or_assoc]

theorem isDigit_of_isLetter (h : isLetter c = true) : isDigit c = false := by
  apply Bool.eq_false_iff.mpr
  intro hdigit
  rw [isDigit_iff] at hdigit
  rcases isLetter_iff.mp h with h | h | rfl
  · omega
  · omega
  · revert hdigit
    decide

namespace Number

variable {text : List Char}

-- Whether a text is a number literal and nothing more.
def isLiteral (text : List Char) : Bool :=
  text.head?.any isDigit &&
    match read text with
    | .ok literal => literal == text
    | .error _ => false

theorem read_of_isLiteral (h : isLiteral text = true) : read text = .ok text := by
  simp only [isLiteral, Bool.and_eq_true] at h
  obtain ⟨-, h⟩ := h
  split at h
  · rename_i hread
    rw [hread, eq_of_beq h]
  · cases h

-- A text that does not carry on the number in front of it: no character of a word comes first, and
-- no digit behind a point.
structure Stops (rest : List Char) : Prop where
  word : rest.head?.any isWordChar = false
  point : fraction rest = []

variable {rest : List Char}

theorem Stops.digit (h : Stops rest) : rest.head?.any isDigit = false :=
  head_any_of_imp (fun c hc => by simp [isWordChar, hc]) h.word

theorem Stops.letter (h : Stops rest) : rest.head?.any isLetter = false :=
  head_any_of_imp (fun c hc => by simp [isWordChar, hc]) h.word

theorem isWordChar_of_isHexDigit (c : Char) (h : isHexDigit c = true) : isWordChar c = true := by
  simp only [isHexDigit, Bool.or_eq_true, Bool.and_eq_true, decide_eq_true_eq, Char.le_def,
    UInt32.le_iff_toNat_le] at h
  simp only [isWordChar, Bool.or_eq_true, isLetter_iff]
  have ha : 'a'.val.toNat = 97 := rfl
  have hf : 'f'.val.toNat = 102 := rfl
  have hA : 'A'.val.toNat = 65 := rfl
  have hF : 'F'.val.toNat = 70 := rfl
  rcases h with (h | h) | h
  · exact .inr h
  · exact .inl (.inr (.inl (by omega)))
  · exact .inl (.inl (by omega))

theorem Stops.hexDigit (h : Stops rest) : rest.head?.any isHexDigit = false :=
  head_any_of_imp isWordChar_of_isHexDigit h.word

theorem fraction_append (hrest : Stops rest) (text : List Char) :
    fraction (text ++ rest) = fraction text := by
  cases text with
  | nil => exact hrest.point
  | cons c text =>
      by_cases hc : c = '.'
      · subst hc
        simp only [List.cons_append, fraction, takeWhile_append_of_head hrest.digit]
      · simp [fraction, hc]

theorem sign_append (h : text ≠ []) : sign (text ++ rest) = sign text := by
  cases text with
  | nil => exact absurd rfl h
  | cons c text =>
      simp only [List.cons_append]
      unfold sign
      split <;> simp_all

theorem length_sign_le (text : List Char) : (sign text).length ≤ text.length := by
  unfold sign
  split <;> simp

-- An exponent that is all of a text is still the exponent where the text goes on with a stop.
theorem exponent_append (hrest : Stops rest) (h : exponent text = text) :
    exponent (text ++ rest) = text := by
  cases text with
  | nil =>
      cases rest with
      | nil => rfl
      | cons c rest =>
          have hc : isLetter c = false := by simpa using hrest.letter
          have he : c ≠ 'e' := by rintro rfl; simp [isLetter] at hc
          have hE : c ≠ 'E' := by rintro rfl; simp [isLetter] at hc
          simp [exponent, he, hE]
  | cons mark digits =>
      have hdigits : digits ≠ [] := by
        rintro rfl
        simp [exponent, sign] at h
      have hdrop : (digits ++ rest).drop (sign digits).length =
          digits.drop (sign digits).length ++ rest :=
        List.drop_append_of_le_length (length_sign_le digits)
      simp only [List.cons_append, exponent, sign_append hdigits, hdrop,
        takeWhile_append_of_head hrest.digit] at h ⊢
      exact h

theorem hexadecimal_append (hrest : Stops rest) (h : text ≠ []) :
    hexadecimal? (text ++ rest) = hexadecimal? text := by
  match text with
  | [] => exact absurd rfl h
  | [c] =>
      cases rest with
      | nil => rfl
      | cons mark rest =>
          have hmark : isLetter mark = false := by simpa using hrest.letter
          have hx : mark ≠ 'x' := by rintro rfl; simp [isLetter] at hmark
          have hX : mark ≠ 'X' := by rintro rfl; simp [isLetter] at hmark
          simp only [List.cons_append, List.nil_append]
          unfold hexadecimal?
          split <;> simp_all
  | c :: mark :: digits =>
      by_cases hc : c = '0'
      · subst hc
        simp only [List.cons_append, hexadecimal?, takeWhile_append_of_head hrest.hexDigit]
      · simp [hexadecimal?, hc]

theorem finish_append (hrest : Stops rest) (text : List Char) :
    finish text (text ++ rest) = .ok text := by
  simp [finish, hrest.letter]

-- A number literal is read as such in front of all that does not carry it on.
theorem read_append (hrest : Stops rest) (h : isLiteral text = true) :
    read (text ++ rest) = .ok text := by
  have hne : text ≠ [] := by
    rintro rfl
    simp [isLiteral] at h
  have hread := read_of_isLiteral h
  unfold read at hread ⊢
  rw [hexadecimal_append hrest hne]
  split at hread
  · rename_i literal _
    rw [← finish_eq_ok hread]
    exact finish_append hrest text
  · have hwhole : (text.takeWhile isDigit).length ≤ text.length :=
      (List.takeWhile_prefix isDigit).length_le
    dsimp only at hread ⊢
    rw [takeWhile_append_of_head hrest.digit, List.drop_append_of_le_length hwhole,
      fraction_append hrest]
    generalize fraction (text.drop (text.takeWhile isDigit).length) = part at hread ⊢
    generalize text.takeWhile isDigit ++ part = mantissa at hread ⊢
    split at hread
    · cases hread
    · rename_i hpart
      -- The literal is all of the text, so its exponent is all that the mantissa leaves.
      have hliteral := finish_eq_ok hread
      have hlength : mantissa.length ≤ text.length := by
        rw [hliteral, List.length_append]
        omega
      have hexponent : exponent (text.drop mantissa.length) = text.drop mantissa.length := by
        have hdrop := congrArg (List.drop mantissa.length) hliteral
        rw [List.drop_left] at hdrop
        exact hdrop.symm
      rw [List.drop_append_of_le_length hlength, fraction_append hrest, if_neg hpart,
        exponent_append hrest hexponent]
      rw [hexponent] at hliteral
      rw [← hliteral]
      exact finish_append hrest text

end Number

namespace Piece

variable {rest text lexeme : List Char} {operators : List String} {c : Char}

theorem number_append (hrest : Number.Stops rest) (h : Number.isLiteral text = true) :
    number (text ++ rest) = .ok ⟨text, some (.number, String.ofList text)⟩ := by
  simp only [number, Number.read_append hrest h]

theorem word_append {isPart : Char → Bool} (hrest : rest.head?.any isPart = false)
    (h : text.all isPart = true) (keywords : List String) :
    word keywords isPart (text ++ rest) =
      ⟨text, some (if keywords.contains (String.ofList text) then .keyword else .identifier,
        String.ofList text)⟩ := by
  have htake : (text ++ rest).takeWhile isPart = text := by
    rw [List.takeWhile_append_of_pos (List.all_eq_true.mp h), takeWhile_eq_nil_of_head hrest,
      List.append_nil]
  simp only [word, htake]

-- The characters that make a longer operator of one.
def followers (operators : List String) (lexeme : List Char) : List Char :=
  operators.filterMap fun other =>
    if lexeme.isPrefixOf other.toList then other.toList[lexeme.length]? else none

theorem not_contains_of_followers (h : c ∉ followers operators lexeme) (more : List Char) :
    operators.contains (String.ofList (lexeme ++ c :: more)) = false := by
  apply Bool.eq_false_iff.mpr
  intro hmem
  apply h
  simp only [followers, List.mem_filterMap]
  exact ⟨_, List.contains_iff_mem.mp hmem, by simp⟩

-- An operator is found in front of all that does not make a longer one of it.
theorem longestOperator_append (hmem : operators.contains (String.ofList lexeme) = true)
    (hne : lexeme ≠ []) (hlength : lexeme.length ≤ 3)
    (hrest : ∀ c ∈ rest.head?, c ∉ followers operators lexeme) :
    longestOperator? operators (lexeme ++ rest) = some lexeme := by
  -- What is taken of the text is the operator, a longer text, or a part of it that comes later.
  have htake : ∀ n, lexeme.length < n →
      (operators.contains (String.ofList ((lexeme ++ rest).take n)) = false ∨
        (lexeme ++ rest).take n = lexeme) := by
    intro n hn
    cases rest with
    | nil => exact .inr (by rw [List.append_nil, List.take_of_length_le (by omega)])
    | cons c more =>
        obtain ⟨k, rfl⟩ : ∃ k, n = lexeme.length + (k + 1) := ⟨n - lexeme.length - 1, by omega⟩
        left
        rw [List.take_length_add_append, List.take_succ_cons]
        exact not_contains_of_followers (hrest c rfl) _
  have hself : (lexeme ++ rest).take lexeme.length = lexeme := List.take_left
  have hpos := List.length_pos_iff.mpr hne
  obtain hone | htwo | hthree :
      lexeme.length = 1 ∨ lexeme.length = 2 ∨ lexeme.length = 3 := by omega
  · rw [hone] at htake hself
    rcases htake 3 (by decide) with h3 | h3 <;> rcases htake 2 (by decide) with h2 | h2 <;>
      simp only [longestOperator?, List.find?_cons, h2, h3, hself, hmem]
  · rw [htwo] at htake hself
    rcases htake 3 (by decide) with h3 | h3 <;>
      simp only [longestOperator?, List.find?_cons, h3, hself, hmem]
  · rw [hthree] at hself
    simp only [longestOperator?, List.find?_cons, hself, hmem]

theorem operator_append {more : List Char}
    (hmem : operators.contains (String.ofList (c :: more)) = true) (hlength : more.length ≤ 2)
    (hrest : ∀ d ∈ rest.head?, d ∉ followers operators (c :: more)) :
    operator operators c (more ++ rest) =
      .ok ⟨c :: more, some (.operator, String.ofList (c :: more))⟩ := by
  have hshort : (c :: more).length ≤ 3 := by
    rw [List.length_cons]
    omega
  have hfound := longestOperator_append hmem (by simp) hshort hrest
  rw [List.cons_append] at hfound
  simp only [operator, hfound]

end Piece

namespace Quoted

variable {quote c : Char}

theorem body_close (quote : Char) (rest : List Char) :
    body quote (quote :: rest) = some ([], [quote]) := by
  unfold body
  exact if_pos rfl

theorem body_stop (hquote : quote ≠ '\n') (rest : List Char) :
    body quote ('\n' :: rest) = none := by
  unfold body
  rw [if_neg hquote.symm, if_pos rfl]

theorem body_cons (hquote : c ≠ quote) (hfeed : c ≠ '\n') (hslash : c ≠ '\\') (rest : List Char) :
    body quote (c :: rest) =
      (body quote rest).map fun (value, piece) => (c :: value, c :: piece) := by
  cases rest with
  | nil => simp [body, hquote, hfeed, hslash]
  | cons d rest =>
      rw [body]
      simp only [hquote, hfeed, hslash, if_false]
      cases body quote (d :: rest) <;> rfl

theorem body_escape (hquote : quote ≠ '\\') (c : Char) (rest : List Char) :
    body quote ('\\' :: c :: rest) =
      (body quote rest).map fun (value, piece) =>
        (unescape c :: value, '\\' :: c :: piece) := by
  rw [body]
  simp only [hquote.symm, if_false, if_true]
  cases body quote rest <;> simp

theorem template_close (rest : List Char) : template ('`' :: rest) = some [] := by
  cases rest <;> rfl

theorem template_cons (htick : c ≠ '`') (hslash : c ≠ '\\') (rest : List Char) :
    template (c :: rest) = (template rest).map (c :: ·) := by
  cases rest <;> simp [template, htick, hslash]

-- A character that survives between quotes: no control character but the three with an escape.
def isPlain (c : Char) : Bool := 32 ≤ c.toNat || c == '\n' || c == '\r' || c == '\t'

-- What a character comes back as from between quotes. A control character without an escape that
-- is read loses its backslash, and the rest of its escape stays.
def reread (c : Char) : List Char :=
  if isPlain c then [c]
  else if c = '\x08' then ['b']
  else if c = '\x0c' then ['f']
  else ['u', '0', '0', hexDigit (c.toNat / 16), hexDigit (c.toNat % 16)]

theorem body_hexDigit {n : Nat} (h : n < 16) (rest : List Char) :
    body '"' (hexDigit n :: rest) =
      (body '"' rest).map fun (value, piece) => (hexDigit n :: value, hexDigit n :: piece) := by
  have hdigits : ∀ n < 16, hexDigit n ≠ '"' ∧ hexDigit n ≠ '\n' ∧ hexDigit n ≠ '\\' := by decide
  obtain ⟨hquote, hfeed, hslash⟩ := hdigits n h
  exact body_cons hquote hfeed hslash rest

theorem toNat_lt_of_not_isPlain (h : isPlain c = false) : c.toNat < 32 := by
  simp only [isPlain, Bool.or_eq_false_iff, decide_eq_false_iff_not, Nat.not_le] at h
  exact h.1.1.1

-- A control character is escaped by its code, if it has no shorter escape.
theorem escaped_control (h : isPlain c = false) (hback : c ≠ '\x08') (hfeed : c ≠ '\x0c') :
    escaped c = ['\\', 'u', '0', '0', hexDigit (c.toNat / 16), hexDigit (c.toNat % 16)] := by
  unfold escaped
  split
  any_goals (revert h; decide)
  · exact absurd rfl hback
  · exact absurd rfl hfeed
  · exact if_pos (toNat_lt_of_not_isPlain h)

theorem body_escaped (c : Char) (rest : List Char) :
    body '"' (escaped c ++ rest) =
      (body '"' rest).map fun (value, piece) => (reread c ++ value, escaped c ++ piece) := by
  have hescape : ∀ c rest, body '"' ('\\' :: c :: rest) = _ := body_escape (by decide)
  by_cases hplain : isPlain c = true
  · by_cases hspecial : c ∈ ['"', '\\', '\n', '\r', '\t']
    · simp only [List.mem_cons, List.not_mem_nil, or_false] at hspecial
      rcases hspecial with rfl | rfl | rfl | rfl | rfl <;>
        simp [escaped, hescape, reread, hplain, unescape]
    · simp only [List.mem_cons, List.not_mem_nil, or_false, not_or] at hspecial
      obtain ⟨hquote, hslash, hfeed, hreturn, htab⟩ := hspecial
      have hlow : ¬ c.toNat < 32 := by simpa [isPlain, hfeed, hreturn, htab] using hplain
      have hself : escaped c = [c] := by
        unfold escaped
        split <;> first | contradiction | exact absurd (by decide) hlow | exact if_neg hlow
      simp [hself, reread, hplain, body_cons hquote hfeed hslash]
  · rw [Bool.not_eq_true] at hplain
    by_cases hback : c = '\x08'
    · subst hback
      simp [escaped, hescape, reread, hplain, unescape]
    by_cases hfeed : c = '\x0c'
    · subst hfeed
      simp [escaped, hescape, reread, hplain, unescape]
    have hcode := toNat_lt_of_not_isPlain hplain
    have hzero : ∀ rest, body '"' ('0' :: rest) = _ :=
      body_cons (by decide) (by decide) (by decide)
    have hhigh := body_hexDigit (show c.toNat / 16 < 16 by omega)
    have hlow := body_hexDigit (show c.toNat % 16 < 16 by omega)
    simp [escaped_control hplain hback hfeed, hescape, hzero, hhigh, hlow, reread, hplain, hback,
      hfeed, unescape, Function.comp_def]

-- A quoted text is read up to the quote that closes it.
theorem body_flatMap_escaped (text rest : List Char) :
    body '"' (text.flatMap escaped ++ '"' :: rest) =
      some (text.flatMap reread, text.flatMap escaped ++ ['"']) := by
  induction text with
  | nil => cases rest <;> simp [body]
  | cons c text ih =>
      rw [List.flatMap_cons, List.append_assoc, body_escaped, ih]
      simp

-- A character that does not come back as itself comes back as something that starts otherwise.
theorem reread_of_not_isPlain (h : isPlain c = false) : ∃ d more, reread c = d :: more ∧ d ≠ c := by
  have hletters : ∀ d ∈ ['b', 'f', 'u'], isPlain d = true := List.all_eq_true.mp (by decide)
  have hne : ∀ d ∈ ['b', 'f', 'u'], d ≠ c := by
    rintro d hd rfl
    simp [hletters d hd] at h
  by_cases hback : c = '\x08'
  · exact ⟨'b', [], by rw [hback]; rfl, hne 'b' (by decide)⟩
  by_cases hfeed : c = '\x0c'
  · exact ⟨'f', [], by rw [hfeed]; rfl, hne 'f' (by decide)⟩
  have hreread : reread c =
      ['u', '0', '0', hexDigit (c.toNat / 16), hexDigit (c.toNat % 16)] := by
    simp [reread, h, hback, hfeed]
  exact ⟨'u', _, hreread, hne 'u' (by decide)⟩

-- A text comes back as itself if and only if each of its characters does.
theorem flatMap_reread_eq_self_iff (text : List Char) :
    text.flatMap reread = text ↔ text.all isPlain = true := by
  induction text with
  | nil => simp
  | cons c text ih =>
      rw [List.flatMap_cons, List.all_cons, Bool.and_eq_true, ← ih]
      by_cases hplain : isPlain c = true
      · simp [reread, hplain]
      · obtain ⟨d, more, hreread, hne⟩ := reread_of_not_isPlain (Bool.eq_false_iff.mpr hplain)
        simp [hreread, hne, hplain]

-- A quoted text is read back as what it quotes.
-- A text as it is read back once it is quoted.
def readBack (text : String) : String := String.ofList (text.toList.flatMap reread)

theorem readBack_of_isPlain {text : String} (h : text.toList.all isPlain = true) :
    readBack text = text := by
  rw [readBack, (flatMap_reread_eq_self_iff _).mpr h, String.ofList_toList]

theorem body_quote {text : List Char} (h : text.all isPlain = true) (rest : List Char) :
    body '"' (text.flatMap escaped ++ '"' :: rest) =
      some (text, text.flatMap escaped ++ ['"']) := by
  rw [body_flatMap_escaped, (flatMap_reread_eq_self_iff text).mpr h]

end Quoted

end Diglot
