import Diglot.Proofs.Braced.Parts
import Diglot.Proofs.Indented.Runs
import Diglot.Proofs.Quoting
import Mathlib.Computability.Language

namespace Diglot

-- The longest word of a language that a text starts with.
structure IsLongest (language : Language Char) (text word : List Char) : Prop where
  mem : word ∈ language
  isPrefix : word <+: text
  longest : ∀ other ∈ language, other <+: text → other.length ≤ word.length

namespace IsLongest

variable {A B : Language Char} {text word other : List Char}

theorem prefix_of_mem (h : IsLongest A text word) (hmem : other ∈ A) (hother : other <+: text) :
    other <+: word :=
  List.prefix_of_prefix_length_le hother h.isPrefix (h.longest other hmem hother)

theorem unique (h : IsLongest A text word) (hother : IsLongest A text other) : other = word :=
  (h.prefix_of_mem hother.mem hother.isPrefix).eq_of_length_le
    (hother.longest word h.mem h.isPrefix)

theorem self (h : word ∈ A) : IsLongest A word word :=
  ⟨h, List.prefix_rfl, fun _ _ hother => hother.length_le⟩

-- Nothing at all is the longest word of a language and the empty word if the language has none.
theorem one_add (hword : word ∈ 1 + A) (hstarts : word <+: text)
    (h : ∀ other ∈ A, other <+: text → other <+: word) : IsLongest (1 + A) text word := by
  refine ⟨hword, hstarts, fun other hother hfront => ?_⟩
  rcases (Language.mem_add _ _ _).mp hother with hnil | hmem
  · simp [(Language.mem_one _).mp hnil]
  · exact (h other hmem hfront).length_le

-- The longest words of two languages, one behind the other, where no word of the second carries on
-- in the midst of one of the first: that has only characters which no word of the second starts with.
theorem append {p : Char → Bool} {rest : List Char} (hfront : IsLongest A (word ++ rest) word)
    {back : List Char} (hback : IsLongest B rest back) (hA : ∀ a ∈ A, a.all p = true)
    (hB : ∀ b ∈ B, b.head?.any p = false) : IsLongest (A * B) (word ++ rest) (word ++ back) := by
  refine ⟨Language.append_mem_mul hfront.mem hback.mem,
    (List.prefix_append_right_inj word).mpr hback.isPrefix, ?_⟩
  intro other hother hstarts
  refine List.IsPrefix.length_le ?_
  obtain ⟨a, ha, b, hb, rfl⟩ := Language.mem_mul.mp hother
  obtain ⟨more, rfl⟩ := hfront.prefix_of_mem ha ((List.prefix_append a b).trans hstarts)
  rw [List.append_assoc, List.prefix_append_right_inj] at hstarts
  rw [List.append_assoc, List.prefix_append_right_inj]
  cases more with
  | nil => exact hback.prefix_of_mem hb hstarts
  | cons c more =>
      have hc : p c = true := by
        have hall := hA _ hfront.mem
        simp only [List.all_append, List.all_cons, Bool.and_eq_true] at hall
        exact hall.2.1
      cases b with
      | nil => exact List.nil_prefix
      | cons d b =>
          obtain ⟨rfl, -⟩ := List.cons_prefix_cons.mp hstarts
          have hd : p d = false := by simpa using hB _ hb
          rw [hc] at hd
          cases hd

end IsLongest

namespace Number

-- One character out of some.
def oneOf (chars : List Char) : Language Char := {text | ∃ c ∈ chars, text = [c]}

-- One or more characters of a class.
def run (p : Char → Bool) : Language Char := {text | text ≠ [] ∧ text.all p = true}

-- A point and digits.
def fractions : Language Char := oneOf ['.'] * run isDigit

-- A mark, perhaps a sign, and digits.
def exponents : Language Char := oneOf ['e', 'E'] * (1 + oneOf ['+', '-']) * run isDigit

-- Digits, perhaps a fraction and perhaps an exponent.
def decimals : Language Char := run isDigit * (1 + fractions) * (1 + exponents)

-- A zero, a mark and hexadecimal digits.
def hexadecimals : Language Char := oneOf ['0'] * oneOf ['x', 'X'] * run isHexDigit

-- Whether a text starts with a zero, the mark of a hexadecimal number and one of its digits.
def OpensHexadecimal (text : List Char) : Prop :=
  ∃ mark ∈ ['x', 'X'], ∃ digit, isHexDigit digit = true ∧ ['0', mark, digit] <+: text

-- The literal at the start of a text: the longest hexadecimal one if the text opens one, and else
-- the longest decimal one.
def IsNumeral (text literal : List Char) : Prop :=
  (OpensHexadecimal text → IsLongest hexadecimals text literal) ∧
    (¬ OpensHexadecimal text → IsLongest decimals text literal)

-- What must not follow a literal directly: a letter or an underscore, and behind a fraction without
-- an exponent a point and a digit.
def RunsOn (literal behind : List Char) : Prop :=
  behind.head?.any isLetter = true ∨
    literal ∈ run isDigit * fractions ∧
      ∃ digit rest, behind = '.' :: digit :: rest ∧ isDigit digit = true

section Words

variable {text : List Char}

theorem mem_run_cons {p : Char → Bool} {c : Char} :
    c :: text ∈ run p ↔ p c = true ∧ text.all p = true := by
  change (_ ∧ _) ↔ _
  simp

theorem mem_fractions : text ∈ fractions ↔ ∃ digits ∈ run isDigit, text = '.' :: digits := by
  constructor
  · intro h
    obtain ⟨_, ⟨c, hc, rfl⟩, digits, hdigits, rfl⟩ := Language.mem_mul.mp h
    obtain rfl := List.mem_singleton.mp hc
    exact ⟨digits, hdigits, rfl⟩
  · rintro ⟨digits, hdigits, rfl⟩
    exact Language.mem_mul.mpr ⟨['.'], ⟨'.', .head _, rfl⟩, digits, hdigits, rfl⟩

theorem mem_hexadecimals :
    text ∈ hexadecimals ↔
      ∃ mark ∈ ['x', 'X'], ∃ digits ∈ run isHexDigit, text = '0' :: mark :: digits := by
  constructor
  · intro h
    obtain ⟨_, hfront, digits, hdigits, rfl⟩ := Language.mem_mul.mp h
    obtain ⟨_, ⟨c, hc, rfl⟩, _, ⟨mark, hmark, rfl⟩, rfl⟩ := Language.mem_mul.mp hfront
    obtain rfl := List.mem_singleton.mp hc
    exact ⟨mark, hmark, digits, hdigits, rfl⟩
  · rintro ⟨mark, hmark, digits, hdigits, rfl⟩
    refine Language.mem_mul.mpr ⟨['0', mark], ?_, digits, hdigits, rfl⟩
    exact Language.mem_mul.mpr ⟨['0'], ⟨'0', .head _, rfl⟩, [mark], ⟨mark, hmark, rfl⟩, rfl⟩

theorem mem_exponents :
    text ∈ exponents ↔ ∃ mark ∈ ['e', 'E'], ∃ plus, (plus = [] ∨ plus = ['+'] ∨ plus = ['-']) ∧
      ∃ digits ∈ run isDigit, text = mark :: (plus ++ digits) := by
  constructor
  · intro h
    obtain ⟨_, hfront, digits, hdigits, rfl⟩ := Language.mem_mul.mp h
    obtain ⟨_, ⟨mark, hmark, rfl⟩, plus, hplus, rfl⟩ := Language.mem_mul.mp hfront
    refine ⟨mark, hmark, plus, ?_, digits, hdigits, rfl⟩
    rcases (Language.mem_add _ _ _).mp hplus with hnil | ⟨c, hc, rfl⟩
    · exact .inl ((Language.mem_one _).mp hnil)
    · simpa using hc
  · rintro ⟨mark, hmark, plus, hplus, digits, hdigits, rfl⟩
    refine Language.mem_mul.mpr ⟨mark :: plus, ?_, digits, hdigits, rfl⟩
    refine Language.mem_mul.mpr ⟨[mark], ⟨mark, hmark, rfl⟩, plus, ?_, rfl⟩
    refine (Language.mem_add _ _ _).mpr ?_
    rcases hplus with rfl | rfl | rfl
    · exact .inl Language.nil_mem_one
    · exact .inr ⟨'+', by simp, rfl⟩
    · exact .inr ⟨'-', by simp, rfl⟩

end Words

section Longest

variable {text : List Char}

-- A run is as long as its class goes.
theorem longest_run {p : Char → Bool} (h : text.head?.any p = true) :
    IsLongest (run p) text (text.takeWhile p) := by
  refine ⟨⟨?_, List.all_takeWhile⟩, List.takeWhile_prefix p, ?_⟩
  · intro hnil
    cases text with
    | nil => cases h
    | cons c text =>
        have hc : p c = true := by simpa using h
        simp [hc] at hnil
  · rintro other ⟨-, hall⟩ ⟨rest, rfl⟩
    rw [List.takeWhile_append_of_pos (List.all_eq_true.mp hall)]
    exact (List.prefix_append other _).length_le

theorem longest_fraction (text : List Char) : IsLongest (1 + fractions) text (fraction text) := by
  refine .one_add ?_ (isPrefix_fraction text) ?_
  · unfold fraction
    split
    · rename_i rest
      dsimp only
      split
      · exact .inl Language.nil_mem_one
      · rename_i hdigits
        refine .inr (mem_fractions.mpr ⟨_, ⟨?_, List.all_takeWhile⟩, rfl⟩)
        simpa using hdigits
    · exact .inl Language.nil_mem_one
  · rintro other hother ⟨rest, rfl⟩
    obtain ⟨digits, ⟨hne, hall⟩, rfl⟩ := mem_fractions.mp hother
    have htake : (digits ++ rest).takeWhile isDigit = digits ++ rest.takeWhile isDigit :=
      List.takeWhile_append_of_pos (List.all_eq_true.mp hall)
    simp [fraction, htake, hne]

theorem fraction_ne_nil_iff :
    fraction text ≠ [] ↔ ∃ digit rest, text = '.' :: digit :: rest ∧ isDigit digit = true := by
  constructor
  · intro h
    obtain ⟨digits, hdigits, hfraction⟩ := mem_fractions.mp
      (((Language.mem_add _ _ _).mp (longest_fraction text).mem).resolve_left fun hnil =>
        h ((Language.mem_one _).mp hnil))
    obtain ⟨rest, hrest⟩ := isPrefix_fraction text
    cases digits with
    | nil => exact absurd rfl hdigits.1
    | cons digit digits =>
        rw [hfraction] at hrest
        exact ⟨digit, digits ++ rest, hrest.symm, (mem_run_cons.mp hdigits).1⟩
  · rintro ⟨digit, rest, rfl, hdigit⟩
    simp [fraction, hdigit]

theorem sign_digits {plus digits rest : List Char} (hplus : plus = [] ∨ plus = ['+'] ∨ plus = ['-'])
    (hdigits : digits ∈ run isDigit) : sign (plus ++ digits ++ rest) = plus := by
  obtain ⟨hne, hall⟩ := hdigits
  rcases hplus with rfl | rfl | rfl
  · cases digits with
    | nil => exact absurd rfl hne
    | cons d digits =>
        have hd : isDigit d = true := by simp_all
        have hp : d ≠ '+' := ne_of_test hd (by decide)
        have hm : d ≠ '-' := ne_of_test hd (by decide)
        simp [sign, hp, hm]
  · rfl
  · rfl

theorem longest_exponent (text : List Char) : IsLongest (1 + exponents) text (exponent text) := by
  refine .one_add ?_ (isPrefix_exponent text) ?_
  · unfold exponent
    split
    · rename_i mark rest
      split
      · rename_i hmark
        dsimp only
        split
        · exact .inl Language.nil_mem_one
        · rename_i hdigits
          refine .inr (mem_exponents.mpr ⟨mark, by simpa using hmark, sign rest, ?_,
            _, ⟨?_, List.all_takeWhile⟩, rfl⟩)
          · unfold sign
            split <;> simp
          · simpa using hdigits
      · exact .inl Language.nil_mem_one
    · exact .inl Language.nil_mem_one
  · rintro other hother ⟨rest, rfl⟩
    obtain ⟨mark, hmark, plus, hplus, digits, hdigits, rfl⟩ := mem_exponents.mp hother
    have hsign : sign (plus ++ digits ++ rest) = plus := sign_digits hplus hdigits
    obtain ⟨hne, hall⟩ := hdigits
    have htake : (digits ++ rest).takeWhile isDigit = digits ++ rest.takeWhile isDigit :=
      List.takeWhile_append_of_pos (List.all_eq_true.mp hall)
    have hdrop : (plus ++ digits ++ rest).drop plus.length = digits ++ rest := by
      rw [List.append_assoc, List.drop_left]
    have hmark : (mark == 'e' || mark == 'E') = true := by simpa using hmark
    simp only [List.cons_append, exponent, hmark, if_true, hsign, hdrop, htake]
    simp [hne]

theorem exists_hexadecimal (h : OpensHexadecimal text) :
    ∃ literal, hexadecimal? text = some literal ∧ IsLongest hexadecimals text literal := by
  obtain ⟨mark, hmark, digit, hdigit, rest, rfl⟩ := h
  have hrun : IsLongest (run isHexDigit) (digit :: rest) _ := longest_run (by simpa using hdigit)
  refine ⟨'0' :: mark :: (digit :: rest).takeWhile isHexDigit, ?_, ?_⟩
  · have hmark : (mark == 'x' || mark == 'X') = true := by simpa using hmark
    simp [hexadecimal?, hmark, hdigit]
  · refine ⟨mem_hexadecimals.mpr ⟨mark, hmark, _, hrun.mem, rfl⟩, ?_, ?_⟩
    · simpa using hrun.isPrefix
    · intro other hother hstarts
      obtain ⟨otherMark, -, digits, hdigits, rfl⟩ := mem_hexadecimals.mp hother
      have hdigits := hrun.longest digits hdigits
        (List.cons_prefix_cons.mp (List.cons_prefix_cons.mp hstarts).2).2
      simpa using hdigits

theorem hexadecimal_eq_none (h : ¬ OpensHexadecimal text) : hexadecimal? text = none := by
  unfold hexadecimal?
  split
  · rename_i mark rest
    dsimp only
    rw [if_neg]
    intro hopens
    simp only [Bool.and_eq_true, Bool.not_eq_true', List.isEmpty_eq_false_iff] at hopens
    cases rest with
    | nil => exact hopens.2 rfl
    | cons digit rest =>
        have hdigit : isHexDigit digit = true := by
          by_contra hnot
          exact hopens.2 (by simp [hnot])
        exact h ⟨mark, by simpa using hopens.1, digit, hdigit, rest, rfl⟩
  · rfl

-- The characters of a number without an exponent.
def isPlain (c : Char) : Bool := isDigit c || c == '.'

theorem all_isPlain_of_fraction (h : text ∈ fractions) : text.all isPlain = true := by
  obtain ⟨digits, ⟨-, hall⟩, rfl⟩ := mem_fractions.mp h
  rw [List.all_cons, Bool.and_eq_true]
  refine ⟨by decide, List.all_eq_true.mpr fun c hc => ?_⟩
  simp [isPlain, List.all_eq_true.mp hall c hc]

theorem all_isPlain (h : text ∈ run isDigit * (1 + fractions)) : text.all isPlain = true := by
  obtain ⟨whole, ⟨-, hall⟩, part, hpart, rfl⟩ := Language.mem_mul.mp h
  rw [List.all_append, Bool.and_eq_true]
  refine ⟨List.all_eq_true.mpr fun c hc => ?_, ?_⟩
  · simp [isPlain, List.all_eq_true.mp hall c hc]
  · rcases (Language.mem_add _ _ _).mp hpart with hnil | hpart
    · rw [(Language.mem_one _).mp hnil]
      rfl
    · exact all_isPlain_of_fraction hpart

theorem head_fraction (h : text ∈ 1 + fractions) : text.head?.any isDigit = false := by
  rcases (Language.mem_add _ _ _).mp h with hnil | hpart
  · rw [(Language.mem_one _).mp hnil]
    rfl
  · obtain ⟨digits, -, rfl⟩ := mem_fractions.mp hpart
    rfl

theorem head_exponent (h : text ∈ 1 + exponents) : text.head?.any isPlain = false := by
  rcases (Language.mem_add _ _ _).mp h with hnil | hexponent
  · rw [(Language.mem_one _).mp hnil]
    rfl
  · obtain ⟨mark, hmark, plus, -, digits, -, rfl⟩ := mem_exponents.mp hexponent
    rcases mem_pair.mp hmark with rfl | rfl <;> rfl

-- A text that starts with a digit, cut up into the digits, the fraction and the exponent that it
-- starts with and what follows them.
structure Cut (text whole part power behind : List Char) : Prop where
  eq : text = whole ++ part ++ power ++ behind
  digits : IsLongest (run isDigit) text whole
  takeWhile_eq : text.takeWhile isDigit = whole
  fraction_eq : fraction (part ++ power ++ behind) = part
  exponent_eq : exponent (power ++ behind) = power

theorem exists_cut (hdigit : text.head?.any isDigit = true) :
    ∃ whole part power behind, Cut text whole part power behind := by
  have hwhole := longest_run hdigit
  obtain ⟨rest, hrest⟩ := hwhole.isPrefix
  obtain ⟨tail, htail⟩ := isPrefix_fraction rest
  obtain ⟨behind, hbehind⟩ := isPrefix_exponent tail
  refine ⟨_, fraction rest, exponent tail, behind, ?_, hwhole, rfl, ?_, ?_⟩
  · rw [List.append_assoc, hbehind, List.append_assoc, htail, hrest]
  · rw [List.append_assoc, hbehind, htail]
  · rw [hbehind]

namespace Cut

variable {text whole part power behind : List Char}

theorem longest (h : Cut text whole part power behind) :
    IsLongest decimals text (whole ++ part ++ power) := by
  have hfront : IsLongest (run isDigit) (whole ++ (part ++ power ++ behind)) whole := by
    simpa [h.eq] using h.digits
  have hmiddle : IsLongest (1 + fractions) (part ++ power ++ behind) part := by
    simpa only [h.fraction_eq] using longest_fraction (part ++ power ++ behind)
  have hlast : IsLongest (1 + exponents) (power ++ behind) power := by
    simpa only [h.exponent_eq] using longest_exponent (power ++ behind)
  have hmantissa := hfront.append hmiddle (fun _ ha => ha.2) fun _ hb => head_fraction hb
  have hregroup : whole ++ (part ++ power ++ behind) = whole ++ part ++ (power ++ behind) := by
    simp
  rw [hregroup] at hmantissa
  rw [h.eq, List.append_assoc (whole ++ part)]
  exact hmantissa.append hlast (fun _ ha => all_isPlain ha) fun _ hb => head_exponent hb

theorem read_eq (h : Cut text whole part power behind) (hnone : hexadecimal? text = none) :
    read text =
      if !part.isEmpty && !(fraction (power ++ behind)).isEmpty then
        .error (String.ofList (whole ++ part ++ '.' ::
          ((power ++ behind).drop 1).takeWhile isWordChar))
      else finish (whole ++ part ++ power) text := by
  have hrest : text.drop whole.length = part ++ power ++ behind := by
    rw [h.eq, List.append_assoc, List.append_assoc, List.drop_left, List.append_assoc]
  have htail : text.drop (whole ++ part).length = power ++ behind := by
    rw [h.eq, List.append_assoc (whole ++ part), List.drop_left]
  unfold read
  rw [hnone]
  dsimp only
  rw [h.takeWhile_eq, hrest, h.fraction_eq, htail, h.exponent_eq]

theorem part_mem (h : Cut text whole part power behind) : part ∈ 1 + fractions := by
  simpa only [h.fraction_eq] using (longest_fraction (part ++ power ++ behind)).mem

theorem power_mem (h : Cut text whole part power behind) : power ∈ 1 + exponents := by
  simpa only [h.exponent_eq] using (longest_exponent (power ++ behind)).mem

-- A second fraction stands behind the first one exactly if there is no exponent and a point and a
-- digit follow.
theorem second_fraction_iff (h : Cut text whole part power behind) :
    part ≠ [] ∧ fraction (power ++ behind) ≠ [] ↔
      whole ++ part ++ power ∈ run isDigit * fractions ∧
        ∃ digit rest, behind = '.' :: digit :: rest ∧ isDigit digit = true := by
  constructor
  · rintro ⟨hpart, hsecond⟩
    obtain ⟨digit, rest, hrest, hdigit⟩ := fraction_ne_nil_iff.mp hsecond
    have hpower : power = [] := by
      rw [← h.exponent_eq, hrest]
      rfl
    subst hpower
    have hmem : part ∈ fractions :=
      ((Language.mem_add _ _ _).mp h.part_mem).resolve_left fun hnil =>
        hpart ((Language.mem_one _).mp hnil)
    rw [List.append_nil]
    exact ⟨Language.append_mem_mul h.digits.mem hmem, digit, rest, hrest, hdigit⟩
  · rintro ⟨hmem, digit, rest, rfl, hdigit⟩
    obtain ⟨digits, hdigits, second, hsecond, heq⟩ := Language.mem_mul.mp hmem
    have hplain : (whole ++ part ++ power).all isPlain = true :=
      heq ▸ all_isPlain (Language.append_mem_mul hdigits (.inr hsecond))
    have hpower : power = [] := by
      have hhead := head_exponent h.power_mem
      cases power with
      | nil => rfl
      | cons c power => simp_all
    subst hpower
    refine ⟨?_, fraction_ne_nil_iff.mpr ⟨digit, rest, rfl, hdigit⟩⟩
    rintro rfl
    obtain ⟨tail, -, rfl⟩ := mem_fractions.mp hsecond
    have hpoint : '.' ∈ whole := by
      rw [List.append_nil, List.append_nil] at heq
      simp [← heq]
    exact absurd (List.all_eq_true.mp h.digits.mem.2 _ hpoint) (by decide)

end Cut

theorem finish_append_eq (literal behind : List Char) :
    finish literal (literal ++ behind) =
      if behind.head?.any isLetter then
        .error (String.ofList (literal ++ behind.takeWhile isWordChar))
      else .ok literal := by
  simp [finish]

end Longest

section Reading

variable {literal text : List Char}

theorem not_mem_mantissas (h : literal ∈ hexadecimals) : literal ∉ run isDigit * fractions := by
  intro hmem
  obtain ⟨digits, hdigits, part, hpart, heq⟩ := Language.mem_mul.mp hmem
  have hplain : literal.all isPlain = true :=
    heq ▸ all_isPlain (Language.append_mem_mul hdigits (.inr hpart))
  obtain ⟨mark, hmark, tail, -, rfl⟩ := mem_hexadecimals.mp h
  simp only [List.mem_cons, List.not_mem_nil, or_false] at hmark
  have hnot : isPlain mark = false := by rcases hmark with rfl | rfl <;> rfl
  simp [hnot] at hplain

-- What is read of a text that starts with a digit is its literal, unless that runs on.
theorem exists_numeral (hdigit : text.head?.any isDigit = true) :
    ∃ literal behind, text = literal ++ behind ∧ IsNumeral text literal ∧
      (¬ RunsOn literal behind → read text = .ok literal) ∧
      (RunsOn literal behind → ∃ offending, read text = .error offending) := by
  by_cases hopens : OpensHexadecimal text
  · obtain ⟨literal, hsome, hlongest⟩ := exists_hexadecimal hopens
    obtain ⟨behind, rfl⟩ := hlongest.isPrefix
    refine ⟨literal, behind, rfl, ⟨fun _ => hlongest, (absurd hopens ·)⟩, ?_⟩
    have hread : read (literal ++ behind) = finish literal (literal ++ behind) := by
      rw [read, hsome]
    have hruns : RunsOn literal behind ↔ behind.head?.any isLetter = true :=
      or_iff_left fun h => not_mem_mantissas hlongest.mem h.1
    rw [hread, finish_append_eq, hruns]
    split <;> simp_all
  · obtain ⟨whole, part, power, behind, hcut⟩ := exists_cut hdigit
    refine ⟨_, behind, hcut.eq, ⟨(absurd · hopens), fun _ => hcut.longest⟩, ?_⟩
    rw [hcut.read_eq (hexadecimal_eq_none hopens), RunsOn, ← hcut.second_fraction_iff, hcut.eq,
      finish_append_eq]
    split
    · rename_i hsecond
      simp_all
    · rename_i hsecond
      split <;> simp_all

theorem IsNumeral.unique {other : List Char} (h : IsNumeral text literal)
    (hother : IsNumeral text other) : other = literal := by
  by_cases hopens : OpensHexadecimal text
  · exact (h.1 hopens).unique (hother.1 hopens)
  · exact (h.2 hopens).unique (hother.2 hopens)

-- A literal is a literal without what follows it too.
theorem IsNumeral.alone (h : IsNumeral text literal) : IsNumeral literal literal := by
  by_cases hopens : OpensHexadecimal text
  · have hmem := (h.1 hopens).mem
    refine ⟨fun _ => .self hmem, fun hnot => absurd ?_ hnot⟩
    obtain ⟨mark, hmark, digits, hdigits, rfl⟩ := mem_hexadecimals.mp hmem
    cases digits with
    | nil => exact absurd rfl hdigits.1
    | cons digit digits => exact ⟨mark, hmark, digit, (mem_run_cons.mp hdigits).1, digits, rfl⟩
  · have hlongest := h.2 hopens
    refine ⟨fun hhere => absurd ?_ hopens, fun _ => .self hlongest.mem⟩
    obtain ⟨mark, hmark, digit, hdigit, hstarts⟩ := hhere
    exact ⟨mark, hmark, digit, hdigit, hstarts.trans hlongest.isPrefix⟩

-- What is read of a text is read of itself.
theorem read_alone (hdigit : text.head?.any isDigit = true) (hread : read text = .ok literal) :
    literal.head?.any isDigit = true ∧ read literal = .ok literal := by
  have hhead : literal.head?.any isDigit = true := by
    obtain ⟨rest, rfl⟩ := isPrefix_read hread
    cases literal with
    | nil =>
        cases rest with
        | nil => cases hdigit
        | cons c rest => exact absurd rfl (read_ne_nil (by simpa using hdigit) hread)
    | cons c literal => simpa using hdigit
  refine ⟨hhead, ?_⟩
  obtain ⟨found, behind, -, hnumeral, hok, herror⟩ := exists_numeral hdigit
  have hnot : ¬ RunsOn found behind := by
    intro hruns
    obtain ⟨offending, hfailed⟩ := herror hruns
    rw [hread] at hfailed
    cases hfailed
  obtain rfl : literal = found := by
    rw [hok hnot] at hread
    cases hread
    rfl
  obtain ⟨again, rest, hrest, hagain, hok, -⟩ := exists_numeral hhead
  obtain rfl := hnumeral.alone.unique hagain
  obtain rfl : rest = [] := by simpa using hrest
  exact hok (by simp [RunsOn])

end Reading

end Number

theorem exists_cons_of_head {p : Char → Bool} {text : List Char} (h : text.head?.any p = true) :
    ∃ c rest, text = c :: rest ∧ p c = true := by
  cases text with
  | nil => cases h
  | cons c rest => exact ⟨c, rest, rfl, by simpa using h⟩

namespace Piece

variable {text : List Char} {found : Piece} {lexeme : String}

theorem number_of_read {literal : List Char} (h : Number.read text = .ok literal) :
    number text = .ok ⟨literal, some (.number, String.ofList literal)⟩ := by
  rw [number, h]

theorem number_of_refused {offending : String} (h : Number.read text = .error offending) :
    number text = .error (.invalidNumber offending) := by
  rw [number, h]

theorem read_of_number (h : number text = .ok found)
    (htoken : found.token = some (.number, lexeme)) : Number.read text = .ok lexeme.toList := by
  unfold number at h
  split at h
  · cases h
  · rename_i literal hread
    cases h
    cases htoken
    rw [String.toList_ofList, hread]

theorem quoted_ne_number {kind : TokenKind} {cause : Cause} {opening : List Char} {quote : Char}
    (h : quoted kind cause opening quote text = .ok found) (hkind : kind ≠ .number) :
    found.token ≠ some (.number, lexeme) := by
  unfold quoted at h
  split at h <;> cases h
  simp [hkind]

theorem word_ne_number (keywords : List String) (isPart : Char → Bool) :
    (word keywords isPart text).token ≠ some (.number, lexeme) := by
  simp only [word]
  split <;> simp

theorem operator_ne_number {operators : List String} {c : Char}
    (h : operator operators c text = .ok found) : found.token ≠ some (.number, lexeme) := by
  unfold operator at h
  split at h <;> cases h
  simp

end Piece

namespace Braced

-- A number is cut off, and what follows it is lexed behind it.
theorem lex_of_read {literal behind : List Char}
    (hdigit : (literal ++ behind).head?.any isDigit = true)
    (hread : Number.read (literal ++ behind) = .ok literal) (pos : Pos) :
    lex ⟨pos, literal ++ behind⟩ =
      (lex ⟨pos.after literal, behind⟩).map (⟨.number, String.ofList literal, pos⟩ :: ·) := by
  obtain ⟨c, rest, hcons, hc⟩ := exists_cons_of_head hdigit
  have hpiece : piece c rest = .ok ⟨literal, some (.number, String.ofList literal)⟩ := by
    rw [piece_digit hc, ← hcons, Piece.number_of_read hread]
  have hlex : lex ⟨pos, literal ++ behind⟩ = _ := lex_eq_piece hcons hpiece
  rw [hlex, Cursor.skip_append]
  rfl

theorem lex_of_refused {text : List Char} {offending : String}
    (hdigit : text.head?.any isDigit = true) (hread : Number.read text = .error offending)
    (pos : Pos) : lex ⟨pos, text⟩ = .error ⟨.invalidNumber offending, pos⟩ := by
  obtain ⟨c, rest, rfl, hc⟩ := exists_cons_of_head hdigit
  exact lex_of_error rfl ((piece_digit hc).trans (Piece.number_of_refused hread))

-- A number is read only where a digit comes first.
theorem read_of_piece {c : Char} {rest : List Char} {found : Piece} {lexeme : String}
    (h : piece c rest = .ok found) (htoken : found.token = some (.number, lexeme)) :
    isDigit c = true ∧ Number.read (c :: rest) = .ok lexeme.toList := by
  by_cases hc : isDigit c = true
  · rw [piece_digit hc] at h
    exact ⟨hc, Piece.read_of_number h htoken⟩
  · exfalso
    unfold piece at h
    split at h
    · cases h
      cases htoken
    split at h
    · cases h
      cases htoken
    split at h
    · split at h <;> cases h
      cases htoken
    split at h
    · exact Piece.quoted_ne_number h (by decide) htoken
    split at h
    · split at h <;> cases h
      cases htoken
    split at h
    · cases h
      exact Piece.word_ne_number _ _ htoken
    · exact Piece.operator_ne_number h htoken

end Braced

namespace Indented

theorem read_of_piece {inBrackets : Bool} {c : Char} {rest : List Char} {found : Piece}
    {lexeme : String} (h : piece inBrackets c rest = .ok found)
    (htoken : found.token = some (.number, lexeme)) :
    isDigit c = true ∧ Number.read (c :: rest) = .ok lexeme.toList := by
  by_cases hc : isDigit c = true
  · rw [piece_digit hc] at h
    exact ⟨hc, Piece.read_of_number h htoken⟩
  · exfalso
    unfold piece at h
    split at h
    · cases h
      split at htoken <;> cases htoken
    split at h
    · cases h
      cases htoken
    split at h
    · cases h
      cases htoken
    split at h
    · cases h
      cases htoken
    split at h
    · exact Piece.quoted_ne_number h (by decide) htoken
    split at h
    · exact Piece.quoted_ne_number h (by decide) htoken
    split at h
    · exact Piece.quoted_ne_number h (by decide) htoken
    split at h
    · cases h
      exact Piece.word_ne_number _ _ htoken
    · exact Piece.operator_ne_number h htoken

-- A number is cut off, and what follows it is lexed behind it in the same blocks and brackets.
theorem lex_of_read {literal behind : List Char}
    (hdigit : (literal ++ behind).head?.any isDigit = true)
    (hread : Number.read (literal ++ behind) = .ok literal) (pos : Pos) (blocks : List Nat)
    (brackets : Nat) :
    lex ⟨⟨pos, literal ++ behind⟩, blocks, brackets⟩ =
      (lex ⟨⟨pos.after literal, behind⟩, blocks, brackets⟩).map
        (⟨.number, String.ofList literal, pos⟩ :: ·) := by
  obtain ⟨c, rest, hcons, hc⟩ := exists_cons_of_head hdigit
  have hpiece : piece (0 < brackets) c rest =
      .ok ⟨literal, some (.number, String.ofList literal)⟩ := by
    rw [piece_digit hc, ← hcons, Piece.number_of_read hread]
  have hlex : lex ⟨⟨pos, literal ++ behind⟩, blocks, brackets⟩ = _ :=
    lex_eq_piece hcons hpiece (by simp)
  rw [hlex, State.skip, Cursor.skip_append]
  rfl

theorem lex_of_refused {text : List Char} {offending : String}
    (hdigit : text.head?.any isDigit = true) (hread : Number.read text = .error offending)
    (pos : Pos) (blocks : List Nat) (brackets : Nat) :
    lex ⟨⟨pos, text⟩, blocks, brackets⟩ = .error ⟨.invalidNumber offending, pos⟩ := by
  obtain ⟨c, rest, rfl, hc⟩ := exists_cons_of_head hdigit
  exact lex_of_error rfl ((piece_digit hc).trans (Piece.number_of_refused hread))

end Indented

namespace Number

-- The lexeme of a number is read off some text that starts with a digit.
theorem exists_read_of_mem {dialect : Dialect} {source : String} {tokens : List Token}
    (h : tokenize dialect source = .ok tokens) {token : Token} (hmem : token ∈ tokens)
    (hkind : token.kind = .number) :
    ∃ text, text.head?.any isDigit = true ∧ read text = .ok token.lexeme.toList := by
  have htoken : ∀ {found : Piece} {pos : Pos}, token ∈ found.tokens pos →
      found.token = some (.number, token.lexeme) := by
    intro found pos hfound
    unfold Piece.tokens at hfound
    split at hfound
    · cases hfound
    · rename_i kind lexeme hsome
      obtain rfl := List.mem_singleton.mp hfound
      rw [hsome, ← hkind]
  cases dialect with
  | pythonScript =>
      obtain ⟨steps, ⟨hline, hreading⟩, rfl⟩ := Indented.tokenize_eq_ok_iff.mp h
      rw [Indented.tokens_append, Indented.tokens_opened] at hmem
      rcases List.mem_append.mp hmem with hlayout | hmem
      · rcases (Indented.opens_of_openLine hline).kind_of_mem hlayout with hother | hother
        · cases hkind.symm.trans hother
        · cases hkind.symm.trans hother
      · rcases Indented.exists_piece_of_reading hreading hmem with
          hother | ⟨_, c, rest, found, pos, hpiece, hfound⟩
        · simp [hkind] at hother
        · obtain ⟨hc, hread⟩ := Indented.read_of_piece hpiece (htoken hfound)
          exact ⟨c :: rest, by simpa using hc, hread⟩
  | javaScript =>
      rcases Braced.exists_piece_of_mem h hmem with hother | ⟨c, rest, found, pos, hpiece, hfound⟩
      · cases hkind.symm.trans hother
      · obtain ⟨hc, hread⟩ := Braced.read_of_piece hpiece (htoken hfound)
        exact ⟨c :: rest, by simpa using hc, hread⟩

-- A text that is read as a number as a whole is a single number in both notations.
theorem tokenize_of_read {lexeme : String} (hdigit : lexeme.toList.head?.any isDigit = true)
    (hread : read lexeme.toList = .ok lexeme.toList) (dialect : Dialect) :
    tokenize dialect lexeme =
      .ok [⟨.number, lexeme, .start⟩, ⟨.eof, "", Pos.behind lexeme.toList⟩] := by
  have hnumber : Piece.number lexeme.toList = .ok ⟨lexeme.toList, some (.number, lexeme)⟩ := by
    rw [Piece.number_of_read hread, String.ofList_toList]
  obtain ⟨c, rest, htext, hc⟩ := exists_cons_of_head hdigit
  cases dialect with
  | pythonScript =>
      have hne : ∀ d, isDigit d = false → c ≠ d := fun d hd => ne_of_test hc hd
      refine Indented.tokenize_of_piece htext ?_ (by decide) ?_
      · rw [Indented.piece_digit hc, ← htext, hnumber]
      · simp [hne ' ' rfl, hne '\t' rfl, hne '\n' rfl, hne '\r' rfl, hne '#' rfl]
  | javaScript =>
      refine Braced.tokenize_of_piece htext ?_
      rw [Braced.piece_digit hc, ← htext, hnumber]

-- Where a digit comes first, both notations cut off the longest literal that the grammar has, and
-- go on right behind it. They fail at its first character exactly if it runs on. Each number that
-- is found so is a number of its own in both notations.
theorem lexed_as_longest :
    (∀ (pos : Pos) (text : List Char), text.head?.any isDigit = true →
      ∃ literal behind, text = literal ++ behind ∧ IsNumeral text literal ∧
        (¬ RunsOn literal behind →
          read text = .ok literal ∧
          Braced.lex ⟨pos, text⟩ =
            (Braced.lex ⟨pos.after literal, behind⟩).map
              (⟨.number, String.ofList literal, pos⟩ :: ·) ∧
          ∀ blocks brackets, Indented.lex ⟨⟨pos, text⟩, blocks, brackets⟩ =
            (Indented.lex ⟨⟨pos.after literal, behind⟩, blocks, brackets⟩).map
              (⟨.number, String.ofList literal, pos⟩ :: ·)) ∧
        (RunsOn literal behind → ∃ offending,
          read text = .error offending ∧
          Braced.lex ⟨pos, text⟩ = .error ⟨.invalidNumber offending, pos⟩ ∧
          ∀ blocks brackets,
            Indented.lex ⟨⟨pos, text⟩, blocks, brackets⟩ = .error ⟨.invalidNumber offending, pos⟩)) ∧
    (∀ (dialect : Dialect) (source : String) (tokens : List Token),
      tokenize dialect source = .ok tokens → ∀ token ∈ tokens, token.kind = .number →
        ∀ other : Dialect, tokenize other token.lexeme =
          .ok [⟨.number, token.lexeme, .start⟩, ⟨.eof, "", Pos.behind token.lexeme.toList⟩]) := by
  constructor
  · intro pos text hdigit
    obtain ⟨literal, behind, htext, hnumeral, hok, herror⟩ := exists_numeral hdigit
    subst htext
    refine ⟨literal, behind, rfl, hnumeral, fun hnot => ?_, fun hruns => ?_⟩
    · have hread := hok hnot
      exact ⟨hread, Braced.lex_of_read hdigit hread pos, Indented.lex_of_read hdigit hread pos⟩
    · obtain ⟨offending, hread⟩ := herror hruns
      exact ⟨offending, hread, Braced.lex_of_refused hdigit hread pos,
        Indented.lex_of_refused hdigit hread pos⟩
  · intro dialect source tokens h token hmem hkind other
    obtain ⟨text, hdigit, hread⟩ := exists_read_of_mem h hmem hkind
    obtain ⟨hhead, halone⟩ := read_alone hdigit hread
    exact tokenize_of_read hhead halone other

-- A point behind an exponent ends the literal and one behind a fraction is refused.
theorem lexed_as_longest_points :
    IsNumeral "1.5e3.2".toList "1.5e3".toList ∧
      Braced.lex ⟨⟨2, 5⟩, "1.5e3.2".toList⟩ =
        (Braced.lex ⟨⟨2, 10⟩, ".2".toList⟩).map (⟨.number, "1.5e3", ⟨2, 5⟩⟩ :: ·) ∧
      (∃ offending, Indented.lex ⟨⟨⟨2, 5⟩, "1.2.3".toList⟩, [4], 0⟩ =
        .error ⟨.invalidNumber offending, ⟨2, 5⟩⟩) ∧
      tokenize .pythonScript "0x1F" = .ok [⟨.number, "0x1F", .start⟩, ⟨.eof, "", ⟨1, 5⟩⟩] := by
  obtain ⟨literal, behind, htext, hnumeral, hok, herror⟩ :=
    lexed_as_longest.1 ⟨2, 5⟩ "1.5e3.2".toList (by decide)
  have hread : read "1.5e3.2".toList = .ok "1.5e3".toList := rfl
  have hnot : ¬ RunsOn literal behind := by
    intro hruns
    obtain ⟨offending, hfailed, -⟩ := herror hruns
    cases hread.symm.trans hfailed
  obtain ⟨hagain, hlex, -⟩ := hok hnot
  cases hread.symm.trans hagain
  have hcut : "1.5e3".toList ++ ".2".toList = "1.5e3".toList ++ behind := htext
  obtain rfl := List.append_cancel_left hcut
  refine ⟨hnumeral, hlex, ?_, ?_⟩
  · obtain ⟨literal, behind, -, -, hok, herror⟩ :=
      lexed_as_longest.1 ⟨2, 5⟩ "1.2.3".toList (by decide)
    have hrefused : read "1.2.3".toList = .error "1.2.3" := rfl
    by_cases hruns : RunsOn literal behind
    · obtain ⟨offending, -, -, hlex⟩ := herror hruns
      exact ⟨offending, hlex [4] 0⟩
    · cases hrefused.symm.trans (hok hruns).1
  · have hfound : (tokenize .javaScript "x+0x1F").toOption =
        some [⟨.identifier, "x", ⟨1, 1⟩⟩, ⟨.operator, "+", ⟨1, 2⟩⟩, ⟨.number, "0x1F", ⟨1, 3⟩⟩,
          ⟨.eof, "", ⟨1, 7⟩⟩] := by decide +kernel
    cases htokens : tokenize .javaScript "x+0x1F" with
    | error failure =>
        rw [htokens] at hfound
        cases hfound
    | ok tokens =>
        rw [htokens] at hfound
        cases hfound
        exact lexed_as_longest.2 .javaScript "x+0x1F" _ htokens ⟨.number, "0x1F", ⟨1, 3⟩⟩
          (by simp) rfl .pythonScript

end Number

end Diglot
