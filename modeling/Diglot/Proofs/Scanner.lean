import Diglot.Proofs.Parser.Ahead

namespace Diglot

open Token (op)

-- A list of texts with commas and blanks between them.
def commaTexts (texts : List (List Char)) : List Char := [',', ' '].intercalate texts

theorem commaTexts_singleton (text : List Char) : commaTexts [text] = text :=
  List.intercalate_singleton

theorem commaTexts_cons_cons (first second : List Char) (others : List (List Char)) :
    commaTexts (first :: second :: others) =
      first ++ ',' :: ' ' :: commaTexts (second :: others) := by
  rw [commaTexts, List.intercalate_cons_cons, List.append_assoc, commaTexts]
  rfl

theorem Piece.placeless_tokens (found : Piece) (pos : Pos) :
    placeless (found.tokens pos) = found.tokens .start := by
  unfold Piece.tokens
  split <;> rfl

-- What the lexers of both notations do alike.
structure Scanner where
  -- What a lexer keeps in mind between two pieces, and what it has in mind inside a bracket.
  State : Type
  inner : State → State
  -- The tokens that a text is made into.
  lexes : State → List Char → List Token → Prop
  -- Texts that do not carry on the word or the literal in front of them.
  ends : List Char → Prop
  blank : ∀ {state rest tokens}, lexes state rest tokens → lexes state (' ' :: rest) tokens
  opening : ∀ {state rest tokens} (c : Char), c ∈ ['(', '[', '{'] → lexes (inner state) rest tokens →
    lexes state (c :: rest) (op (String.ofList [c]) :: tokens)
  closing : ∀ {state rest tokens} (c : Char), c ∈ [')', ']', '}'] → lexes state rest tokens →
    lexes (inner state) (c :: rest) (op (String.ofList [c]) :: tokens)
  mark : ∀ {state rest tokens} (c : Char), c ∈ [',', ':'] → lexes state rest tokens →
    lexes state (c :: rest) (op (String.ofList [c]) :: tokens)
  ends_cons : ∀ {c : Char}, c ∈ [' ', ',', ':', '(', '[', ')', ']', '}'] → ∀ rest, ends (c :: rest)

namespace Scanner

variable (s : Scanner)

-- A text is made into the given tokens in front of all that ends it.
def LexesAs (text : List Char) (tokens : List Token) : Prop :=
  ∀ ⦃state rest more⦄, s.ends rest → s.lexes state rest more →
    s.lexes state (text ++ rest) (tokens ++ more)

-- A text is made into one token in front of a blank.
def Joins (text : List Char) (token : Token) : Prop :=
  ∀ ⦃state rest more⦄, s.lexes state rest more →
    s.lexes state (text ++ ' ' :: rest) (token :: more)

variable {s} {text more : List Char} {tokens others : List Token}

theorem lexesAs_nil : s.LexesAs [] [] := fun _ _ _ _ hlexes => hlexes

theorem LexesAs.append (h : s.LexesAs text tokens) (hmore : s.LexesAs more others)
    (hends : ∀ rest, s.ends rest → s.ends (more ++ rest)) :
    s.LexesAs (text ++ more) (tokens ++ others) := by
  intro state rest behind hrest hlexes
  simpa using h (hends rest hrest) (hmore hrest hlexes)

theorem LexesAs.blank (h : s.LexesAs text tokens) : s.LexesAs (' ' :: text) tokens :=
  fun _ _ _ hrest hlexes => s.blank (h hrest hlexes)

theorem LexesAs.mark (h : s.LexesAs text tokens) (c : Char) (hc : c ∈ [',', ':']) :
    s.LexesAs (c :: text) (op (String.ofList [c]) :: tokens) :=
  fun _ _ _ hrest hlexes => s.mark c hc (h hrest hlexes)

-- Two texts with something between them that has blanks around it.
theorem LexesAs.join (h : s.LexesAs text tokens) (hmore : s.LexesAs more others)
    {joint : List Char} {token : Token} (hjoint : s.Joins joint token) :
    s.LexesAs (text ++ ' ' :: (joint ++ ' ' :: more)) (tokens ++ token :: others) := by
  intro state rest behind hrest hlexes
  have hright := s.blank (hjoint (hmore hrest hlexes))
  simpa using h (s.ends_cons (by decide) _) hright

-- What stands in brackets.
theorem LexesAs.enclosed (h : s.LexesAs text tokens) (opening closing : Char)
    (hopening : opening ∈ ['(', '[', '{']) (hclosing : closing ∈ [')', ']', '}']) :
    s.LexesAs (opening :: (text ++ [closing]))
      (op (String.ofList [opening]) :: (tokens ++ [op (String.ofList [closing])])) := by
  intro state rest behind hrest hlexes
  have hends : s.ends (closing :: rest) :=
    s.ends_cons (List.mem_append_right [' ', ',', ':', '(', '['] hclosing) rest
  have hinner := h hends (s.closing closing hclosing hlexes)
  simpa using s.opening opening hopening hinner

theorem lexesAs_commas {π : Type} {parts : List π} {spelled : π → List Char}
    {meant : π → List Token} (h : ∀ part ∈ parts, s.LexesAs (spelled part) (meant part)) :
    s.LexesAs (commaTexts (parts.map spelled)) (Parser.commas (parts.map meant)) := by
  induction parts with
  | nil => exact lexesAs_nil
  | cons first others ih =>
      obtain ⟨hfirst, hothers⟩ := List.forall_mem_cons.mp h
      cases others with
      | nil => simpa only [List.map_cons, List.map_nil, commaTexts_singleton,
          Parser.commas_singleton] using hfirst
      | cons second others =>
          intro state rest behind hrest hlexes
          have hmore := s.mark ',' (by decide) (s.blank (ih hothers hrest hlexes))
          simp only [List.map_cons, commaTexts_cons_cons, Parser.commas_cons_cons,
            List.append_assoc, List.cons_append] at hmore ⊢
          exact hfirst (s.ends_cons (by decide) _) hmore

end Scanner

theorem Phrase.toList_listed (opening closing : String) (phrases : List Phrase) :
    (listed opening phrases closing).text.toList =
      opening.toList ++ (commaTexts (phrases.map (·.text.toList)) ++ closing.toList) := by
  have hcomma : ", ".toList = [',', ' '] := rfl
  simp only [listed, String.toList_append, String.toList_intercalate, List.map_map, hcomma,
    List.append_assoc, commaTexts, Function.comp_def]

namespace Fragment

-- The text of some lines, so many levels further in.
def textAt (width depth : Nat) (fragment : Fragment) : List Char :=
  fragment.lines.flatMap fun line =>
    List.replicate ((depth + line.depth) * width) ' ' ++ (line.text.toList ++ ['\n'])

variable {width depth : Nat} {first second : Fragment} {phrase : Phrase}

theorem textAt_append :
    textAt width depth (first ++ second) =
      textAt width depth first ++ textAt width depth second := by
  simp [textAt]

theorem textAt_indent : textAt width depth first.indent = textAt width (depth + 1) first := by
  simp [textAt, Fragment.indent, List.flatMap_map, Nat.add_assoc, Nat.add_comm 1]

theorem textAt_phrase : textAt width depth (.phrase phrase) =
    List.replicate (depth * width) ' ' ++ (phrase.text.toList ++ ['\n']) := by
  simp [textAt, Fragment.phrase]

theorem toList_render : (first.render width).toList = textAt width 0 first := by
  have hunit : ∀ depth, (List.replicate depth (String.ofList (List.replicate width ' '))).flatMap
      String.toList = List.replicate (depth * width) ' ' := by
    intro depth
    simp [List.flatMap]
  have hfeed : "\n".toList = ['\n'] := rfl
  simp only [Fragment.render, Line.render, String.toList_join, textAt, List.flatMap_map,
    String.toList_append, hunit, hfeed, Nat.zero_add, List.append_assoc]

end Fragment

end Diglot
