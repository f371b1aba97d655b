import Diglot.Proofs.Embedding
import Diglot.Proofs.Idioms
import Diglot.Proofs.Parser.Statements
import Diglot.Proofs.Termination

namespace Diglot

variable {name : String} {found : Expr}

-- Interpolated text on its way through both notations: what one writer escapes, the lexer and the
-- splitter of the notation read back, also where a text and an expression meet.

theorem inert_of_isName (h : Braced.isName name = true) :
    name.toList ≠ [] ∧ ∀ c ∈ name.toList, isInert c = true := by
  have hword := (Bool.and_eq_true_iff.mp h).1
  simp only [Braced.isWord, Bool.and_eq_true, List.all_eq_true] at hword
  refine ⟨?_, fun c hc => isInert_of_isWordPart (hword.2 c hc)⟩
  intro hnil
  simp [hnil] at hword

theorem compact_of_isName (h : Braced.isName name = true) : Embedding.Compact name.toList :=
  Embedding.compact_of_inert (inert_of_isName h).1 (inert_of_isName h).2

-- What an expression is without its places says what it is with them.

theorem Expr.exists_of_placeless_var (h : placeless found = .var name .start) :
    ∃ pos, found = .var name pos := by
  cases found with
  | var other pos =>
      cases h
      exact ⟨pos, rfl⟩
  | _ => simp [Expr.placeless] at h

theorem Expr.exists_of_placeless_template {raw : String}
    (h : placeless found = .template raw .start) : ∃ pos, found = .template raw pos := by
  cases found with
  | template other pos =>
      cases h
      exact ⟨pos, rfl⟩
  | _ => simp [Expr.placeless] at h

theorem Expr.exists_of_placeless_interpolated {expected : List (Segment Expr)}
    (h : placeless found = .interpolated expected .start) :
    ∃ segments pos, found = .interpolated segments pos ∧ segmentsPlaceless segments = expected := by
  cases found with
  | interpolated segments pos =>
      cases h
      exact ⟨segments, pos, rfl, rfl⟩
  | _ => simp [Expr.placeless] at h

namespace Segment

-- Whether a segment is a text or a name of both notations.
def isNamed : Segment Expr → Bool
  | text _ => true
  | expr e => e.var?.isSome && e.isPortable

theorem exists_of_isNamed {e : Expr} (h : isNamed (.expr e) = true) :
    ∃ name pos, e = .var name pos ∧ Indented.isName name = true ∧ Braced.isName name = true := by
  cases e with
  | var name pos =>
      have hspelled : Braced.isSpelled (.var name pos) = true :=
        isSpelled_of_isPortable _ (by simpa [isNamed, Expr.var?] using h)
      simp only [isNamed, Expr.isPortable, Bool.and_eq_true] at h
      exact ⟨name, pos, rfl, h.2.1, hspelled⟩
  | _ => simp [isNamed, Expr.var?] at h

-- What the characters of a text are put in front of does not start with a text.
theorem foldr_consChar {segments : List (Segment Expr)} (h : segments.head?.any isText = false) :
    ∀ {chars : List Char}, chars ≠ [] →
      chars.foldr consChar segments = .text (String.ofList chars) :: segments
  | [c], _ => by
      cases segments with
      | nil => rfl
      | cons first rest =>
          cases first with
          | text value => simp [isText] at h
          | expr value => rfl
  | c :: d :: chars, _ => by
      rw [List.foldr_cons, foldr_consChar h (List.cons_ne_nil d chars), consChar,
        ← String.ofList_cons]

theorem head?_segmentsPlaceless (segments : List (Segment Expr)) :
    (segmentsPlaceless segments).head?.any isText = segments.head?.any isText := by
  cases segments with
  | nil => rfl
  | cons first rest => cases first <;> rfl

end Segment

namespace Braced

open Diglot.Parser TokenStream

section Writing

-- How a segment of an interpolated text is written between backticks.
def segmentText : Segment Expr → List Char
  | .text value => templateText value.toList
  | .expr value => '$' :: '{' :: ((writeExpr false value).toList ++ ['}'])

theorem toList_writeSegments (segments : List (Segment Expr)) :
    (String.join (writeSegments false segments)).toList = segments.flatMap segmentText := by
  induction segments with
  | nil => rfl
  | cons first rest ih =>
      rw [String.toList_join] at ih ⊢
      cases first <;> simp [writeSegments, segmentText, ih]

theorem toList_writeExpr_interpolated (segments : List (Segment Expr)) (pos : Pos) :
    (writeExpr false (.interpolated segments pos)).toList =
      '`' :: (segments.flatMap segmentText ++ ['`']) := by
  rw [writeExpr, String.toList_append, String.toList_append, toList_writeSegments]
  rfl

end Writing

section Lexing

-- No backtick of a text closes it.
theorem template_templateText (text rest : List Char) :
    Quoted.template (templateText text ++ rest) =
      (Quoted.template rest).map (templateText text ++ ·) := by
  fun_induction templateText text with
  | case1 => simp
  | case2 text ih | case3 text ih | case4 text ih | case5 text ih | case6 text _ ih =>
      simp [Quoted.template, ih, Function.comp_def]
  | case7 text _ ih =>
      have hdollar := Quoted.template_cons (c := '$') (by decide) (by decide)
      simp [hdollar, ih, Function.comp_def]
  | case8 c text hslash htick _ _ _ ih =>
      simp [Quoted.template_cons htick hslash, ih, Function.comp_def]

theorem template_inert {text : List Char} (h : ∀ c ∈ text, isInert c = true) (rest : List Char) :
    Quoted.template (text ++ rest) = (Quoted.template rest).map (text ++ ·) := by
  induction text with
  | nil => simp
  | cons c text ih =>
      obtain ⟨hc, htext⟩ := List.forall_mem_cons.mp h
      simp only [isInert, List.contains_eq_mem, List.mem_cons, List.not_mem_nil, or_false,
        Bool.not_eq_true', Bool.or_eq_false_iff, decide_eq_false_iff_not, not_or] at hc
      have hcons := Quoted.template_cons hc.1.2.2.1 hc.1.2.2.2.2.2.1
      simp [hcons, ih htext, Function.comp_def]

theorem template_segmentText {segment : Segment Expr} (h : segment.isNamed = true)
    (rest : List Char) : Quoted.template (segmentText segment ++ rest) =
      (Quoted.template rest).map (segmentText segment ++ ·) := by
  cases segment with
  | text value => exact template_templateText value.toList rest
  | expr value =>
      obtain ⟨name, pos, rfl, -, hname⟩ := Segment.exists_of_isNamed h
      have hinert := template_inert (inert_of_isName hname).2
      have hcons : ∀ c ∈ ['$', '{', '}'], ∀ rest, Quoted.template (c :: rest) = _ :=
        fun c hc => Quoted.template_cons (by rintro rfl; simp at hc) (by rintro rfl; simp at hc)
      simp [segmentText, writeExpr, hcons, hinert, Function.comp_def]

-- What is written between backticks is read up to the last of them.
theorem template_segments {segments : List (Segment Expr)}
    (h : ∀ segment ∈ segments, segment.isNamed = true) (rest : List Char) :
    Quoted.template (segments.flatMap segmentText ++ '`' :: rest) =
      some (segments.flatMap segmentText) := by
  induction segments with
  | nil => exact Quoted.template_close rest
  | cons first segments ih =>
      obtain ⟨hfirst, hsegments⟩ := List.forall_mem_cons.mp h
      rw [List.flatMap_cons, List.append_assoc, template_segmentText hfirst, ih hsegments]
      rfl

-- A text between backticks is one token, and it is read as a template.
theorem sound_template {raw : List Char}
    (h : ∀ rest, Quoted.template (raw ++ '`' :: rest) = some raw) :
    Sound (.leaf ('`' :: (raw ++ ['`'])) ⟨.template, String.ofList raw, .start⟩
      (.template (String.ofList raw) .start)) := by
  refine .leaf ?_ (by simp [opensText]) (.leaf rfl rfl fun expression limit rest blocks => ?_)
  · intro state rest behind _ hlexes
    have hpiece : Braced.piece '`' (raw ++ ['`'] ++ rest) =
        .ok ⟨'`' :: (raw ++ ['`']), some (.template, String.ofList raw)⟩ := by
      simp [Braced.piece, isBlank, h rest]
    exact Lexes.piece hlexes hpiece rfl
  · have hadvance : Parser.advance (ahead (⟨.template, String.ofList raw, .start⟩ :: rest) blocks) = _ :=
      advance_run rfl
    simp [primary, bind_run, map_run, hadvance]

end Lexing

section Reading

variable {rest : List Char} {name : String} {segments : List (Segment Expr)}

theorem templateSegments_cons {c : Char} (hslash : c ≠ '\\')
    (hdollar : c = '$' → rest.head? ≠ some '{') :
    templateSegments (c :: rest) =
      (Segment.consChar c (templateSegments rest).1, (templateSegments rest).2) := by
  conv => lhs; unfold templateSegments
  split
  · contradiction
  · simp_all
  · simp_all
  · rename_i heq
    cases heq
    rfl

theorem templateSegments_escape (c : Char) (rest : List Char) :
    templateSegments ('\\' :: c :: rest) =
      (Segment.consChar (Quoted.unescape c) (templateSegments rest).1,
        (templateSegments rest).2) := by
  conv => lhs; unfold templateSegments
  rfl

theorem head?_templateText {text : List Char} (htext : text.head? ≠ some '{')
    (hrest : rest.head? ≠ some '{') : (templateText text ++ rest).head? ≠ some '{' := by
  fun_cases templateText text <;> simp_all

-- What is escaped is read back. A dollar sign at the end of a text stays one, unless a brace follows.
theorem templateSegments_templateText (text : List Char) (hrest : rest.head? ≠ some '{') :
    templateSegments (templateText text ++ rest) =
      (text.foldr Segment.consChar (templateSegments rest).1, (templateSegments rest).2) := by
  fun_induction templateText text with
  | case1 => rfl
  | case2 text ih | case3 text ih | case4 text ih | case5 text ih | case6 text _ ih =>
      rw [List.cons_append, List.cons_append, templateSegments_escape, ih]
      rfl
  | case7 text hbrace ih =>
      have hhead : (templateText text ++ rest).head? ≠ some '{' :=
        head?_templateText (by simpa using hbrace) hrest
      rw [List.cons_append, templateSegments_cons (by decide) fun _ => hhead, ih]
      rfl
  | case8 c text hslash _ _ _ hdollar ih =>
      rw [List.cons_append, templateSegments_cons hslash fun h => absurd h hdollar, ih]
      rfl

theorem readEmbedded?_name (h : isName name = true) :
    ∃ pos, readEmbedded? name.toList = some (.var name pos) := by
  obtain ⟨tokens, found, rest, htokenize, hread, hend, hfound⟩ := tokenize_written (sound_name h)
  obtain ⟨pos, rfl⟩ := Expr.exists_of_placeless_var hfound
  have htokenize : tokenize name = .ok tokens := String.ofList_toList (s := name) ▸ htokenize
  refine ⟨pos, ?_⟩
  simp [readEmbedded?, (compact_of_isName h).trimBlanks, (inert_of_isName h).1, htokenize, hread,
    hend]

theorem templateSegments_closed {source behind : List Char} {found : Expr}
    (hclose : Embedding.close 0 none rest = some (source, behind))
    (hread : readEmbedded? source = some found) :
    templateSegments ('$' :: '{' :: rest) =
      (.expr found :: (templateSegments behind).1, (templateSegments behind).2) := by
  rw [templateSegments.eq_3]
  split
  · rename_i hnone
    rw [hclose] at hnone
    cases hnone
  · rename_i hsome
    rw [hclose] at hsome
    cases hsome
    rw [hread]

theorem templateSegments_name (h : isName name = true) (rest : List Char) :
    ∃ pos, templateSegments ('$' :: '{' :: (name.toList ++ '}' :: rest)) =
      (.expr (.var name pos) :: (templateSegments rest).1, (templateSegments rest).2) := by
  obtain ⟨pos, hread⟩ := readEmbedded?_name h
  have hclose := Embedding.close_of_passes (compact_of_isName h).passes rest
  exact ⟨pos, templateSegments_closed hclose hread⟩

theorem head?_segmentText (h : segments.head?.any Segment.isText = false) :
    (segments.flatMap segmentText).head? ≠ some '{' := by
  cases segments with
  | nil => simp
  | cons first rest =>
      cases first with
      | text value => simp [Segment.isText] at h
      | expr value => simp [segmentText]

-- The template is split into the segments that it is written from.
theorem templateSegments_segments (hnamed : ∀ segment ∈ segments, segment.isNamed = true)
    (hjoined : Segment.areJoined segments = true) :
    ∃ found, templateSegments (segments.flatMap segmentText) = (found, 0) ∧
      segmentsPlaceless found = segmentsPlaceless segments := by
  induction segments with
  | nil => exact ⟨[], by simp [templateSegments], rfl⟩
  | cons first segments ih =>
      obtain ⟨hfirst, hothers⟩ := List.forall_mem_cons.mp hnamed
      rw [List.flatMap_cons]
      cases first with
      | text value =>
          simp only [Segment.areJoined, Bool.and_eq_true, bne_iff_ne, Bool.not_eq_true'] at hjoined
          obtain ⟨⟨hvalue, hhead⟩, hjoined⟩ := hjoined
          obtain ⟨found, hsegments, hfound⟩ := ih hothers hjoined
          have hbehind : found.head?.any Segment.isText = false := by
            rw [← Segment.head?_segmentsPlaceless, hfound, Segment.head?_segmentsPlaceless, hhead]
          refine ⟨.text value :: found, ?_, by rw [segmentsPlaceless, segmentsPlaceless, hfound]⟩
          rw [segmentText, templateSegments_templateText _ (head?_segmentText hhead), hsegments,
            Segment.foldr_consChar hbehind (by simpa using hvalue), String.ofList_toList]
      | expr value =>
          obtain ⟨found, hsegments, hfound⟩ := ih hothers hjoined
          obtain ⟨name, pos, rfl, -, hname⟩ := Segment.exists_of_isNamed hfirst
          obtain ⟨place, hhead⟩ := templateSegments_name hname (segments.flatMap segmentText)
          refine ⟨.expr (.var name place) :: found, ?_,
            by simp [segmentsPlaceless, Expr.placeless, hfound]⟩
          rw [hsegments] at hhead
          simpa [segmentText, writeExpr] using hhead

end Reading

end Braced

namespace Indented

open Diglot.Parser TokenStream

section Lexing

-- Whether nothing in a written expression has to be escaped between the given quotes.
def isUnescaped (quote : Char) : Segment String → Bool
  | .text _ => true
  | .expr text => text.toList.all fun c => c != quote && c != '\n' && c != '\\'

variable {quote : Char} (hquote : quote ∈ ['"', '\''])

include hquote

theorem body_brace (c : Char) (h : c ∈ ['{', '}']) (rest : List Char) :
    Quoted.body quote (c :: rest) =
      (Quoted.body quote rest).map fun (value, piece) => (c :: value, c :: piece) := by
  refine Quoted.body_cons ?_ (by rintro rfl; simp at h) (by rintro rfl; simp at h) rest
  rintro rfl
  rcases mem_pair.mp hquote with rfl | rfl <;> simp at h

-- A character of a text is read back, a brace as two.
theorem body_escapedText (c : Char) (rest : List Char) :
    Quoted.body quote (escapedText quote c ++ rest) =
      (Quoted.body quote rest).map fun (value, piece) =>
        (doubled c ++ value, escapedText quote c ++ piece) := by
  have hescape : ∀ c rest, Quoted.body quote ('\\' :: c :: rest) = _ :=
    Quoted.body_escape (by rintro rfl; simp at hquote)
  unfold escapedText
  split
  · simp [body_brace hquote '{' (by decide), doubled, Function.comp_def]
  · simp [body_brace hquote '}' (by decide), doubled, Function.comp_def]
  · simp [hescape, doubled, Quoted.unescape]
  · simp [hescape, doubled, Quoted.unescape]
  · simp [hescape, doubled, Quoted.unescape]
  · simp [hescape, doubled, Quoted.unescape]
  · rename_i hopen hclose hslash hfeed _ _
    have hdoubled : doubled c = [c] := by
      have hbrace : c ≠ '{' ∧ c ≠ '}' := ⟨hopen, hclose⟩
      simp [doubled, hbrace]
    split
    · rename_i hsame
      subst hsame
      have hunescape : Quoted.unescape c = c := by
        rcases mem_pair.mp hquote with rfl | rfl <;> rfl
      simp [hescape, hdoubled, hunescape]
    · rename_i hother
      simp [Quoted.body_cons hother hfeed hslash, hdoubled]

theorem body_text (text rest : List Char) :
    Quoted.body quote (text.flatMap (escapedText quote) ++ rest) =
      (Quoted.body quote rest).map fun (value, piece) =>
        (text.flatMap doubled ++ value, text.flatMap (escapedText quote) ++ piece) := by
  induction text with
  | nil => simp
  | cons c text ih =>
      rw [List.flatMap_cons, List.append_assoc, body_escapedText hquote, ih]
      simp [Function.comp_def]

omit hquote in
theorem body_unescaped {text : List Char}
    (h : ∀ c ∈ text, (c != quote && c != '\n' && c != '\\') = true) (rest : List Char) :
    Quoted.body quote (text ++ rest) =
      (Quoted.body quote rest).map fun (value, piece) => (text ++ value, text ++ piece) := by
  induction text with
  | nil => simp
  | cons c text ih =>
      obtain ⟨hc, htext⟩ := List.forall_mem_cons.mp h
      simp only [Bool.and_eq_true, bne_iff_ne] at hc
      rw [List.cons_append, Quoted.body_cons hc.1.1 hc.1.2 hc.2, ih htext]
      simp [Function.comp_def]

theorem body_segmentText {segment : Segment String} (h : isUnescaped quote segment = true)
    (rest : List Char) : Quoted.body quote (segmentText quote segment ++ rest) =
      (Quoted.body quote rest).map fun (value, piece) =>
        (segmentValue segment ++ value, segmentText quote segment ++ piece) := by
  cases segment with
  | text value => exact body_text hquote value.toList rest
  | expr text =>
      have htext := body_unescaped (List.all_eq_true.mp h)
      simp [segmentText, segmentValue, body_brace hquote '{' (by decide),
        body_brace hquote '}' (by decide), htext, Function.comp_def]

theorem body_segments {segments : List (Segment String)}
    (h : ∀ segment ∈ segments, isUnescaped quote segment = true) (rest : List Char) :
    Quoted.body quote (segments.flatMap (segmentText quote) ++ quote :: rest) =
      some (segments.flatMap segmentValue, segments.flatMap (segmentText quote) ++ [quote]) := by
  induction segments with
  | nil => exact Quoted.body_close quote rest
  | cons first segments ih =>
      obtain ⟨hfirst, hsegments⟩ := List.forall_mem_cons.mp h
      rw [List.flatMap_cons, List.append_assoc, body_segmentText hquote hfirst, ih hsegments]
      simp

end Lexing

section Reading

variable {embedded : List Char → Except Cause Expr} {name : String}

theorem segments_cons {c : Char} (hopen : c ≠ '{') (hclose : c ≠ '}') (rest : List Char) :
    segments embedded (c :: rest) = (segments embedded rest).map (Segment.consChar c) := by
  refine segments.eq_5 _ _ _ ?_ ?_ ?_
  · intro _ h
    exact absurd h hopen
  · intro _ h
    exact absurd h hclose
  · exact hopen

theorem segments_doubled (c : Char) (rest : List Char) :
    segments embedded (doubled c ++ rest) = (segments embedded rest).map (Segment.consChar c) := by
  unfold doubled
  split
  · rename_i hbrace
    simp only [Bool.or_eq_true, beq_iff_eq] at hbrace
    rcases hbrace with rfl | rfl
    · simp [segments]
    · simp [segments]
  · rename_i hbrace
    simp only [Bool.or_eq_true, beq_iff_eq, not_or] at hbrace
    exact segments_cons hbrace.1 hbrace.2 rest

theorem segments_text (text rest : List Char) :
    segments embedded (text.flatMap doubled ++ rest) =
      (segments embedded rest).map (text.foldr Segment.consChar) := by
  induction text with
  | nil =>
      rw [List.flatMap_nil, List.nil_append]
      cases segments embedded rest <;> rfl
  | cons c text ih =>
      rw [List.flatMap_cons, List.append_assoc, segments_doubled, ih]
      cases segments embedded rest <;> rfl

theorem segments_embedded {text : List Char} {value : Expr} (hcompact : Embedding.Compact text)
    (hbrace : text.head? ≠ some '{') (hvalue : embedded text = .ok value) (rest : List Char) :
    segments embedded ('{' :: (text ++ '}' :: rest)) =
      (segments embedded rest).map (.expr value :: ·) := by
  have hopen : ∀ more, text ++ '}' :: rest = '{' :: more → False := by
    intro more hmore
    cases text with
    | nil => cases hcompact.opens
    | cons c text =>
        cases hmore
        exact hbrace rfl
  rw [segments_closed _ hopen (Embedding.close_of_passes hcompact.passes rest), hvalue]
  cases segments embedded rest <;> rfl

theorem segments_name (h : isName name = true) (hcommon : Braced.isName name = true) :
    ∃ pos, ∀ rest, segments readSource ('{' :: (name.toList ++ '}' :: rest)) =
      (segments readSource rest).map (.expr (.var name pos) :: ·) := by
  obtain ⟨found, hread, hfound⟩ :=
    readSource_of_sound (sound_name h) (compact_of_isName hcommon)
  obtain ⟨pos, rfl⟩ := Expr.exists_of_placeless_var hfound
  have hbrace : name.toList.head? ≠ some '{' := fun hhead => by
    have hinert := (inert_of_isName hcommon).2 '{' (List.mem_of_mem_head? hhead)
    simp [isInert] at hinert
  exact ⟨pos, segments_embedded (compact_of_isName hcommon) hbrace hread⟩

-- The value of an interpolated string is split into the segments that it is written from.
theorem segments_segments {segments : List (Segment Expr)}
    (hnamed : ∀ segment ∈ segments, segment.isNamed = true)
    (hjoined : Segment.areJoined segments = true) (template : String → String) :
    ∃ found, Indented.segments readSource
        ((writeSegmentsWith template segments).flatMap segmentValue) = .ok found ∧
      segmentsPlaceless found = segmentsPlaceless segments := by
  induction segments with
  | nil => exact ⟨[], by simp [Indented.segments, writeSegmentsWith], rfl⟩
  | cons first segments ih =>
      obtain ⟨hfirst, hothers⟩ := List.forall_mem_cons.mp hnamed
      cases first with
      | text value =>
          simp only [Segment.areJoined, Bool.and_eq_true, bne_iff_ne, Bool.not_eq_true'] at hjoined
          obtain ⟨⟨hvalue, hhead⟩, hjoined⟩ := hjoined
          obtain ⟨found, hsegments, hfound⟩ := ih hothers hjoined
          have hbehind : found.head?.any Segment.isText = false := by
            rw [← Segment.head?_segmentsPlaceless, hfound, Segment.head?_segmentsPlaceless, hhead]
          refine ⟨.text value :: found, ?_, by rw [segmentsPlaceless, segmentsPlaceless, hfound]⟩
          rw [writeSegmentsWith, List.flatMap_cons, segmentValue, segments_text, hsegments,
            Except.map, Segment.foldr_consChar hbehind (by simpa using hvalue), String.ofList_toList]
      | expr value =>
          obtain ⟨found, hsegments, hfound⟩ := ih hothers hjoined
          obtain ⟨name, pos, rfl, hname, hcommon⟩ := Segment.exists_of_isNamed hfirst
          obtain ⟨place, hname⟩ := segments_name hname hcommon
          have hhead := hname ((writeSegmentsWith template segments).flatMap segmentValue)
          refine ⟨.expr (.var name place) :: found, ?_,
            by simp [segmentsPlaceless, Expr.placeless, hfound]⟩
          rw [hsegments, Except.map] at hhead
          simpa [writeSegmentsWith, writeExprWith, segmentValue] using hhead

end Reading

section Written

variable {texts : List (Segment String)} {quote : Char}

-- An interpolated string as it is written.
def interpolated (quote : Char) (texts : List (Segment String)) (value : Expr) : Written :=
  .leaf ('f' :: quote :: (texts.flatMap (segmentText quote) ++ [quote]))
    ⟨.interpolated, String.ofList (texts.flatMap segmentValue), .start⟩ value

theorem lexes_interpolated (hquote : quote ∈ ['"', '\''])
    (h : ∀ segment ∈ texts, isUnescaped quote segment = true) (value : Expr) :
    (interpolated quote texts value).Lexes scanner := by
  intro state rest behind _ hlexes
  have hpiece : Indented.piece (0 < state.2) 'f'
      (quote :: (texts.flatMap (segmentText quote) ++ [quote]) ++ rest) =
        .ok ⟨'f' :: quote :: (texts.flatMap (segmentText quote) ++ [quote]),
          some (.interpolated, String.ofList (texts.flatMap segmentValue))⟩ := by
    have hbody := body_segments hquote h rest
    rcases mem_pair.mp hquote with rfl | rfl <;> simp [Indented.piece, Piece.quoted, hbody]
  exact Lexes.token hlexes hpiece (by simp) (by simp)

theorem sound_interpolated {embedded : List Char → Except Cause Expr} {found : List (Segment Expr)}
    (hquote : quote ∈ ['"', '\'']) (h : ∀ segment ∈ texts, isUnescaped quote segment = true)
    (hfound : segments embedded (texts.flatMap segmentValue) = .ok found) :
    Sound embedded (interpolated quote texts (.interpolated found .start)) := by
  refine .leaf (lexes_interpolated hquote h (.interpolated found .start)) (by simp [opensText])
    (.leaf rfl rfl fun expression limit rest blocks => ?_)
  have hadvance : Parser.advance (ahead (⟨.interpolated, String.ofList (texts.flatMap segmentValue),
      .start⟩ :: rest) blocks) = _ := advance_run rfl
  simp [primary, bind_run, pure_run, hadvance, hfound]

theorem onlyText?_of_expr {text : String} (h : .expr text ∈ texts) : onlyText? texts = none := by
  induction texts with
  | nil => cases h
  | cons first rest ih =>
      cases first with
      | text value =>
          rw [onlyText?, ih (by simpa using h)]
          rfl
      | expr other => rfl

-- A template with an expression in it is written as an interpolated string between double quotes.
theorem templateText_of_expr (h : ∀ segment ∈ texts, isUnescaped '"' segment = true) {text : String}
    (hmem : .expr text ∈ texts) (value : Expr) :
    templateText texts = String.ofList (interpolated '"' texts value).text := by
  have hquote : texts.any hasQuote = false := by
    refine List.any_eq_false.mpr fun segment hsegment => ?_
    cases segment with
    | text value => simp [hasQuote]
    | expr other =>
        have hunescaped := List.all_eq_true.mp (h _ hsegment)
        intro hcontains
        have hc := hunescaped '"' (by simpa [hasQuote] using hcontains)
        simp at hc
  simp [templateText, onlyText?_of_expr hmem, interpolatedText, hquote, interpolated, Written.leaf]

end Written

end Indented

section Whole

variable {segments : List (Segment Expr)} {e : Expr}

theorem unescaped_writeSegments (h : ∀ segment ∈ segments, segment.isNamed = true)
    (template : String → String) :
    ∀ text ∈ Indented.writeSegmentsWith template segments,
      Indented.isUnescaped '"' text = true := by
  induction segments with
  | nil => simp [Indented.writeSegmentsWith]
  | cons first segments ih =>
      obtain ⟨hfirst, hothers⟩ := List.forall_mem_cons.mp h
      cases first with
      | text value => exact List.forall_mem_cons.mpr ⟨rfl, ih hothers⟩
      | expr value =>
          obtain ⟨name, pos, rfl, -, hname⟩ := Segment.exists_of_isNamed hfirst
          refine List.forall_mem_cons.mpr ⟨List.all_eq_true.mpr fun c hc => ?_, ih hothers⟩
          have hinert := (inert_of_isName hname).2 c hc
          simp only [isInert, List.contains_eq_mem, List.mem_cons, List.not_mem_nil, or_false,
            Bool.not_eq_true', Bool.or_eq_false_iff, decide_eq_false_iff_not, not_or] at hinert
          simp [hinert]

theorem exists_writeSegments (h : .expr e ∈ segments) (template : String → String) :
    ∃ text, .expr text ∈ Indented.writeSegmentsWith template segments := by
  induction segments with
  | nil => cases h
  | cons first segments ih =>
      cases first with
      | text value =>
          obtain ⟨text, htext⟩ := ih (by simpa using h)
          exact ⟨text, List.mem_cons_of_mem _ htext⟩
      | expr value => exact ⟨_, List.mem_cons_self⟩

-- The braced text of an interpolated string is read as a template.
theorem Braced.parseWhole_interpolated (h : ∀ segment ∈ segments, segment.isNamed = true)
    (pos : Pos) :
    ∃ place, parseWhole .javaScript (Braced.writeExpr false (.interpolated segments pos)) =
      .ok (.template (String.ofList (segments.flatMap Braced.segmentText)) place, true) := by
  obtain ⟨tokens, found, rest, htokenize, hread, hend, hfound⟩ :=
    Braced.tokenize_written (Braced.sound_template (Braced.template_segments h))
  have htext := Braced.toList_writeExpr_interpolated segments pos
  rw [Written.leaf, ← htext, String.ofList_toList] at htokenize
  have hwhole := Braced.parseWhole_of_read htokenize hread hend
  obtain ⟨place, rfl⟩ := Expr.exists_of_placeless_template hfound
  exact ⟨place, hwhole⟩

-- An interpolated string with an expression in it is read as its segments.
theorem Indented.parseWhole_templateText (hnamed : ∀ segment ∈ segments, segment.isNamed = true)
    (hjoined : Segment.areJoined segments = true) (hexpr : .expr e ∈ segments)
    (template : String → String) :
    ∃ found pos, parseWhole .pythonScript
        (Indented.templateText (Indented.writeSegmentsWith template segments)) =
          .ok (.interpolated found pos, true) ∧
      segmentsPlaceless found = segmentsPlaceless segments := by
  have hunescaped := unescaped_writeSegments hnamed template
  obtain ⟨text, htext⟩ := exists_writeSegments hexpr template
  obtain ⟨read, hread, hsame⟩ := Indented.segments_segments hnamed hjoined template
  obtain ⟨found, hwhole, hfound⟩ :=
    Indented.parseWhole_of_sound (Indented.sound_interpolated (by decide) hunescaped hread)
  obtain ⟨segments, pos, rfl, hsegments⟩ := Expr.exists_of_placeless_interpolated hfound
  rw [Indented.templateText_of_expr hunescaped htext (.interpolated read .start)]
  exact ⟨segments, pos, hwhole, hsegments.trans hsame⟩

-- A template is written from the segments that it is written for.
theorem Indented.writeExpr_template (hnamed : ∀ segment ∈ segments, segment.isNamed = true)
    (hjoined : Segment.areJoined segments = true) (hne : segments.flatMap Braced.segmentText ≠ [])
    (pos : Pos) :
    ∃ template, Indented.writeExpr
        (.template (String.ofList (segments.flatMap Braced.segmentText)) pos) =
      Indented.templateText (Indented.writeSegmentsWith template segments) := by
  obtain ⟨found, hfound, hsame⟩ := Braced.templateSegments_segments hnamed hjoined
  obtain ⟨limit, hlimit⟩ : ∃ limit,
      (String.ofList (segments.flatMap Braced.segmentText)).length = limit + 1 :=
    ⟨_, (Nat.succ_pred_eq_of_pos (by simpa using List.length_pos_iff.mpr hne)).symm⟩
  refine ⟨Indented.writeTemplateWithin limit, ?_⟩
  rw [Indented.writeExpr, Indented.writeExprWith, Indented.writeTemplate, hlimit,
    Indented.writeTemplateWithin, String.toList_ofList, hfound,
    ← Indented.writeSegmentsWith_placeless, hsame, Indented.writeSegmentsWith_placeless]

-- A list of texts and names comes back from the braced notation: an interpolated string is written
-- as a template, the template is read and written as an interpolated string, and that is read as
-- the same list.
theorem interpolated_there_and_back (hnamed : ∀ segment ∈ segments, segment.isNamed = true)
    (hjoined : Segment.areJoined segments = true) (hexpr : ∃ e, .expr e ∈ segments) (pos : Pos) :
    ∃ raw there found back,
      parseWhole .javaScript (Braced.writeExpr false (.interpolated segments pos)) =
          .ok (.template raw there, true) ∧
        parseWhole .pythonScript (Indented.writeExpr (.template raw there)) =
          .ok (.interpolated found back, true) ∧
        segmentsPlaceless found = segmentsPlaceless segments := by
  obtain ⟨e, hexpr⟩ := hexpr
  obtain ⟨there, hthere⟩ := Braced.parseWhole_interpolated hnamed pos
  have hne : segments.flatMap Braced.segmentText ≠ [] := by
    intro hnil
    have hpart := List.flatMap_eq_nil_iff.mp hnil _ hexpr
    simp [Braced.segmentText] at hpart
  obtain ⟨template, htemplate⟩ := Indented.writeExpr_template hnamed hjoined hne there
  obtain ⟨found, back, hback, hfound⟩ :=
    Indented.parseWhole_templateText hnamed hjoined hexpr template
  exact ⟨_, there, found, back, hthere, htemplate ▸ hback, hfound⟩

-- A brace, a doubled brace and a dollar sign in front of a name, and a backslash, a backtick, a
-- quote and a line feed behind it.
def seams : List (Segment Expr) :=
  [.text "\x7b\x7d\x7d\x7b$", .expr (.var "x" .start), .expr (.var "y" .start),
    .text "$\x7b\\`\"'\n\x7d"]

theorem interpolated_there_and_back_seams :
    ((∀ segment ∈ seams, segment.isNamed = true) ∧ Segment.areJoined seams = true ∧
      ∃ e, .expr e ∈ seams) ∧
    ∃ raw there found back,
      parseWhole .javaScript (Braced.writeExpr false (.interpolated seams .start)) =
          .ok (.template raw there, true) ∧
        parseWhole .pythonScript (Indented.writeExpr (.template raw there)) =
          .ok (.interpolated found back, true) ∧
        segmentsPlaceless found = segmentsPlaceless seams := by
  have hnamed : ∀ segment ∈ seams, segment.isNamed = true :=
    List.all_eq_true.mp (by decide)
  have hjoined : Segment.areJoined seams = true := by decide
  have hexpr : ∃ e, .expr e ∈ seams := ⟨.var "x" .start, by simp [seams]⟩
  exact ⟨⟨hnamed, hjoined, hexpr⟩, interpolated_there_and_back hnamed hjoined hexpr .start⟩

end Whole

end Diglot
