import Diglot.Proofs.Indented.Tidy
import Diglot.Proofs.Interpolation
import Diglot.Proofs.Untemplated

namespace Diglot.Indented

-- Templates that are written as strings which the reader accepts.

-- Whether the text of an expression can be embedded in an interpolated string: it starts with no
-- brace, which would be read as text there, and has nothing in it that the quotes around would change.
def isEmbeddable (text : List Char) : Bool := text.head? != some '{' && isBare text

-- Whether the expressions in a template can be embedded, and have names for names.
def isQuotable (raw : String) : Bool :=
  ((Braced.templateSegments raw.toList).1.filterMap (·.expr?)).all fun e =>
    e.all (Expr.isWorded isName fun _ => true) && isEmbeddable (writeExpr e).toList

section Spelling

variable {e : Expr} {template : String → Bool} {literal : TokenKind × String → Bool}

-- An expression of the braced notation is spelled if its names are names.
theorem spelled_of_worded (hnamed : e.Worded isName literal)
    (hworded : e.Worded isUnbroken Braced.isProper) (hshaped : e.Shaped .javaScript)
    (htemplate : ∀ raw, literal (.template, raw) = true → Quoted.template raw.toList = none →
      template raw = true) : e.all (isSpelledWith template) = true := by
  refine Expr.all_imp₂ (fun e hnode hshape => ?_) (Expr.all_imp₂ (r := fun e =>
    e.isWorded isName fun said => literal said && Braced.isProper said) (fun e hname hword => ?_)
    hnamed hworded) hshaped
  · simp only [Expr.isWorded, Bool.and_eq_true, List.all_eq_true] at hnode
    obtain ⟨hwords, hliterals⟩ := hnode
    cases e with
    | member object name pos | var name pos => exact hwords name (by simp [Expr.words])
    | dict entries pos =>
        refine List.all_eq_true.mpr fun entry hentry => (Option.all_eq_true _ _).mpr fun text htext => ?_
        exact (hliterals (.number, text)
          (List.mem_map_of_mem (List.mem_filterMap.mpr ⟨entry, hentry, htext⟩))).2
    | interpolated segments pos => simp [Expr.isShaped, Expr.isOf] at hshape
    | template raw pos =>
        obtain ⟨hraw, hproper⟩ := hliterals (.template, raw) (by simp [Expr.literals])
        exact htemplate raw hraw (Option.isNone_iff_eq_none.mp hproper)
    | number text pos => exact (hliterals (.number, text) (by simp [Expr.literals])).2
    | _ => rfl
  · simp_all [Expr.isWorded]

end Spelling

section Parts

variable {embedded : Embedder} {texts : List (Segment String)}

theorem exists_of_mem_writeSegments {template : String → String} {segments : List (Segment Expr)}
    {text : String} (h : .expr text ∈ writeSegmentsWith template segments) :
    ∃ e ∈ segments.filterMap (·.expr?), text = writeExprWith template e := by
  induction segments with
  | nil => cases h
  | cons first rest ih =>
      cases first with
      | text value => exact ih (by simpa [writeSegmentsWith] using h)
      | expr value =>
          rw [writeSegmentsWith, List.mem_cons] at h
          rcases h with h | h
          · exact ⟨value, .head _, Segment.expr.inj h⟩
          · obtain ⟨e, he, rfl⟩ := ih h
            exact ⟨e, .tail _ he, rfl⟩

-- The value of an interpolated string is split if its expressions are read.
theorem exists_segments (h : ∀ text, .expr text ∈ texts → ∃ value, ∀ rest,
      segments embedded ('{' :: (text.toList ++ '}' :: rest)) =
        (segments embedded rest).map (.expr value :: ·)) :
    ∃ found, segments embedded (texts.flatMap segmentValue) = .ok found := by
  induction texts with
  | nil => exact ⟨[], by simp [segments]⟩
  | cons first rest ih =>
      obtain ⟨found, hfound⟩ := ih fun text htext => h text (.tail _ htext)
      rw [List.flatMap_cons]
      cases first with
      | text value =>
          rw [segmentValue, segments_text, hfound]
          exact ⟨_, rfl⟩
      | expr text =>
          obtain ⟨value, hvalue⟩ := h text (.head _)
          have hfirst := hvalue (rest.flatMap segmentValue)
          rw [hfound, Except.map] at hfirst
          exact ⟨_, by simpa [segmentValue] using hfirst⟩

variable {raw text : String} (h : Quoted.template raw.toList = none)

include h

-- No template stands inside a template, so that its text is made from those of its expressions.
theorem writeTemplate_eq : writeTemplate raw = templateText (templateTexts raw) := by
  rw [writeTemplate]
  cases hlength : raw.length with
  | zero =>
      obtain rfl : raw = "" := String.length_eq_zero_iff.mp hlength
      have hnil : Braced.templateSegments "".toList = ([], 0) := by simp [Braced.templateSegments]
      rw [templateTexts, hnil]
      rfl
  | succ limit =>
      rw [writeTemplateWithin, templateTexts,
        writeSegmentsWith_untemplated _ _ fun e he => (Braced.worded_templateSegments h e he).2]

variable (hquotable : isQuotable raw = true)

include hquotable

theorem segments_part (hmem : .expr text ∈ templateTexts raw) :
    (isBare text.toList = true ∧ '\n' ∉ text.toList) ∧ ∃ value, ∀ rest,
      segments readSource ('{' :: (text.toList ++ '}' :: rest)) =
        (segments readSource rest).map (.expr value :: ·) := by
  obtain ⟨e, he, rfl⟩ := exists_of_mem_writeSegments hmem
  obtain ⟨hnamed, hembeddable⟩ := Bool.and_eq_true_iff.mp (List.all_eq_true.mp hquotable e he)
  obtain ⟨hbrace, hbare⟩ := Bool.and_eq_true_iff.mp hembeddable
  obtain ⟨⟨hworded, hshaped⟩, huntemplated⟩ := Braced.worded_templateSegments h e he
  have hnamed : e.Worded isName (·.1 != .template) :=
    Expr.all_imp₂ (fun e hname hnone => Bool.and_eq_true_iff.mpr
      ⟨(Bool.and_eq_true_iff.mp hname).1, (Bool.and_eq_true_iff.mp hnone).2⟩) hnamed huntemplated
  have hspelled : e.all isSpelled = true := spelled_of_worded hnamed hworded hshaped (by simp)
  have htrim := trim_writeExpr hworded
  have hcompact : Embedding.Compact (written e).text := by
    rw [text_written]
    exact ⟨htrim.opens, htrim.closes, htrim.passes hbare⟩
  obtain ⟨value, hvalue, -⟩ := readSource_of_sound (sound_of_isSpelled hspelled) hcompact
  rw [text_written] at hcompact hvalue
  exact ⟨⟨hbare, htrim.line.feed⟩, value,
    segments_embedded hcompact (bne_iff_ne.mp hbrace) hvalue⟩

theorem sound_writtenTemplate : Sound readSource (writtenTemplate raw) := by
  have htext := writeTemplate_eq h
  rw [writtenTemplate]
  cases honly : onlyText? (templateTexts raw) with
  | some text =>
      rw [templateText, honly] at htext
      rw [htext]
      exact sound_quoted text
  | none =>
      obtain ⟨found, hfound⟩ := exists_segments fun text hmem => (segments_part h hquotable hmem).2
      rw [templateText, honly] at htext
      dsimp only at htext ⊢
      rw [htext, interpolatedText, String.toList_ofList, hfound]
      refine sound_interpolated (by split <;> simp) (fun segment hsegment => ?_) hfound
      cases segment with
      | text value => rfl
      | expr text =>
          obtain ⟨⟨hbare, hfeed⟩, -⟩ := segments_part h hquotable hsegment
          refine List.all_eq_true.mpr fun c hc => ?_
          have hmark : c ≠ if (templateTexts raw).any hasQuote then '\'' else '"' := by
            split
            · rintro rfl
              cases List.all_eq_true.mp hbare _ hc
            · rename_i hnone
              rintro rfl
              exact hnone (List.any_eq_true.mpr ⟨_, hsegment, by simpa [hasQuote] using hc⟩)
          have hline : c ≠ '\n' := by
            rintro rfl
            exact hfeed hc
          have hslash := List.all_eq_true.mp hbare c hc
          simp_all

end Parts

-- Whether a literal is written as one that is read again.
def isReadable : TokenKind × String → Bool
  | (.template, raw) => isQuotable raw
  | _ => true

-- What is written for an expression of the braced notation is sound if its names are names and its
-- templates can be quoted.
theorem sound_of_worded {e : Expr} (hnamed : e.Worded isName isReadable)
    (hworded : e.Worded isUnbroken Braced.isProper) (hshaped : e.Shaped .javaScript) :
    Sound readSource (written e) := by
  have htemplate (raw : String) (hraw : isReadable (.template, raw) = true)
      (hnone : Quoted.template raw.toList = none) :
      (isQuotable raw && (Quoted.template raw.toList).isNone) = true := by
    rw [hnone]
    exact Bool.and_eq_true_iff.mpr ⟨hraw, rfl⟩
  have hspelled := spelled_of_worded hnamed hworded hshaped htemplate
  refine (fits_written (fun raw hraw => ?_) hspelled).1.sound
  obtain ⟨hquotable, hnone⟩ := Bool.and_eq_true_iff.mp hraw
  exact sound_writtenTemplate (Option.isNone_iff_eq_none.mp hnone) hquotable

end Diglot.Indented
