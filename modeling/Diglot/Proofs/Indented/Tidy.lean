import Diglot.Proofs.Braced.Words
import Diglot.Proofs.Indented.Widths

namespace Diglot.Indented

section Texts

variable {first second text : String} {texts : List String} {segments : List (Segment String)}

theorem Smooth.append {first second : List Char} (h : Smooth first) (h' : Smooth second) :
    Smooth (first ++ second) := by
  refine ⟨by simp [h.feed, h'.feed], ?_⟩
  rw [List.getLast?_append]
  cases hlast : second.getLast? with
  | none => exact h.slash
  | some c =>
      rw [Option.some_or, ← hlast]
      exact h'.slash

theorem Tidy.append {first second : List Char} (h : Tidy first) (h' : Smooth second) :
    Tidy (first ++ second) := by
  refine ⟨h.toSmooth.append h', ?_⟩
  have hopens := h.opens
  cases first with
  | nil => cases hopens
  | cons c first => exact hopens

instance (text : List Char) : Decidable (Smooth text) :=
  decidable_of_iff ('\n' ∉ text ∧ text.getLast? ≠ some '\\')
    ⟨fun h => ⟨h.1, h.2⟩, fun h => ⟨h.feed, h.slash⟩⟩

-- Whether a text has neither backslashes nor single quotes.
def isBare (text : List Char) : Bool := text.all fun c => c != '\\' && c != '\''

-- Texts that may stand inside a line. If they are bare, the search for the end of an embedded
-- expression goes over them.
structure IsSmooth (text : String) : Prop where
  line : Smooth text.toList
  passes : isBare text.toList = true → Embedding.passes text.toList = true

-- Those that may stand at its start, those that may stand at its end, and those that may be all of it.

structure IsTidy (text : String) : Prop extends IsSmooth text where
  opens : text.toList.head?.any (!isBlank ·) = true

structure IsFlush (text : String) : Prop extends IsSmooth text where
  closes : text.toList.getLast?.any (!isBlank ·) = true

structure IsTrim (text : String) : Prop extends IsTidy text, IsFlush text

instance (text : String) : Decidable (IsSmooth text) :=
  decidable_of_iff (Smooth text.toList ∧
      (isBare text.toList = true → Embedding.passes text.toList = true))
    ⟨fun h => ⟨h.1, h.2⟩, fun h => ⟨h.line, h.passes⟩⟩

instance (text : String) : Decidable (IsTidy text) :=
  decidable_of_iff (IsSmooth text ∧ text.toList.head?.any (!isBlank ·) = true)
    ⟨fun h => ⟨h.1, h.2⟩, fun h => ⟨h.toIsSmooth, h.opens⟩⟩

instance (text : String) : Decidable (IsFlush text) :=
  decidable_of_iff (IsSmooth text ∧ text.toList.getLast?.any (!isBlank ·) = true)
    ⟨fun h => ⟨h.1, h.2⟩, fun h => ⟨h.toIsSmooth, h.closes⟩⟩

instance (text : String) : Decidable (IsTrim text) :=
  decidable_of_iff (IsTidy text ∧ IsFlush text)
    ⟨fun h => ⟨h.1, h.2.closes⟩, fun h => ⟨h.toIsTidy, h.toIsFlush⟩⟩

theorem IsTidy.smooth (h : IsTidy text) : IsSmooth text := h.toIsSmooth

theorem IsTidy.tidy (h : IsTidy text) : Tidy text.toList := by
  refine ⟨h.line, ?_⟩
  have hopens := h.opens
  cases htext : text.toList with
  | nil => simp [htext] at hopens
  | cons c rest =>
      have hc : ∀ d, isBlank d = true → c ≠ d := by
        rintro d hd rfl
        simp [htext, hd] at hopens
      simp [hc ' ' rfl, hc '\t' rfl]

theorem IsSmooth.append (h : IsSmooth first) (h' : IsSmooth second) :
    IsSmooth (first ++ second) := by
  refine ⟨by rw [String.toList_append]; exact h.line.append h'.line, fun hbare => ?_⟩
  rw [String.toList_append, isBare, List.all_append, Bool.and_eq_true] at hbare
  have hfirst := eq_of_beq (h.passes hbare.1)
  rw [String.toList_append, Embedding.passes, Embedding.scan_append, hfirst]
  exact h'.passes hbare.2

theorem IsTidy.append (h : IsTidy first) (h' : IsSmooth second) : IsTidy (first ++ second) := by
  refine ⟨h.smooth.append h', ?_⟩
  have hopens := h.opens
  cases htext : first.toList with
  | nil => simp [htext] at hopens
  | cons c rest => simpa [htext] using hopens

theorem IsSmooth.ended (h : IsSmooth first) (h' : IsFlush second) : IsFlush (first ++ second) := by
  refine ⟨h.append h'.toIsSmooth, ?_⟩
  have hcloses := h'.closes
  cases hlast : second.toList.getLast? with
  | none => simp [hlast] at hcloses
  | some c => simpa [List.getLast?_append, hlast] using hcloses

theorem IsTidy.ended (h : IsTidy first) (h' : IsFlush second) : IsTrim (first ++ second) :=
  ⟨h.append h'.toIsSmooth, (h.smooth.ended h').closes⟩

theorem trim_join (h : IsTrim first) (hmore : ∀ text ∈ texts, IsFlush text) :
    IsTrim (first ++ String.join texts) := by
  induction texts generalizing first with
  | nil => simpa using h
  | cons text texts ih =>
      obtain ⟨htext, htexts⟩ := List.forall_mem_cons.mp hmore
      have hjoin : first ++ String.join (text :: texts) = first ++ text ++ String.join texts := by
        simp [← String.toList_inj]
      rw [hjoin]
      exact ih (h.ended htext) htexts

theorem smooth_listed (h : ∀ text ∈ texts, IsSmooth text) : IsSmooth (", ".intercalate texts) := by
  have hcomma : IsSmooth ", " := by decide
  induction texts with
  | nil => decide
  | cons text texts ih =>
      obtain ⟨htext, htexts⟩ := List.forall_mem_cons.mp h
      cases texts with
      | nil => simpa using htext
      | cons other texts =>
          have hlist : ", ".intercalate (text :: other :: texts) =
              text ++ ", " ++ ", ".intercalate (other :: texts) := by simp
          rw [hlist]
          exact (htext.append hcomma).append (ih htexts)

-- A text between two marks.
theorem trim_enclosed {inner : List Char} {opening closing : Char}
    (htext : text.toList = opening :: (inner ++ [closing])) (hfeed : '\n' ∉ opening :: inner)
    (hclosing : Smooth [closing]) (hblank : isBlank opening = false ∧ isBlank closing = false)
    (hpasses : isBare inner = true → Embedding.passes text.toList = true) : IsTrim text := by
  have hlast : text.toList.getLast? = some closing := by
    rw [htext, ← List.cons_append, List.getLast?_concat]
  refine ⟨⟨⟨⟨?_, ?_⟩, fun hbare => hpasses ?_⟩, by simp [htext, hblank]⟩, by simp [hlast, hblank]⟩
  · rw [htext, ← List.cons_append]
    exact fun hmem => (List.mem_append.mp hmem).elim hfeed hclosing.feed
  · rw [hlast]
    exact hclosing.slash
  · simp_all [isBare]

-- Inside braces the search is one deeper.
theorem trim_braced (h : IsSmooth text) : IsTrim ("\x7b" ++ text ++ "\x7d") := by
  have htext : ("\x7b" ++ text ++ "\x7d").toList = '{' :: (text.toList ++ ['}']) := by simp
  refine trim_enclosed htext (by simpa using h.line.feed) (by decide) (by decide) fun hbare => ?_
  have hinner := Embedding.scan_deeper (eq_of_beq (h.passes hbare))
  have hopen : Embedding.step (0, none) '{' = some (0 + 1, none) := rfl
  rw [htext, Embedding.passes, Embedding.scan_cons, hopen, Option.bind_some, Embedding.scan_append,
    hinner]
  rfl

theorem smooth_of_chars {text : List Char} (h : ∀ c ∈ text, c ≠ '\n' ∧ c ≠ '\\') : Smooth text :=
  ⟨fun hmem => (h _ hmem).1 rfl, fun hlast => (h _ (List.mem_of_getLast? hlast)).2 rfl⟩

theorem trim_of_isUnbroken (h : isUnbroken text = true) : IsTrim text := by
  obtain ⟨hne, hall⟩ := isUnbroken_iff.mp h
  have hcompact := Embedding.compact_of_inert hne hall
  refine ⟨⟨⟨smooth_of_chars fun c hc => ?_, fun _ => hcompact.passes⟩, hcompact.opens⟩,
    hcompact.closes⟩
  have hc := hall c hc
  constructor <;>
    · rintro rfl
      simp [isInert] at hc

theorem feed_escaped (c : Char) : '\n' ∉ escaped c := by
  have hdigit : ∀ n < 16, hexDigit n ≠ '\n' := by decide
  unfold escaped
  split
  iterate 7 simp
  rename_i hfeed _ _ _ _
  split
  · rename_i hsmall
    have hfirst := hdigit (c.toNat / 16) (by omega)
    have hsecond := hdigit (c.toNat % 16) (by omega)
    simp [hfirst.symm, hsecond.symm]
  · simpa using fun h => hfeed h.symm

-- A quote in a string is written behind a backslash.
theorem slash_of_quote_mem {c : Char} (h : '"' ∈ escaped c) : '\\' ∈ escaped c := by
  unfold escaped at h ⊢
  split
  iterate 7 simp
  rename_i hquote _ _ _ _ _ _
  split
  · simp
  · simp_all [eq_comm]

theorem trim_quote (text : String) : IsTrim (quote text) := by
  have htext : (quote text).toList = '"' :: (text.toList.flatMap escaped ++ ['"']) :=
    String.toList_ofList
  refine trim_enclosed htext (by simpa using fun c _ => feed_escaped c) (by decide) (by decide)
    fun hbare => ?_
  rw [htext]
  refine beq_iff_eq.mpr (Embedding.scan_quoted (by simp) (fun hmem => ?_) 0)
  obtain ⟨c, hc, hmem⟩ := List.mem_flatMap.mp hmem
  have hslash := List.mem_flatMap.mpr ⟨c, hc, slash_of_quote_mem hmem⟩
  simpa using List.all_eq_true.mp hbare '\\' hslash

theorem feed_escapedText (mark c : Char) : '\n' ∉ escapedText mark c := by
  unfold escapedText
  split
  iterate 6 simp
  rename_i hfeed _ _
  split
  · simpa using fun h => hfeed h.symm
  · simpa using fun h => hfeed h.symm

theorem slash_of_mark_mem {c : Char} (h : '"' ∈ escapedText '"' c) : '\\' ∈ escapedText '"' c := by
  unfold escapedText at h ⊢
  split at h
  iterate 6 simp_all
  split
  · simp
  · simp_all [eq_comm]

-- A segment whose expression, if it is one, stays in its line.
def SmoothSegment : Segment String → Prop
  | .text _ => True
  | .expr text => IsSmooth text

theorem trim_interpolatedText (h : ∀ segment ∈ segments, SmoothSegment segment) :
    IsTrim (interpolatedText segments) := by
  have hfeed : ∀ mark, '\n' ∉ segments.flatMap (segmentText mark) := by
    intro mark hmem
    obtain ⟨segment, hsegment, hmem⟩ := List.mem_flatMap.mp hmem
    cases segment with
    | text value =>
        obtain ⟨c, -, hc⟩ := List.mem_flatMap.mp hmem
        exact feed_escapedText mark c hc
    | expr text =>
        have htext := (h _ hsegment).line.feed
        simp [segmentText, htext] at hmem
  have htext : ∀ mark, (String.ofList ('f' :: mark :: (segments.flatMap (segmentText mark) ++
      [mark]))).toList = 'f' :: (mark :: segments.flatMap (segmentText mark) ++ [mark]) := by simp
  rw [interpolatedText]
  split
  · refine trim_enclosed (htext _) (by simp [hfeed]) (by decide) (by decide) fun hbare => ?_
    simp [isBare] at hbare
  · rename_i hquote
    refine trim_enclosed (htext _) (by simp [hfeed]) (by decide) (by decide) fun hbare => ?_
    have hnone : '"' ∉ segments.flatMap (segmentText '"') := by
      intro hmem
      obtain ⟨segment, hsegment, hmem⟩ := List.mem_flatMap.mp hmem
      cases segment with
      | text value =>
          obtain ⟨c, hc, hmem⟩ := List.mem_flatMap.mp hmem
          have hslash : '\\' ∈ segments.flatMap (segmentText '"') := List.mem_flatMap.mpr
            ⟨_, hsegment, List.mem_flatMap.mpr ⟨c, hc, slash_of_mark_mem hmem⟩⟩
          simpa using List.all_eq_true.mp hbare '\\' (.tail _ hslash)
      | expr text =>
          refine hquote (List.any_eq_true.mpr ⟨_, hsegment, ?_⟩)
          simpa [segmentText, hasQuote] using hmem
    have hf : Embedding.step (0, none) 'f' = some (0, none) := rfl
    rw [htext, Embedding.passes, Embedding.scan_cons, hf, Option.bind_some, List.cons_append,
      Embedding.scan_quoted (by simp) hnone]
    rfl

theorem trim_templateText (h : ∀ segment ∈ segments, SmoothSegment segment) :
    IsTrim (templateText segments) := by
  unfold templateText
  split
  · exact trim_quote _
  · exact trim_interpolatedText h

theorem trim_wrap (needed : Nat) (e : Expr) (h : IsTrim text) : IsTrim (wrap needed e text) := by
  have hopen : IsTidy "(" := by decide
  unfold wrap Expr.wrap
  split
  · exact (hopen.append h.smooth).ended (by decide)
  · exact h

end Texts

section Expressions

variable {template : String → String} {e object : Expr} {args : List Expr} {pos : Pos}

-- An expression that is written tidily, as are all expressions in it.
def TidyExpr (template : String → String) (e : Expr) : Prop :=
  e.all (fun e => decide (IsTrim (writeExprWith template e))) = true

theorem tidyExpr_iff :
    TidyExpr template e ↔
      IsTrim (writeExprWith template e) ∧ ∀ child ∈ e.children, TidyExpr template child := by
  rw [TidyExpr, Expr.all_iff, decide_eq_true_iff]
  rfl

theorem TidyExpr.text (h : TidyExpr template e) : IsTrim (writeExprWith template e) :=
  (tidyExpr_iff.mp h).1

theorem TidyExpr.child {child : Expr} (h : TidyExpr template e) (hchild : child ∈ e.children) :
    TidyExpr template child :=
  (tidyExpr_iff.mp h).2 child hchild

theorem TidyExpr.wrapped (h : TidyExpr template e) (needed : Nat) :
    IsTrim (wrap needed e (writeExprWith template e)) := trim_wrap needed e h.text

theorem smooth_writeExprs {exprs : List Expr} (h : ∀ e ∈ exprs, TidyExpr template e) :
    ∀ text ∈ writeExprsWith template exprs, IsSmooth text := by
  induction exprs with
  | nil => simp [writeExprsWith]
  | cons first rest ih =>
      obtain ⟨hfirst, hrest⟩ := List.forall_mem_cons.mp h
      rw [writeExprsWith]
      exact List.forall_mem_cons.mpr ⟨hfirst.text.smooth, ih hrest⟩

theorem smooth_writeOption {found : Option Expr} (h : ∀ e ∈ found.toList, TidyExpr template e) :
    IsSmooth (writeOptionWith template found) := by
  cases found with
  | none =>
      rw [writeOptionWith]
      decide
  | some e => exact (h e (by simp)).text.smooth

theorem smooth_compareSymbol (op : CompareOp) : IsSmooth (compareSymbol op) := by
  cases op <;> decide

theorem smooth_binarySymbol (op : BinaryOp) : IsSmooth (binarySymbol op) := by
  cases op <;> decide

theorem flush_writeLinks {links : List (Comparison Expr)}
    (h : ∀ e ∈ links.map (·.right), TidyExpr template e) :
    ∀ text ∈ writeLinksWith template links, IsFlush text := by
  induction links with
  | nil => simp [writeLinksWith]
  | cons first rest ih =>
      obtain ⟨op, right⟩ := first
      obtain ⟨hright, hrest⟩ := List.forall_mem_cons.mp h
      have hsign : IsSmooth (" " ++ compareSymbol op ++ " ") :=
        (IsSmooth.append (by decide) (smooth_compareSymbol op)).append (by decide)
      rw [writeLinksWith]
      exact List.forall_mem_cons.mpr ⟨hsign.ended (hright.wrapped _).toIsFlush, ih hrest⟩

theorem smooth_writeEntries {entries : List (DictEntry Expr)}
    (hkeys : ∀ text ∈ entries.filterMap (·.key.number?), Number.isLiteral text.toList = true)
    (h : ∀ e ∈ entries.flatMap (·.exprs), TidyExpr template e) :
    ∀ text ∈ writeEntriesWith template entries, IsSmooth text := by
  have hcolon : IsSmooth ": " := by decide
  induction entries with
  | nil => simp [writeEntriesWith]
  | cons first rest ih =>
      obtain ⟨key, value⟩ := first
      obtain ⟨hfirst, hrest⟩ := List.forall_mem_append.mp h
      cases key with
      | literal text =>
          have hvalue := (hfirst value (by simp [DictEntry.exprs])).text.smooth
          rw [writeEntriesWith]
          refine List.forall_mem_cons.mpr ⟨?_, ih hkeys hrest⟩
          exact ((trim_quote text).smooth.append hcolon).append hvalue
      | number text =>
          obtain ⟨htext, hkeys⟩ := List.forall_mem_cons.mp hkeys
          have hvalue := (hfirst value (by simp [DictEntry.exprs])).text.smooth
          rw [writeEntriesWith]
          refine List.forall_mem_cons.mpr ⟨?_, ih hkeys hrest⟩
          have htext := trim_of_isUnbroken (Number.isUnbroken_of_isLiteral htext)
          exact (htext.smooth.append hcolon).append hvalue
      | computed key =>
          have hkey := (hfirst key (.head _)).text.smooth
          have hvalue := (hfirst value (by simp [DictEntry.exprs])).text.smooth
          rw [writeEntriesWith]
          exact List.forall_mem_cons.mpr ⟨(hkey.append hcolon).append hvalue, ih hkeys hrest⟩

theorem smooth_writeSegments {segments : List (Segment Expr)}
    (h : ∀ e ∈ segments.filterMap (·.expr?), TidyExpr template e) :
    ∀ segment ∈ writeSegmentsWith template segments, SmoothSegment segment := by
  induction segments with
  | nil => simp [writeSegmentsWith]
  | cons first rest ih =>
      cases first with
      | text value =>
          rw [writeSegmentsWith]
          exact List.forall_mem_cons.mpr ⟨trivial, ih h⟩
      | expr value =>
          obtain ⟨hvalue, hrest⟩ := List.forall_mem_cons.mp h
          rw [writeSegmentsWith]
          exact List.forall_mem_cons.mpr ⟨hvalue.text.smooth, ih hrest⟩

-- Texts in brackets behind another.
theorem IsTidy.applied {text : String} (h : IsTidy text) (hargs : ∀ e ∈ args, TidyExpr template e) :
    IsTrim (text ++ ("(" ++ ", ".intercalate (writeExprsWith template args) ++ ")")) :=
  h.ended ((IsSmooth.append (by decide) (smooth_listed (smooth_writeExprs hargs))).ended
    (by decide))

-- What stands in an index or a slice behind a text.
theorem IsTidy.indexed {text inner : String} (h : IsTidy text) (hinner : IsSmooth inner) :
    IsTrim (text ++ "[" ++ inner ++ "]") :=
  ((h.append (by decide)).append hinner).ended (by decide)

-- Two operands with an operator between them.
theorem TidyExpr.joined {left right : Expr} (hleft : TidyExpr template left)
    (hright : TidyExpr template right) {sign : String} (hsign : IsSmooth sign) (first second : Nat) :
    IsTrim (wrap first left (writeExprWith template left) ++ sign ++
      wrap second right (writeExprWith template right)) :=
  ((hleft.wrapped first).append hsign).ended (hright.wrapped second).toIsFlush

-- A call, which is written as an operator, an index or a slice if it is that of some members.
theorem trim_call {callee : Expr} (hcallee : TidyExpr template callee)
    (hargs : ∀ e ∈ args, TidyExpr template e) :
    IsTrim (writeExprWith template (.call callee args pos)) := by
  have hcalled := (hcallee.wrapped Level.atom).applied hargs
  rw [writeExprWith.eq_def]
  dsimp only
  split
  · exact IsTidy.applied (by decide) hargs
  · rename_i object name place
    have hobject : TidyExpr template object := hcallee.child (.head _)
    split
    · rename_i element
      exact (hargs element (by simp)).joined hobject (by decide) _ _
    · rename_i index
      exact (hobject.wrapped _).indexed (hargs index (by simp)).text.smooth
    · exact (hobject.wrapped _).ended (by decide)
    · rename_i start
      have hstart := (hargs start (by simp)).text.smooth
      exact (((hobject.wrapped _).append (by decide)).append hstart).ended (by decide)
    · rename_i start stop
      have hstart := (hargs start (by simp)).text.smooth
      have hstop := (hargs stop (by simp)).text.smooth
      exact (((((hobject.wrapped _).append (by decide)).append hstart).append (by decide)).append
        hstop).ended (by decide)
    · rename_i left right place
      have hquotient := hargs _ (.head _)
      split
      · exact (hquotient.child (.head _)).joined
          (hquotient.child (.tail _ (.head _))) (by decide) _ _
      · exact hcalled
    · split
      · exact IsTidy.applied (by decide) hargs
      · exact hcalled
    · exact hcalled
  · exact hcalled

-- A negation, which is written with `not in` if it is that of a test for an element.
theorem trim_not {operand : Expr} (h : TidyExpr template operand) :
    IsTrim (writeExprWith template (.unary .not operand pos)) := by
  have hnot : IsTrim ("not " ++ wrap Level.negation operand (writeExprWith template operand)) :=
    IsTidy.ended (by decide) (h.wrapped _).toIsFlush
  rw [writeExprWith.eq_def]
  dsimp only
  split
  · rename_i container name place element place'
    split
    · have hmember : TidyExpr template (.member container name place) :=
        h.child (.head _)
      exact (h.child (.tail _ (.head _))).joined (hmember.child (.head _))
        (by decide) _ _
    · exact hnot
  · exact hnot

theorem trim_member {name : String} (h : TidyExpr template object)
    (hname : isUnbroken name = true) :
    IsTrim (writeExprWith template (.member object name pos)) := by
  have hname := (trim_of_isUnbroken hname).toIsFlush
  rw [writeExprWith.eq_def]
  dsimp only
  split
  · exact IsTidy.ended (by decide) hname
  · split
    · exact (IsTidy.append (by decide) h.text.smooth).ended (by decide)
    · exact (h.wrapped _).ended (by decide)
    · exact ((h.wrapped _).append (by decide)).ended hname

theorem trim_slice {start stop step : Option Expr} (hobject : TidyExpr template object)
    (hstart : ∀ e ∈ start.toList, TidyExpr template e)
    (hstop : ∀ e ∈ stop.toList, TidyExpr template e)
    (hstep : ∀ e ∈ step.toList, TidyExpr template e) :
    IsTrim (writeExprWith template (.slice object start stop step pos)) := by
  have hbounds : IsTidy (wrap Level.atom object (writeExprWith template object) ++ "[" ++
      writeOptionWith template start ++ ":" ++ writeOptionWith template stop) :=
    ((((hobject.wrapped _).append (by decide)).append (smooth_writeOption hstart)).append
      (by decide)).append (smooth_writeOption hstop)
  rw [writeExprWith.eq_def]
  dsimp only
  split
  · exact hbounds.ended (by decide)
  · rename_i step
    have hstep := (hstep step (by simp)).text.smooth
    exact ((hbounds.append (by decide)).append hstep).ended (by decide)

variable (htemplate : ∀ raw, Quoted.template raw.toList = none → IsTrim (template raw))

include htemplate

-- One node whose names are not broken and whose literals are proper.
theorem trim_node (hwords : ∀ text ∈ e.words, isUnbroken text = true)
    (hliterals : ∀ said ∈ e.literals, Braced.isProper said = true)
    (hchildren : ∀ child ∈ e.children, TidyExpr template child) :
    IsTrim (writeExprWith template e) := by
  cases e with
  | binary op left right pos =>
      have hleft := hchildren left (.head _)
      have hright := hchildren right (.tail _ (.head _))
      rw [writeExprWith.eq_def]
      dsimp only
      split
      · exact hleft.joined hright (by decide) _ _
      · have hfront := ((hleft.wrapped (binaryLevel op)).append (by decide : IsSmooth " ")).append
          (smooth_binarySymbol op)
        exact (hfront.append (by decide)).ended (hright.wrapped _).toIsFlush
  | unary op operand pos =>
      have hoperand := hchildren operand (.head _)
      cases op with
      | not => exact trim_not hoperand
      | negate | plus =>
          rw [writeExprWith]
          exact IsTidy.ended (by decide) (hoperand.wrapped _).toIsFlush
  | logical op left right pos =>
      have hleft := hchildren left (.head _)
      have hright := hchildren right (.tail _ (.head _))
      cases op <;> rw [writeExprWith] <;> exact hleft.joined hright (by decide) _ _
  | compare left comparisons pos =>
      obtain ⟨hleft, hright⟩ := List.forall_mem_cons.mp hchildren
      rw [writeExprWith]
      exact trim_join (hleft.wrapped _) (flush_writeLinks hright)
  | conditional test consequent alternate pos =>
      have htest := hchildren test (.head _)
      have hconsequent := hchildren consequent (.tail _ (.head _))
      have halternate := hchildren alternate (.tail _ (.tail _ (.head _)))
      rw [writeExprWith]
      exact ((hconsequent.joined htest (by decide) _ _).append (by decide)).ended
        (halternate.wrapped _).toIsFlush
  | membership element container negated pos =>
      have helement := hchildren element (.head _)
      have hcontainer := hchildren container (.tail _ (.head _))
      rw [writeExprWith]
      exact helement.joined hcontainer (by cases negated <;> decide) _ _
  | index object index pos =>
      have hobject := hchildren object (.head _)
      have hindex := hchildren index (.tail _ (.head _))
      rw [writeExprWith]
      exact (hobject.wrapped _).indexed hindex.text.smooth
  | slice object start stop step pos =>
      simp only [Expr.children, List.forall_mem_cons, List.forall_mem_append] at hchildren
      obtain ⟨hobject, ⟨hstart, hstop⟩, hstep⟩ := hchildren
      exact trim_slice hobject hstart hstop hstep
  | member object name pos =>
      exact trim_member (hchildren object (.head _))
        (hwords name (by simp [Expr.words]))
  | call callee args pos =>
      obtain ⟨hcallee, hargs⟩ := List.forall_mem_cons.mp hchildren
      exact trim_call hcallee hargs
  | construct callee args pos =>
      obtain ⟨hcallee, hargs⟩ := List.forall_mem_cons.mp hchildren
      rw [writeExprWith]
      exact (((hcallee.wrapped _).append (by decide)).append
        (smooth_listed (smooth_writeExprs hargs))).ended (by decide)
  | list elements pos =>
      rw [writeExprWith]
      exact (IsTidy.append (by decide)
        (smooth_listed (smooth_writeExprs hchildren))).ended (by decide)
  | dict entries pos =>
      rw [writeExprWith]
      have hkeys : ∀ text ∈ entries.filterMap (·.key.number?), Number.isLiteral text.toList = true :=
        fun text htext => hliterals _ (List.mem_map_of_mem htext)
      exact trim_braced (smooth_listed (smooth_writeEntries hkeys hchildren))
  | interpolated segments pos =>
      rw [writeExprWith]
      exact trim_interpolatedText (smooth_writeSegments hchildren)
  | template raw pos =>
      have hraw := hliterals (.template, raw) (by simp [Expr.literals])
      exact htemplate raw (Option.isNone_iff_eq_none.mp hraw)
  | number literal pos =>
      have hliteral := hliterals (.number, literal) (by simp [Expr.literals])
      exact trim_of_isUnbroken (Number.isUnbroken_of_isLiteral hliteral)
  | string value pos => exact trim_quote value
  | boolean value pos =>
      rw [writeExprWith]
      cases value <;> decide
  | null pos | this pos | super pos =>
      rw [writeExprWith]
      decide
  | var name pos => exact trim_of_isUnbroken (hwords name (by simp [Expr.words]))

theorem tidyExpr_of_worded (h : e.Worded isUnbroken Braced.isProper) : TidyExpr template e := by
  induction e using Expr.children_induct with
  | step e ih =>
      obtain ⟨⟨hwords, hliterals⟩, hchildren⟩ := Expr.worded_iff.mp h
      have hinner : ∀ child ∈ e.children, TidyExpr template child := fun child hchild =>
        ih child hchild (hchildren child hchild)
      exact tidyExpr_iff.mpr ⟨trim_node htemplate hwords hliterals hinner, hinner⟩

omit htemplate

theorem trim_writeTemplateWithin (limit : Nat) {raw : String}
    (h : Quoted.template raw.toList = none) : IsTrim (writeTemplateWithin limit raw) := by
  induction limit generalizing raw with
  | zero => exact trim_quote raw
  | succ limit ih =>
      refine trim_templateText (smooth_writeSegments fun e he => tidyExpr_of_worded (fun _ => ih) ?_)
      exact (Braced.worded_templateSegments h e he).1.1

theorem trim_writeExpr (h : e.Worded isUnbroken Braced.isProper) : IsTrim (writeExpr e) :=
  (tidyExpr_of_worded (fun raw => trim_writeTemplateWithin raw.length) h).text

end Expressions

end Diglot.Indented
