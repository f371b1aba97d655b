import Diglot.Proofs.Indented.Laid
import Diglot.Proofs.Indented.Written

namespace Diglot.Indented

open Diglot.Parser TokenStream
open Token (op kw word)

-- The expressions inside interpolated strings are read by their own reader.
variable {embedded : Embedder} {width size : Nat} [Fact (0 < width)]
  {w : Written}

section Starts

variable {tokens : List Token}

-- An expression starts as a statement may.
theorem leads_of_starts (h : grammar.Starts 1 tokens) : tokens.head?.any leads = true := by
  obtain ⟨⟨kind, lexeme, pos⟩, more, rfl, -, hbegins⟩ := h
  cases kind with
  | keyword =>
      simp only [grammar, List.contains_eq_mem, List.mem_cons, List.not_mem_nil, or_false,
        Bool.or_eq_true, decide_eq_true_eq, Bool.and_eq_true, beq_iff_eq] at hbegins
      rcases hbegins with (rfl | rfl | rfl | rfl) | ⟨-, rfl⟩ <;> rfl
  | newline | indent | dedent | eof => simp [grammar] at hbegins
  | _ => rfl

-- What starts with an expression is read as a simple statement, unless it starts with `print`.
theorem anyStatement_simple (h : grammar.Starts 1 tokens)
    (hprint : tokens.head?.any (·.isKeyword "print") = false) (expression : Parser Expr)
    (inner : Parser Stmt) (limit : Nat) (rest : List Token) (blocks : Blocks) :
    anyStatement expression inner limit (ahead (tokens ++ rest) blocks) =
      simpleStatement expression limit (ahead (tokens ++ rest) blocks) := by
  obtain ⟨⟨kind, lexeme, pos⟩, more, rfl, -, hbegins⟩ := h
  rw [anyStatement, bind_of_ok current_run, List.cons_append, current_ahead_cons]
  cases kind with
  | keyword =>
      simp only [grammar, List.contains_eq_mem, List.mem_cons, List.not_mem_nil, or_false,
        Bool.or_eq_true, decide_eq_true_eq, Bool.and_eq_true, beq_iff_eq] at hbegins
      rcases hbegins with (rfl | rfl | rfl | rfl) | ⟨-, rfl⟩
      · rfl
      · rfl
      · rfl
      · simp [Token.isKeyword, Token.is] at hprint
      · rfl
  | _ => rfl

end Starts

theorem Sound.reads (h : Sound embedded w) (hsize : w.tokens.length ≤ size) :
    grammar.Whole (expression embedded size) w.tokens w.value := Diglot.Reads.whole h.toReads hsize

-- An expression is read up to a token that does not carry it on.
theorem Sound.run (h : Sound embedded w) (size : Nat) (next : Token)
    (hsize : w.tokens.length ≤ size) (hnext : grammar.level next = 0) (rest : List Token)
    (blocks : Blocks) :
    expression embedded size (ahead (w.tokens ++ next :: rest) blocks) =
      .ok (w.value, ahead (next :: rest) blocks) :=
  (h.reads hsize).reads (next :: rest) blocks (Nat.lt_one_iff.mpr hnext)

section Lines

variable {w target value : Written} {tokens : List Token} {stmt : Stmt} {text : List Char}
  {phrase : Phrase} {parts : List Written}

-- A line that is a statement.
theorem says_line (phrase : Phrase) (hopens : phrase.text.toList.head?.any opensText = true)
    (hlexes : scanner.LexesAs phrase.text.toList tokens) (hleads : tokens.head?.any leads = true)
    (hreads : ∀ {size limit : Nat} (inner : Parser Stmt) (rest : List Token)
      (blocks : Blocks), tokens.length ≤ limit → limit < size →
        anyStatement (expression embedded size) inner (limit + 1)
            (ahead (tokens ++ .newline :: rest) blocks) =
          .ok (stmt, ahead rest blocks)) : Says embedded width (.phrase phrase) [stmt] := by
  refine ⟨[⟨fun _ => tokens ++ [.newline], stmt⟩], .single (lays_phrase hopens hlexes) ?_, rfl⟩
  constructor
  · intro depth
    obtain ⟨first, more, rfl, -⟩ := exists_of_leads hleads
    exact hleads
  · intro depth size limit rest widths hlength hsize _
    simp only [List.length_append, List.length_singleton] at hlength
    obtain ⟨limit, rfl⟩ : ∃ less, limit = less + 1 := ⟨limit - 1, by omega⟩
    rw [List.append_assoc, List.singleton_append]
    exact hreads _ rest (some widths) (by omega) hsize

-- The statements that are a single word.
theorem says_word {keyword : String} {node : Pos → Stmt}
    (h : (keyword, node) ∈ [("pass", Stmt.pass), ("break", .breaks), ("continue", .continues)]) :
    Says embedded width (.line keyword) [node .start] := by
  simp only [List.mem_cons, Prod.mk.injEq, List.not_mem_nil, or_false] at h
  have hword : isWord keyword.toList = true ∧ keyword ∈ keywords ∧
      keyword.toList.head?.any opensText = true ∧ leads (kw keyword) = true := by
    rcases h with ⟨rfl, -⟩ | ⟨rfl, -⟩ | ⟨rfl, -⟩ <;> decide
  have hlexes := lexesAs_keyword keyword hword.1 hword.2.1
  apply says_line (.plain keyword) hword.2.2.1 hlexes hword.2.2.2
  intro size limit inner rest blocks _ _
  have hread : anyStatement (expression embedded size) inner (limit + 1)
      (ahead (kw keyword :: .newline :: rest) blocks) =
        keywordStatement node (ahead (kw keyword :: .newline :: rest) blocks) := by
    rcases h with ⟨rfl, rfl⟩ | ⟨rfl, rfl⟩ | ⟨rfl, rfl⟩ <;> rfl
  rw [List.singleton_append, hread, keywordStatement, bind_of_ok (advance_kw keyword),
    bind_of_ok endOfStatement_newline]
  rfl

theorem says_return : Says embedded width (.line "return") [.returns none .start] := by
  have hlexes := lexesAs_keyword "return" (by decide) (by decide)
  apply says_line (.plain "return") (by decide) hlexes (by decide)
  intro size limit inner rest blocks _ _
  change returnStatement (expression embedded size) (ahead (kw "return" :: .newline :: rest) blocks) = _
  rw [returnStatement, bind_of_ok position_run, bind_of_ok (expectKeyword_kw "return"),
    bind_of_ok (check_run .newline), bind_of_ok (check_run .dedent), bind_of_ok isAtEnd_run]
  change (endOfStatement >>= fun _ => pure (Stmt.returns none .start)) _ = _
  rw [bind_of_ok endOfStatement_newline, pure_run]

-- A keyword and a blank in front of a text.
theorem lexesAs_behind (keyword : String)
    (hkeyword : isWord keyword.toList = true ∧ keyword ∈ keywords)
    (h : scanner.LexesAs text tokens) :
    scanner.LexesAs (keyword.toList ++ ' ' :: text) (kw keyword :: tokens) := by
  intro state rest more hrest hlexes
  have hjoined := joins_keyword keyword hkeyword.1 hkeyword.2 (h hrest hlexes)
  rwa [List.append_assoc, List.cons_append]

theorem says_returned (h : Sound embedded w)
    (htext : phrase.text.toList = "return".toList ++ ' ' :: w.text) :
    Says embedded width (.phrase phrase) [.returns (some w.value) .start] := by
  have hlexes := lexesAs_behind "return" (by decide) h.lexes
  rw [← htext] at hlexes
  apply says_line phrase (by rw [htext]; rfl) hlexes rfl
  intro size limit inner rest blocks hlength hsize
  have hstarts := h.starts.mono h.ranked
  obtain ⟨first, more, htokens, hnewline, hdedent, hend⟩ :=
    exists_of_leads (leads_of_starts hstarts)
  rw [List.length_cons] at hlength
  have hread := h.run size .newline (by omega) rfl rest blocks
  change returnStatement (expression embedded size)
    (ahead (kw "return" :: (w.tokens ++ .newline :: rest)) blocks) = _
  have hcheck : ∀ kind, first.kind ≠ kind →
      ((ahead (w.tokens ++ .newline :: rest) blocks).current.kind == kind) = false := by
    intro kind hkind
    rw [htokens]
    simpa using hkind
  rw [returnStatement, bind_of_ok position_run, bind_of_ok (expectKeyword_kw "return"),
    bind_of_ok (check_run .newline), bind_of_ok (check_run .dedent), bind_of_ok isAtEnd_run,
    TokenStream.isAtEnd, hcheck _ hnewline, hcheck _ hdedent, hcheck _ hend]
  simp only [Bool.or_self, Bool.false_eq_true, if_false]
  rw [bind_of_ok hread]
  change (endOfStatement >>= fun _ => pure (Stmt.returns (some w.value) .start)) _ = _
  rw [bind_of_ok endOfStatement_newline, pure_run]

-- A simple statement starts with an expression that does not start with `print`.
structure Simple (embedded : Embedder) (w : Written) : Prop where
  sound : Sound embedded w
  unprinted : w.tokens.head?.any (·.isKeyword "print") = false

-- A line that starts with an expression is read as what stands behind the expression says.
theorem says_simple (text : List Char) (tokens : List Token) (h : Simple embedded w)
    (htext : phrase.text.toList = w.text ++ text)
    (hlexes : scanner.LexesAs (w.text ++ text) (w.tokens ++ tokens))
    (hreads : ∀ {size limit : Nat} (rest : List Token) (blocks : Blocks),
      (w.tokens ++ tokens).length ≤ limit → limit < size →
        simpleStatement (expression embedded size) (limit + 1)
            (ahead (w.tokens ++ (tokens ++ .newline :: rest)) blocks) =
          .ok (stmt, ahead rest blocks)) : Says embedded width (.phrase phrase) [stmt] := by
  have hstarts := h.sound.starts.mono h.sound.ranked
  have hopens : (w.text ++ text).head?.any opensText = true :=
    h.sound.opens_append (Nat.le_refl w.rank) text
  rw [← htext] at hlexes hopens
  apply says_line phrase hopens hlexes (leads_of_starts (hstarts.append (Nat.le_refl 1)))
  intro size limit inner rest blocks hlength hsize
  rw [List.append_assoc, anyStatement_simple hstarts h.unprinted]
  exact hreads rest blocks hlength hsize

theorem says_expr (h : Simple embedded w) (htext : phrase.text.toList = w.text) :
    Says embedded width (.phrase phrase) [.expr w.value .start] := by
  have hlexes : scanner.LexesAs (w.text ++ []) (w.tokens ++ []) := by
    rw [List.append_nil, List.append_nil]
    exact h.sound.lexes
  apply says_simple [] [] h (by rw [htext, List.append_nil]) hlexes
  intro size limit rest blocks hlength hsize
  rw [List.append_nil] at hlength
  have hread := h.sound.run size .newline (by omega) rfl rest blocks
  have hstarts := h.sound.starts.mono h.sound.ranked
  rw [List.nil_append, simpleStatement, bind_of_ok position_run, hstarts.pos, bind_of_ok hread,
    bind_of_ok current_run]
  change (endOfStatement >>= fun _ => pure (Stmt.expr w.value .start)) _ = _
  rw [bind_of_ok endOfStatement_newline, pure_run]

-- Further targets of an assignment and its value, each behind its `=`.
def assignedText (parts : List Written) : List Char :=
  parts.flatMap fun part => ' ' :: ("=".toList ++ ' ' :: part.text)

theorem lexesAs_assigned (h : scanner.LexesAs text tokens)
    (hparts : ∀ part ∈ parts, Sound embedded part) :
    scanner.LexesAs (text ++ assignedText parts) (tokens ++ assignedTokens Written.tokens parts) := by
  induction parts generalizing text tokens with
  | nil => simpa [assignedText, assignedTokens] using h
  | cons first rest ih =>
      obtain ⟨hfirst, hrest⟩ := List.forall_mem_cons.mp hparts
      have hjoined := h.join (ih hfirst.lexes hrest) (joins_operator "=" (by decide))
      simpa [assignedText, assignedTokens] using hjoined

theorem length_le_assignedTokens {part : Written} (h : part ∈ parts) :
    part.tokens.length ≤ (assignedTokens Written.tokens parts).length :=
  Nat.le_of_succ_le (length_le_length_flatMap h fun part => op "=" :: part.tokens)

-- A chain of assignments to what may be assigned to.
theorem says_assign {targets : List Written} (h : Simple embedded w)
    (htarget : w.value.isAssignable = true)
    (htargets : ∀ target ∈ targets, Sound embedded target ∧ target.value.isAssignable = true)
    (hvalue : Sound embedded value)
    (htext : phrase.text.toList = w.text ++ assignedText (targets ++ [value])) :
    Says embedded width (.phrase phrase)
      [.assign (w.value :: targets.map Written.value) (some value.value) none .start] := by
  have hparts : ∀ part ∈ targets ++ [value], Sound embedded part := by
    simpa [or_imp, forall_and] using ⟨fun part hpart => (htargets part hpart).1, hvalue⟩
  apply says_simple _ _ h htext (lexesAs_assigned h.sound.lexes hparts)
  intro size limit rest blocks hlength hsize
  rw [List.length_append] at hlength
  have hstarts := h.sound.starts.mono h.sound.ranked
  have hwholes : ∀ part ∈ targets ++ [value],
      grammar.Whole (expression embedded size) part.tokens part.value := by
    intro part hpart
    have hle := length_le_assignedTokens hpart
    exact (hparts part hpart).reads (by omega)
  obtain ⟨more, hnext⟩ : ∃ more,
      assignedTokens Written.tokens (targets ++ [value]) ++ .newline :: rest = op "=" :: more := by
    cases targets <;> exact ⟨_, rfl⟩
  have hread := h.sound.run size (op "=") (by omega) rfl more blocks
  have hrounds : targets.length < limit + 1 := by
    have hle := length_assignedTokens_le Written.tokens (targets ++ [value])
    rw [List.length_append, List.length_singleton] at hle
    omega
  have hequals : grammar.level (op "=") = 0 := rfl
  have hlevel : grammar.level (ahead (.newline :: rest) blocks).current = 0 := rfl
  have hassign := assignment_run hequals htarget (fun target hmem => (htargets target hmem).2)
    hwholes hlevel rfl hrounds .start
  rw [hnext] at hassign ⊢
  rw [simpleStatement, bind_of_ok position_run, hstarts.pos, bind_of_ok hread,
    bind_of_ok current_run]
  change (assignment (expression embedded size) (limit + 1) w.value .start >>= fun found =>
    endOfStatement >>= fun _ => pure found) _ = _
  rw [bind_of_ok hassign, bind_of_ok endOfStatement_newline, pure_run]

-- The operator of an augmented assignment.
def augmentedSymbol (op : BinaryOp) : String := binarySymbol op ++ "="

theorem find_augmentedOps (op : BinaryOp) :
    augmentedOps.find? (fun entry => (Token.op (augmentedSymbol op)).isOperator entry.1) =
      some (augmentedSymbol op, op) := by
  cases op <;> rfl

theorem says_augmented (h : Simple embedded w) (htarget : w.value.isAssignable = true)
    (hvalue : Sound embedded value) (op : BinaryOp) (htext : phrase.text.toList =
      w.text ++ ' ' :: ((augmentedSymbol op).toList ++ ' ' :: value.text)) :
    Says embedded width (.phrase phrase) [.augAssign w.value op value.value .start] := by
  have hjoins : scanner.Joins (augmentedSymbol op).toList (.op (augmentedSymbol op)) :=
    joins_operator _ (by cases op <;> decide)
  have hlexes := Scanner.LexesAs.join h.sound.lexes hvalue.lexes hjoins
  apply says_simple _ _ h htext hlexes
  intro size limit rest blocks hlength hsize
  rw [List.length_append, List.length_cons] at hlength
  have hlevel : grammar.level (.op (augmentedSymbol op)) = 0 := by cases op <;> rfl
  have hread := h.sound.run size _ (by omega) hlevel (value.tokens ++ .newline :: rest) blocks
  have hnewline : grammar.level (ahead (.newline :: rest) blocks).current = 0 := rfl
  have haug := augmented_run htarget op (augmentedSymbol op)
    (hvalue.reads (show value.tokens.length ≤ size by omega)) hnewline .start
  have hequals : (Token.op (augmentedSymbol op)).isOperator "=" = false := by cases op <;> rfl
  have hstarts := h.sound.starts.mono h.sound.ranked
  rw [List.cons_append, simpleStatement, bind_of_ok position_run, hstarts.pos, bind_of_ok hread,
    bind_of_ok current_run, current_ahead_cons, if_neg (by rw [hequals]; simp), find_augmentedOps]
  change (augmented (expression embedded size) op w.value .start >>= fun found =>
    endOfStatement >>= fun _ => pure found) _ = _
  rw [bind_of_ok haug, bind_of_ok endOfStatement_newline, pure_run]

-- A statement that prints.
theorem says_print {args : List Written} (hargs : ∀ arg ∈ args, Sound embedded arg)
    (htext : phrase.text.toList =
      "print".toList ++ '(' :: (commaTexts (args.map Written.text) ++ [')'])) :
    Says embedded width (.phrase phrase) [.print (args.map Written.value) .start] := by
  have hprint : scanner.LexesAs "print".toList [kw "print"] :=
    lexesAs_keyword "print" (by decide) (by decide)
  have hlist := (Scanner.lexesAs_commas fun arg harg => (hargs arg harg).lexes).enclosed '(' ')'
    (by decide) (by decide)
  have hlexes := hprint.append hlist fun _ _ => ends_cons (by decide) _
  rw [← htext] at hlexes
  apply says_line phrase (by rw [htext]; rfl) hlexes rfl
  intro size limit inner rest blocks hlength hsize
  simp only [List.length_append, List.length_cons, List.length_nil] at hlength
  have hwholes : ∀ arg ∈ args, grammar.Whole (expression embedded size) arg.tokens arg.value := by
    intro arg harg
    have hle := length_le_length_commas harg Written.tokens
    exact (hargs arg harg).reads (by omega)
  have hrounds := length_parts_le fun arg harg => (hargs arg harg).length_pos
  have hread := Grammar.enclosed_wholes ")" (by decide) ⟨rfl, rfl⟩ hwholes
    (show args.length < limit + 1 by omega) (.newline :: rest) blocks
  have htokens : [kw "print"] ++ op "(" :: (commas (args.map Written.tokens) ++ [op ")"]) ++
      .newline :: rest = kw "print" :: op "(" :: (commas (args.map Written.tokens) ++
        op ")" :: .newline :: rest) := by simp
  rw [htokens]
  change printStatement (expression embedded size) (limit + 1) _ = _
  rw [printStatement, bind_of_ok position_run, bind_of_ok (expectKeyword_kw "print"),
    bind_of_ok (expectOperator_op "("), bind_of_ok hread, bind_of_ok endOfStatement_newline]
  rfl

end Lines

section Blocks

variable {w : Written} {phrase : Phrase} {body : Fragment} {values : List Stmt}

-- A line with a colon at its end and a block behind it, which are a statement.
theorem says_block {text : List Char} {tokens : List Token} {stmt : Stmt}
    (hopens : text.head?.any opensText = true) (hlexes : scanner.LexesAs text tokens)
    (htext : phrase.text.toList = text ++ [':']) (hleads : tokens.head?.any leads = true)
    (hbody : SaysBlock embedded width body values)
    (hreads : ∀ {size limit : Nat} (inner rest : List Token) (blocks : Blocks),
      tokens.length ≤ limit → limit < size →
        (∀ rest, block (statement (expression embedded size) limit) (limit + 1)
          (ahead (op ":" :: (inner ++ rest)) blocks) = .ok (values, ahead rest blocks)) →
        anyStatement (expression embedded size) (statement (expression embedded size) limit)
            (limit + 1) (ahead (tokens ++ op ":" :: (inner ++ rest)) blocks) =
          .ok (stmt, ahead rest blocks)) :
    Says embedded width (.phrase phrase ++ body.indent) [stmt] := by
  obtain ⟨inner, hblock⟩ := hbody
  refine ⟨[⟨fun depth => tokens ++ blockTokens width depth (inner (depth + 1)), stmt⟩],
    .single (lays_block hopens hlexes htext hblock.lays) ⟨?_, ?_⟩, rfl⟩
  · intro depth
    obtain ⟨first, more, rfl, -⟩ := exists_of_leads hleads
    exact hleads
  · intro depth size limit rest widths hlength hsize _
    simp only [blockTokens, List.length_append, List.length_cons, List.length_nil] at hlength
    obtain ⟨limit, rfl⟩ : ∃ less, limit = less + 1 := ⟨limit - 1, by omega⟩
    have hread : ∀ rest, _ := fun rest =>
      hblock.reads depth rest widths (by omega) (Nat.le_of_lt hsize)
    simp only [blockTokens, List.cons_append] at hread ⊢
    rw [List.append_assoc, statement]
    exact hreads _ rest (some widths) (by omega) hsize hread

theorem says_while (h : Sound embedded w)
    (htext : phrase.text.toList = "while".toList ++ ' ' :: w.text ++ [':'])
    (hbody : SaysBlock embedded width body values) :
    Says embedded width (.phrase phrase ++ body.indent) [.whileDo w.value values .start] := by
  apply says_block rfl (lexesAs_behind "while" (by decide) h.lexes) htext rfl hbody
  intro size limit inner rest blocks hlength hsize hblock
  rw [List.length_cons] at hlength
  have hread := h.run size (op ":") (by omega) rfl (inner ++ rest) blocks
  change whileStatement (expression embedded size) _ (limit + 1)
    (ahead (kw "while" :: (w.tokens ++ op ":" :: (inner ++ rest))) blocks) = _
  rw [whileStatement, bind_of_ok position_run, bind_of_ok (expectKeyword_kw "while"),
    bind_of_ok hread, bind_of_ok (hblock rest)]
  rfl

-- A loop over an expression.
theorem says_for {target : String} (htarget : isName target = true) (h : Sound embedded w)
    (htext : phrase.text.toList = "for".toList ++ ' ' :: (target.toList ++ ' ' ::
      ("in".toList ++ ' ' :: w.text)) ++ [':']) (hbody : SaysBlock embedded width body values) :
    Says embedded width (.phrase phrase ++ body.indent)
      [.forIn target (iterationOf w.value) values .start] := by
  have hjoins := joins_keyword "in" (by decide) (by decide)
  have hlexes := lexesAs_behind "for" (by decide) ((lexesAs_name htarget).join h.lexes hjoins)
  apply says_block rfl hlexes htext rfl hbody
  intro size limit inner rest blocks hlength hsize hblock
  simp only [List.length_cons, List.length_append] at hlength
  have hread := h.run size (op ":") (by omega) rfl (inner ++ rest) blocks
  change forStatement (expression embedded size) _ (limit + 1)
    (ahead (kw "for" :: word target :: kw "in" :: (w.tokens ++ op ":" :: (inner ++ rest))) blocks) = _
  rw [forStatement, bind_of_ok position_run, bind_of_ok (expectKeyword_kw "for"),
    bind_of_ok (identifier_word target), bind_of_ok (expectKeyword_kw "in"), bind_of_ok hread,
    bind_of_ok (hblock rest)]
  rfl

end Blocks

section Functions

-- A parameter as it is written.
inductive WrittenParam where
  | plain (name : String)
  | defaulted (name : String) (default : Written)
  | rest (name : String)
  | collector (name : String)

namespace WrittenParam

def name : WrittenParam → String
  | plain name | defaulted name _ | rest name | collector name => name

def default? : WrittenParam → Option Written
  | defaulted _ default => some default
  | _ => none

def text : WrittenParam → List Char
  | plain name => name.toList
  | defaulted name default => name.toList ++ '=' :: default.text
  | rest name => "*".toList ++ name.toList
  | collector name => "**".toList ++ name.toList

def tokens : WrittenParam → List Token
  | plain name => [word name]
  | defaulted name default => word name :: op "=" :: default.tokens
  | rest name => [op "*", word name]
  | collector name => [op "**", word name]

def value : WrittenParam → Parameter
  | plain name => ⟨name, .positional, none, .start⟩
  | defaulted name default => ⟨name, .positional, some default.value, .start⟩
  | rest name => ⟨name, .rest, none, .start⟩
  | collector name => ⟨name, .keywordCollector, none, .start⟩

-- A parameter has a name, and its default is read back.
structure Sound (embedded : Embedder) (param : WrittenParam) : Prop where
  isName : isName param.name = true
  default : ∀ w ∈ param.default?, Indented.Sound embedded w

variable {param : WrittenParam}

theorem length_tokens_pos (param : WrittenParam) : 0 < param.tokens.length := by
  cases param <;> simp [tokens]

-- A star in front of a name is no longer operator.
theorem lexesAs_star {name : String} (h : Indented.isName name = true) (lexeme : String)
    (hlexeme : lexeme ∈ ["*", "**"]) :
    scanner.LexesAs (lexeme.toList ++ name.toList) [op lexeme, word name] := by
  intro state rest more hrest hlexes
  have hname := lexesAs_name h hrest hlexes
  have hword := (Bool.and_eq_true_iff.mp h).1
  rw [List.append_assoc]
  refine Lexes.operator lexeme ?_ hname fun c hc => ?_
  · rcases mem_pair.mp hlexeme with rfl | rfl <;> decide
  · cases htext : name.toList with
    | nil => simp [isWord, htext] at hword
    | cons d text =>
        simp only [isWord, htext, List.head?_cons, Option.any_some, Bool.and_eq_true] at hword
        simp only [htext, List.cons_append, List.head?_cons, Option.mem_some_iff] at hc
        have hfollowers : ∀ lexeme ∈ ["*", "**"],
            (Piece.followers operators lexeme.toList).all (!isLetter ·) = true := by decide
        intro hmem
        have hletter := List.all_eq_true.mp (hfollowers lexeme hlexeme) c hmem
        rw [← hc, hword.1] at hletter
        contradiction

theorem Sound.lexes (h : param.Sound embedded) : scanner.LexesAs param.text param.tokens := by
  cases param with
  | plain name => exact lexesAs_name h.isName
  | defaulted name default =>
      have hdefault := h.default default rfl
      intro state rest more hrest hlexes
      have hvalue : scanner.lexes state (default.text ++ rest) (default.tokens ++ more) :=
        hdefault.lexes hrest hlexes
      have hopens : (default.text ++ rest).head?.any opensText = true :=
        hdefault.opens_append (Nat.le_refl _) rest
      have hequals : scanner.lexes state ('=' :: (default.text ++ rest))
          (op "=" :: (default.tokens ++ more)) := by
        refine Lexes.operator "=" (by decide) hvalue fun c hc hmem => ?_
        have hfollowers : (Piece.followers operators "=".toList).all (!opensText ·) = true := by decide
        have hopen := List.all_eq_true.mp hfollowers c hmem
        have hhead : (default.text ++ rest).head? = some c := hc
        rw [hhead, Option.any_some] at hopens
        rw [hopens] at hopen
        contradiction
      have hname := lexesAs_name (show Indented.isName name = true from h.isName)
        (ends_cons (by decide) _) hequals
      simpa [text, tokens] using hname
  | rest name => exact lexesAs_star h.isName "*" (by decide)
  | collector name => exact lexesAs_star h.isName "**" (by decide)

-- A parameter is read in front of a comma and in front of the bracket that closes the list.
theorem Sound.run (h : param.Sound embedded) {size : Nat} (hsize : param.tokens.length ≤ size)
    (next : String) (hnext : next ∈ [",", ")"]) (rest : List Token) (blocks : Blocks) :
    parameter (expression embedded size) (ahead (param.tokens ++ op next :: rest) blocks) =
      .ok (param.value, ahead (op next :: rest) blocks) := by
  have hlevel : ∀ next ∈ [",", ")"], grammar.level (op next) = 0 := by decide
  have hequals : ∀ next ∈ [",", ")"], (op next).isOperator "=" = false := by decide
  cases param with
  | plain name =>
      have hmiss : eatOperator "=" (ahead (op next :: rest) blocks) = .ok (false, _) :=
        eatOperator_miss (hequals next hnext)
      rw [parameter, bind_of_ok position_run, tokens, List.singleton_append,
        test_of_false (eatOperator_miss rfl), test_of_false (eatOperator_miss rfl),
        bind_of_ok (identifier_word name), bind_of_ok hmiss]
      rfl
  | defaulted name default =>
      rw [tokens, List.length_cons, List.length_cons] at hsize
      have hdefault := (h.default default rfl).run size _ (by omega) (hlevel next hnext) rest blocks
      rw [parameter, bind_of_ok position_run, tokens, List.cons_append, List.cons_append,
        test_of_false (eatOperator_miss rfl), test_of_false (eatOperator_miss rfl),
        bind_of_ok (identifier_word name), test_of_true (eatOperator_op "="), bind_of_ok hdefault]
      rfl
  | rest name =>
      rw [parameter, bind_of_ok position_run, tokens, List.cons_append, List.singleton_append,
        test_of_false (eatOperator_miss rfl), test_of_true (eatOperator_op "*"),
        bind_of_ok (identifier_word name)]
      rfl
  | collector name =>
      rw [parameter, bind_of_ok position_run, tokens, List.cons_append, List.singleton_append,
        test_of_true (eatOperator_op "**"), bind_of_ok (identifier_word name)]
      rfl

theorem isOperator_tokens (param : WrittenParam) (rest : List Token) (blocks : Blocks) :
    (ahead (param.tokens ++ rest) blocks).current.isOperator ")" = false := by
  cases param <;> rfl

end WrittenParam

theorem says_function {name : String} {params : List WrittenParam} {phrase : Phrase}
    {body : Fragment} {values : List Stmt} (hname : isName name = true)
    (hparams : ∀ param ∈ params, param.Sound embedded)
    (htext : phrase.text.toList = "def".toList ++ ' ' :: (name.toList ++
      '(' :: (commaTexts (params.map WrittenParam.text) ++ [')'])) ++ [':'])
    (hbody : SaysBlock embedded width body values) :
    Says embedded width (.phrase phrase ++ body.indent)
      [.functionDef name (params.map WrittenParam.value) values .start] := by
  have hlist := (Scanner.lexesAs_commas fun param hparam => (hparams param hparam).lexes).enclosed
    '(' ')' (by decide) (by decide)
  have hlexes := lexesAs_behind "def" (by decide)
    ((lexesAs_name hname).append hlist fun _ _ => ends_cons (by decide) _)
  apply says_block rfl hlexes htext rfl hbody
  intro size limit inner rest blocks hlength hsize hblock
  simp only [List.length_cons, List.length_append, List.length_nil] at hlength
  have hrounds := length_parts_le fun param (_ : param ∈ params) => param.length_tokens_pos
  have hread : enclosed ")" (parameter (expression embedded size)) (limit + 1)
      (ahead (commas (params.map WrittenParam.tokens) ++ op ")" :: op ":" :: (inner ++ rest)) blocks) =
        .ok (params.map WrittenParam.value, ahead (op ":" :: (inner ++ rest)) blocks) := by
    refine enclosed_run (by decide) _ ?_ (fun param _ rest => param.isOperator_tokens rest blocks)
      (by omega)
    intro param hparam next hnext rest
    have hle := length_le_length_commas hparam WrittenParam.tokens
    exact (hparams param hparam).run (by omega) next hnext rest blocks
  have htokens : kw "def" :: ([word name] ++ op "(" ::
      (commas (params.map WrittenParam.tokens) ++ [op ")"])) ++ op ":" :: (inner ++ rest) =
        kw "def" :: word name :: op "(" :: (commas (params.map WrittenParam.tokens) ++
          op ")" :: op ":" :: (inner ++ rest)) := by simp
  change functionDef (expression embedded size) _ (limit + 1) _ = _
  rw [htokens, functionDef, bind_of_ok position_run, bind_of_ok (expectKeyword_kw "def"),
    bind_of_ok (identifier_word name), bind_of_ok (expectOperator_op "("), bind_of_ok hread,
    bind_of_ok (hblock rest)]
  rfl

end Functions

section Branches

variable {α : Type} {w : Written} {phrase : Phrase} {fragment other body : Fragment}
  {values : List Stmt} {keyword : String} {s : TokenStream} {clauses : List (ElifClause Stmt)}
  {name : Option String}

-- Lines of further blocks of a statement, which need not be there. They are made into tokens that
-- start with `keyword`, if at all, and `reader` reads these in front of all that does not, if it
-- has more rounds than there are tokens.
structure Further (embedded : Embedder) (width : Nat) (keyword : String)
    (reader : Parser Expr → Parser Stmt → Nat → Nat → Parser α) (fragment : Fragment)
    (tokens : Nat → List Token) (value : α) : Prop where
  lays : LaysMore width fragment tokens
  head : ∀ depth, (tokens depth).head?.all (· == kw keyword) = true
  reads : ∀ depth {size limit rounds : Nat} (rest : List Token) (widths : List Nat),
    (tokens depth).length ≤ limit → limit < size → (tokens depth).length < rounds →
      (ahead rest (some widths)).current.isKeyword keyword = false →
        reader (expression embedded size) (statement (expression embedded size) limit) (limit + 1)
            rounds (ahead (tokens depth ++ rest) (some widths)) =
          .ok (value, ahead rest (some widths))

omit [Fact (0 < width)] in
-- What starts with one keyword does not start with another.
theorem Further.isKeyword_eq_false {reader : Parser Expr → Parser Stmt → Nat → Nat → Parser α}
    {tokens : Nat → List Token} {value : α}
    (h : Further embedded width keyword reader fragment tokens value) {another : String}
    (hne : keyword ≠ another) (depth : Nat) {rest : List Token} {blocks : Blocks}
    (hrest : (ahead rest blocks).current.isKeyword another = false) :
    (ahead (tokens depth ++ rest) blocks).current.isKeyword another = false := by
  have hhead := h.head depth
  cases htokens : tokens depth with
  | nil => exact hrest
  | cons first more =>
      rw [htokens] at hhead
      simp only [List.head?_cons, Option.all_some, beq_iff_eq] at hhead
      simpa [hhead] using hne

-- Lines say what `reader` finds in further blocks of a statement.
def SaysFurther (embedded : Embedder) (width : Nat) (keyword : String)
    (reader : Parser Expr → Parser Stmt → Nat → Nat → Parser α) (fragment : Fragment) (value : α) :
    Prop :=
  ∃ tokens, Further embedded width keyword reader fragment tokens value

-- The reader of a block that has no line of its own but for a keyword.
def optionalReader (keyword : String) (_ : Parser Expr) (statement : Parser Stmt)
    (limit _rounds : Nat) : Parser (Option (List Stmt)) :=
  optionalBlock statement limit keyword

omit [Fact (0 < width)] in
theorem says_noBlock (keyword : String) :
    SaysFurther embedded width keyword (optionalReader keyword) .empty none := by
  refine ⟨fun _ => [], laysMore_empty, fun _ => rfl, ?_⟩
  intro depth size limit rounds rest widths _ _ _ hrest
  rw [List.nil_append, optionalReader, optionalBlock, bind_of_ok (eatKeyword_miss hrest)]
  rfl

theorem says_someBlock (hkeyword : keyword ∈ ["else", "finally"])
    (hbody : SaysBlock embedded width body values) :
    SaysFurther embedded width keyword (optionalReader keyword)
      (.line (keyword ++ ":") ++ body.indent) (some values) := by
  obtain ⟨inner, hblock⟩ := hbody
  have hword : isWord keyword.toList = true ∧ keyword ∈ keywords ∧
      keyword.toList.head?.any opensText = true := by
    rcases mem_pair.mp hkeyword with rfl | rfl <;> decide
  have htext : (Phrase.plain (keyword ++ ":")).text.toList = keyword.toList ++ [':'] :=
    String.toList_append
  have hlays := lays_block hword.2.2 (lexesAs_keyword keyword hword.1 hword.2.1) htext
    hblock.lays
  refine ⟨_, hlays.more, fun _ => by simp, ?_⟩
  intro depth size limit rounds rest widths hlength hsize _ _
  simp only [blockTokens, List.length_append, List.length_cons, List.length_nil] at hlength
  have hread := hblock.reads depth rest widths (by omega) (Nat.le_of_lt hsize)
  rw [List.append_assoc, List.singleton_append, optionalReader, optionalBlock,
    test_of_true (eatKeyword_kw keyword), bind_of_ok hread]
  rfl

-- The reader of the further conditions of a branch.
def elifReader (expression : Parser Expr) (statement : Parser Stmt) (limit : Nat) :
    Nat → Parser (List (ElifClause Stmt)) :=
  whilst (announced "elif") fun pos => do
    let condition ← expression
    let body ← block statement limit
    return ⟨condition, body, pos⟩

theorem announced_kw (keyword : String) (rest : List Token) (blocks : Blocks) :
    announced keyword (ahead (kw keyword :: rest) blocks) = .ok (some .start, ahead rest blocks) := by
  rw [announced, bind_of_ok position_run, bind_of_ok (eatKeyword_kw keyword)]
  rfl

theorem announced_miss (h : s.current.isKeyword keyword = false) :
    announced keyword s = .ok (none, s) := by
  rw [announced, bind_of_ok position_run, bind_of_ok (eatKeyword_miss h)]
  rfl

omit [Fact (0 < width)] in
theorem says_noElif : SaysFurther embedded width "elif" elifReader .empty [] := by
  refine ⟨fun _ => [], laysMore_empty, fun _ => rfl, ?_⟩
  intro depth size limit rounds rest widths _ _ hrounds hrest
  exact whilst_stop (announced_miss hrest) hrounds

theorem says_elif (h : Sound embedded w)
    (htext : phrase.text.toList = "elif".toList ++ ' ' :: w.text ++ [':'])
    (hbody : SaysBlock embedded width body values)
    (hrest : SaysFurther embedded width "elif" elifReader other clauses) :
    SaysFurther embedded width "elif" elifReader (.phrase phrase ++ body.indent ++ other)
      (⟨w.value, values, .start⟩ :: clauses) := by
  obtain ⟨inner, hblock⟩ := hbody
  obtain ⟨tokens, hfurther⟩ := hrest
  have hlays := lays_block rfl (lexesAs_behind "elif" (by decide) h.lexes) htext hblock.lays
  refine ⟨_, (hlays.append hfurther.lays).more, fun _ => by simp, ?_⟩
  intro depth size limit rounds rest widths hlength hsize hrounds hmiss
  simp only [blockTokens, List.length_append, List.length_cons, List.length_nil] at hlength hrounds
  obtain ⟨rounds, rfl⟩ : ∃ less, rounds = less + 1 := ⟨rounds - 1, by omega⟩
  have hcondition := h.run size (op ":") (by omega) rfl
    (.newline :: .indent ((depth + 1) * width) :: (inner (depth + 1) ++ [.dedent] ++
      (tokens depth ++ rest))) (some widths)
  have hread := hblock.reads depth (tokens depth ++ rest) widths (by omega) (Nat.le_of_lt hsize)
  have hmore := hfurther.reads depth rest widths (by omega) hsize (show _ < rounds by omega) hmiss
  simp only [blockTokens, List.cons_append, List.append_assoc] at hcondition hread ⊢
  refine whilst_step (announced_kw "elif" _ _) ?_ hmore
  rw [bind_of_ok hcondition, bind_of_ok hread]
  rfl

theorem says_if {orElse : Option (List Stmt)} (h : Sound embedded w)
    (htext : phrase.text.toList = "if".toList ++ ' ' :: w.text ++ [':'])
    (hbody : SaysBlock embedded width body values)
    (helifs : SaysFurther embedded width "elif" elifReader fragment clauses)
    (helse : SaysFurther embedded width "else" (optionalReader "else") other orElse) :
    Says embedded width (.phrase phrase ++ body.indent ++ fragment ++ other)
      [.ifElse w.value values clauses orElse .start] := by
  obtain ⟨inner, hblock⟩ := hbody
  obtain ⟨elifTokens, helif⟩ := helifs
  obtain ⟨elseTokens, helse⟩ := helse
  have hlays := ((lays_block rfl (lexesAs_behind "if" (by decide) h.lexes) htext
    hblock.lays).append helif.lays).append helse.lays
  refine ⟨[⟨_, _⟩], .single hlays ⟨fun _ => rfl, ?_⟩, rfl⟩
  intro depth size limit rest widths hlength hsize hapart
  simp only [blockTokens, List.length_append, List.length_cons, List.length_nil] at hlength
  obtain ⟨limit, rfl⟩ : ∃ less, limit = less + 1 := ⟨limit - 1, by omega⟩
  have hcondition := h.run size (op ":") (by omega) rfl
    (.newline :: .indent ((depth + 1) * width) :: (inner (depth + 1) ++ [.dedent] ++
      (elifTokens depth ++ (elseTokens depth ++ rest)))) (some widths)
  have hread := hblock.reads depth (elifTokens depth ++ (elseTokens depth ++ rest)) widths
    (by omega) (Nat.le_of_lt hsize)
  have hmore := helif.reads depth (elseTokens depth ++ rest) widths (by omega) hsize
    (show _ < limit + 1 by omega)
    (helse.isKeyword_eq_false (by decide) depth (hapart.isKeyword_eq_false (by decide)))
  have hlast : optionalBlock (statement (expression embedded size) limit) (limit + 1) "else"
      (ahead (elseTokens depth ++ rest) (some widths)) = .ok (orElse, ahead rest (some widths)) :=
    helse.reads depth rest widths (by omega) hsize (show _ < limit by omega)
      (hapart.isKeyword_eq_false (by decide))
  simp only [blockTokens, List.cons_append, List.append_assoc] at hcondition hread ⊢
  have hdispatch : ∀ rest, statement (expression embedded size) (limit + 1)
      (ahead (kw "if" :: rest) (some widths)) = ifStatement (expression embedded size)
        (statement (expression embedded size) limit) (limit + 1)
        (ahead (kw "if" :: rest) (some widths)) := fun _ => rfl
  rw [hdispatch, ifStatement, bind_of_ok position_run, bind_of_ok (expectKeyword_kw "if"),
    bind_of_ok hcondition, bind_of_ok hread]
  change (elifReader (expression embedded size) (statement (expression embedded size) limit)
    (limit + 1) (limit + 1) >>= _) _ = _
  rw [bind_of_ok hmore, bind_of_ok hlast]
  rfl

-- The line that opens a handler, with its name if it has one.
def handlerTokens : Option String → List Token
  | some name => [kw "except", word "Exception", kw "as", word name]
  | none => [kw "except"]

def handlerText : Option String → List Char
  | some name =>
      "except".toList ++ ' ' :: ("Exception".toList ++ ' ' :: ("as".toList ++ ' ' :: name.toList))
  | none => "except".toList

theorem toList_handlerHead (name : Option String) :
    (handlerHead name).toList = handlerText name ++ [':'] := by
  cases name with
  | none =>
      change "except:".toList = "except".toList ++ [':']
      decide
  | some name =>
      have hhead : "except Exception as ".toList =
          "except".toList ++ ' ' :: ("Exception".toList ++ ' ' :: ("as".toList ++ [' '])) := by decide
      have hcolon : ":".toList = [':'] := rfl
      change ("except Exception as " ++ name ++ ":").toList = "except".toList ++ ' ' ::
        ("Exception".toList ++ ' ' :: ("as".toList ++ ' ' :: name.toList)) ++ [':']
      rw [String.toList_append, String.toList_append, hhead, hcolon]
      simp only [List.append_assoc, List.cons_append, List.nil_append]

theorem lexesAs_handler (hname : ∀ found ∈ name, isName found = true) :
    scanner.LexesAs (handlerText name) (handlerTokens name) := by
  cases name with
  | none => exact lexesAs_keyword "except" (by decide) (by decide)
  | some name =>
      have hexception : scanner.LexesAs "Exception".toList [word "Exception"] :=
        lexesAs_name (by decide)
      exact lexesAs_behind "except" (by decide)
        (hexception.join (lexesAs_name (hname name rfl)) (joins_keyword "as" (by decide) (by decide)))

theorem otherName?_miss (h : s.current.isKeyword "as" = false) : otherName? s = .ok (none, s) := by
  rw [otherName?, bind_of_ok (eatKeyword_miss h)]
  rfl

theorem otherName?_as (name : String) (rest : List Token) (blocks : Blocks) :
    otherName? (ahead (kw "as" :: word name :: rest) blocks) =
      .ok (some name, ahead rest blocks) := by
  rw [otherName?, test_of_true (eatKeyword_kw "as"), bind_of_ok (identifier_word name)]
  rfl

def handlerReader (_ : Parser Expr) (statement : Parser Stmt) (limit _rounds : Nat) :
    Parser (Option (Handler Stmt)) :=
  handler? statement limit

omit [Fact (0 < width)] in
theorem says_noHandler : SaysFurther embedded width "except" handlerReader .empty none := by
  refine ⟨fun _ => [], laysMore_empty, fun _ => rfl, ?_⟩
  intro depth size limit rounds rest widths _ _ _ hrest
  rw [List.nil_append, handlerReader, handler?, bind_of_ok (announced_miss hrest)]
  rfl

theorem says_handler (hname : ∀ found ∈ name, isName found = true)
    (hbody : SaysBlock embedded width body values) :
    SaysFurther embedded width "except" handlerReader (.line (handlerHead name) ++ body.indent)
      (some ⟨name, values, .start⟩) := by
  obtain ⟨inner, hblock⟩ := hbody
  have hopens : (handlerText name).head?.any opensText = true := by cases name <;> rfl
  have htext : (Phrase.plain (handlerHead name)).text.toList = handlerText name ++ [':'] :=
    toList_handlerHead name
  have hlays := lays_block hopens (lexesAs_handler hname) htext hblock.lays
  refine ⟨_, hlays.more, fun _ => by cases name <;> rfl, ?_⟩
  intro depth size limit rounds rest widths hlength hsize _ _
  simp only [blockTokens, List.length_append, List.length_cons, List.length_nil] at hlength
  have hread := hblock.reads depth rest widths (by omega) (Nat.le_of_lt hsize)
  rw [List.append_assoc, handlerReader, handler?]
  simp only [blockTokens, List.cons_append, List.append_assoc, List.nil_append] at hread ⊢
  cases name with
  | none =>
      rw [handlerTokens, List.singleton_append, bind_of_ok (announced_kw "except" _ _)]
      dsimp only
      rw [bind_of_ok (check_run .identifier), if_neg (by simp),
        bind_of_ok (otherName?_miss rfl), bind_of_ok hread, pure_run]
  | some name =>
      simp only [handlerTokens, List.cons_append, List.nil_append]
      rw [bind_of_ok (announced_kw "except" _ _)]
      dsimp only
      rw [bind_of_ok (check_run .identifier), if_pos (by simp),
        bind_of_ok (advance_word "Exception"), bind_of_ok (otherName?_as name _ _),
        bind_of_ok hread, pure_run]

-- A `try` has a handler, a cleanup, or both.
theorem says_try {handler : Option (Handler Stmt)} {cleanup : Option (List Stmt)}
    (hbody : SaysBlock embedded width body values)
    (hhandler : SaysFurther embedded width "except" handlerReader fragment handler)
    (hcleanup : SaysFurther embedded width "finally" (optionalReader "finally") other cleanup)
    (hsome : (handler.isNone && cleanup.isNone) = false) :
    Says embedded width (.line "try:" ++ body.indent ++ fragment ++ other)
      [.tryCatch values handler cleanup .start] := by
  obtain ⟨inner, hblock⟩ := hbody
  obtain ⟨handlerTokens, hhandler⟩ := hhandler
  obtain ⟨cleanupTokens, hcleanup⟩ := hcleanup
  have hlexes := lexesAs_keyword "try" (by decide) (by decide)
  have htext : (Phrase.plain "try:").text.toList = "try".toList ++ [':'] := by decide
  have hlays := ((lays_block rfl hlexes htext hblock.lays).append hhandler.lays).append
    hcleanup.lays
  refine ⟨[⟨_, _⟩], .single hlays ⟨fun _ => rfl, ?_⟩, rfl⟩
  intro depth size limit rest widths hlength hsize hapart
  simp only [blockTokens, List.length_append, List.length_cons, List.length_nil] at hlength
  obtain ⟨limit, rfl⟩ : ∃ less, limit = less + 1 := ⟨limit - 1, by omega⟩
  have hread := hblock.reads depth (handlerTokens depth ++ (cleanupTokens depth ++ rest)) widths
    (by omega) (Nat.le_of_lt hsize)
  have hmore : handler? (statement (expression embedded size) limit) (limit + 1)
      (ahead (handlerTokens depth ++ (cleanupTokens depth ++ rest)) (some widths)) =
        .ok (handler, ahead (cleanupTokens depth ++ rest) (some widths)) :=
    hhandler.reads depth (cleanupTokens depth ++ rest) widths (by omega) hsize
      (show _ < limit by omega)
      (hcleanup.isKeyword_eq_false (by decide) depth (hapart.isKeyword_eq_false (by decide)))
  have hlast : optionalBlock (statement (expression embedded size) limit) (limit + 1) "finally"
      (ahead (cleanupTokens depth ++ rest) (some widths)) =
        .ok (cleanup, ahead rest (some widths)) :=
    hcleanup.reads depth rest widths (by omega) hsize (show _ < limit by omega)
      (hapart.isKeyword_eq_false (by decide))
  simp only [blockTokens, List.cons_append, List.append_assoc, List.nil_append] at hread ⊢
  have hdispatch : ∀ rest, statement (expression embedded size) (limit + 1)
      (ahead (kw "try" :: rest) (some widths)) =
        tryStatement (statement (expression embedded size) limit) (limit + 1)
          (ahead (kw "try" :: rest) (some widths)) := fun _ => rfl
  rw [hdispatch, tryStatement, bind_of_ok position_run, bind_of_ok (expectKeyword_kw "try"),
    bind_of_ok hread, bind_of_ok hmore, bind_of_ok hlast, hsome]
  rfl

end Branches

end Diglot.Indented
