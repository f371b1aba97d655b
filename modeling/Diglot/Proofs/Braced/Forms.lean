import Diglot.Proofs.Braced.Laid
import Diglot.Proofs.Braced.Operators

namespace Diglot.Braced

open Diglot.Parser TokenStream
open Token (op kw word)

variable {width : Nat}

section Lexing

variable {text : List Char} {tokens : List Token}

theorem lexesAs_keyword (keyword : String)
    (h : isWord keyword.toList = true ∧ keyword ∈ keywords) :
    scanner.LexesAs keyword.toList [kw keyword] := by
  have htoken : wordToken keyword = kw keyword := by
    rw [wordToken, if_pos (List.contains_iff_mem.mpr h.2)]
    rfl
  rw [← htoken]
  exact lexesAs_word h.1

-- A keyword and a blank in front of a text.
theorem lexesAs_behind (keyword : String)
    (hkeyword : isWord keyword.toList = true ∧ keyword ∈ keywords)
    (h : scanner.LexesAs text tokens) :
    scanner.LexesAs (keyword.toList ++ ' ' :: text) (kw keyword :: tokens) :=
  (lexesAs_keyword keyword hkeyword).append h.blank fun _ _ => ends_cons (by decide) _

theorem lexesAs_mark (c : Char) (hc : c ∈ ['(', '[', '{', ')', ']', '}', ',', ':']) :
    scanner.LexesAs [c] [op (String.ofList [c])] := fun _ _ _ _ hlexes => Lexes.mark c hc hlexes

-- An operator that no further character makes longer.
theorem Lexes.longest {rest : List Char} {more : List Token} (lexeme : String)
    (hmem : lexeme ∈ operators) (hfollowers : followers lexeme.toList = [])
    (h : Lexes rest more) : Lexes (lexeme.toList ++ rest) (op lexeme :: more) := by
  refine h.operator lexeme hmem fun c _ => ?_
  rw [hfollowers]
  exact List.not_mem_nil

-- A text in front of the brace that opens a block.
theorem lexesAs_opening (h : scanner.LexesAs text tokens) :
    scanner.LexesAs (text ++ [' ', '{']) (tokens ++ [op "\x7b"]) :=
  h.append (lexesAs_mark '{' (by decide)).blank fun _ _ => ends_cons (by decide) _

-- A text behind the brace that closes a block.
theorem lexesAs_closing (h : scanner.LexesAs text tokens) :
    scanner.LexesAs ('}' :: ' ' :: text) (op "\x7d" :: tokens) :=
  fun _ _ _ hrest hlexes => Lexes.mark '}' (by decide) (h.blank hrest hlexes)

-- A text in front of a semicolon.
theorem lexesAs_semicolon (h : scanner.LexesAs text tokens) :
    scanner.LexesAs (text ++ [';']) (tokens ++ [op ";"]) :=
  h.append (fun _ _ _ _ => Lexes.longest ";" (by decide) (by decide)) fun _ _ => ⟨rfl, rfl⟩

-- A condition in brackets behind its keyword.
theorem lexesAs_asked (keyword : String)
    (hkeyword : isWord keyword.toList = true ∧ keyword ∈ keywords)
    (h : scanner.LexesAs text tokens) :
    scanner.LexesAs (keyword.toList ++ ' ' :: '(' :: (text ++ [')']))
      (kw keyword :: op "(" :: (tokens ++ [op ")"])) :=
  lexesAs_behind keyword hkeyword (h.enclosed '(' ')' (by decide) (by decide))

end Lexing

section Starts

variable {tokens : List Token}

-- An expression starts as a statement may.
theorem leads_of_starts (h : grammar.Starts 1 tokens) : tokens.head?.any leads = true := by
  obtain ⟨⟨kind, lexeme, pos⟩, more, rfl, -, hbegins⟩ := h
  cases kind with
  | keyword =>
      simp only [grammar, List.contains_eq_mem, List.mem_cons, List.not_mem_nil, or_false,
        decide_eq_true_eq] at hbegins
      rcases hbegins with rfl | rfl | rfl | rfl | rfl | rfl <;> rfl
  | operator =>
      simp only [grammar, List.contains_eq_mem, List.mem_cons, List.not_mem_nil, or_false,
        Bool.or_eq_true, decide_eq_true_eq, Bool.and_eq_true] at hbegins
      rcases hbegins with (rfl | rfl | rfl) | ⟨-, rfl | rfl | rfl⟩ <;> rfl
  | newline | indent | dedent | eof => simp [grammar] at hbegins
  | _ => rfl

-- What starts with an expression is read as a simple statement, unless it starts with a brace.
theorem anyStatement_simple (h : grammar.Starts 1 tokens)
    (hbrace : tokens.head?.any (·.isOperator "\x7b") = false) (expression : Parser Expr)
    (inner : Parser Stmt) (limit : Nat) (rest : List Token) (blocks : Blocks) :
    anyStatement expression inner limit (ahead (tokens ++ rest) blocks) =
      simpleStatement expression limit (ahead (tokens ++ rest) blocks) := by
  obtain ⟨⟨kind, lexeme, pos⟩, more, rfl, -, hbegins⟩ := h
  rw [List.head?_cons, Option.any_some] at hbrace
  rw [anyStatement, bind_of_ok current_run, List.cons_append, current_ahead_cons, hbrace]
  cases kind with
  | keyword =>
      simp only [grammar, List.contains_eq_mem, List.mem_cons, List.not_mem_nil, or_false,
        decide_eq_true_eq] at hbegins
      rcases hbegins with rfl | rfl | rfl | rfl | rfl | rfl <;> rfl
  | _ => rfl

end Starts

-- An expression is read up to a token that does not carry it on.
theorem Sound.run {w : Written} (h : Sound w) (size : Nat) (next : Token)
    (hsize : w.tokens.length ≤ size) (hnext : grammar.level next = 0) (rest : List Token)
    (blocks : Blocks) :
    expression size (ahead (w.tokens ++ next :: rest) blocks) =
      .ok (w.value, ahead (next :: rest) blocks) :=
  (Diglot.Reads.whole h.toReads hsize).reads (next :: rest) blocks (Nat.lt_one_iff.mpr hnext)

section Inline

variable {w value : Written}

-- A simple statement without its semicolon, as it also stands in the head of a loop: its text, its
-- tokens and what they are read as in front of a semicolon or of the bracket that ends the head.
structure Inline (text : List Char) (tokens : List Token) (stmt : Stmt) : Prop where
  lexes : scanner.LexesAs text tokens
  starts : grammar.Starts 1 tokens
  unbraced : tokens.head?.any (·.isOperator "\x7b") = false
  reads : ∀ {size : Nat} (limit : Nat) (next : String), next ∈ [";", ")"] →
    ∀ (rest : List Token) (blocks : Blocks), tokens.length ≤ size →
      inlineStatement (expression size) limit (ahead (tokens ++ op next :: rest) blocks) =
        .ok (stmt, ahead (op next :: rest) blocks)

-- An expression that a simple statement may start with.
structure Simple (w : Written) : Prop where
  sound : Sound w
  unbraced : w.tokens.head?.any (·.isOperator "\x7b") = false

theorem Simple.starts (h : Simple w) : grammar.Starts 1 w.tokens :=
  h.sound.starts.mono h.sound.ranked

theorem Simple.unbraced_append (h : Simple w) (more : List Token) :
    (w.tokens ++ more).head?.any (·.isOperator "\x7b") = false := by
  obtain ⟨first, rest, htokens, -⟩ := h.starts
  have hbrace := h.unbraced
  rw [htokens] at hbrace ⊢
  exact hbrace

-- What starts with an expression is read as what stands behind the expression says.
theorem Simple.inline_run (h : Simple w) {size : Nat} (hsize : w.tokens.length ≤ size)
    {next : Token} (hnext : grammar.level next = 0) (limit : Nat) (rest : List Token)
    (blocks : Blocks) :
    inlineStatement (expression size) limit (ahead (w.tokens ++ next :: rest) blocks) =
      (if next.isOperator "=" then assignment (expression size) limit w.value .start
      else
        match augmentedOps.find? (fun entry => next.isOperator entry.1) with
        | some entry => augmented (expression size) entry.2 w.value .start
        | none =>
            match incrementOps.find? (fun entry => next.isOperator entry.1) with
            | some entry => do
                checkAssignable w.value
                let _ ← Parser.advance
                return increment w.value entry.2 .start
            | none => return .expr w.value .start) (ahead (next :: rest) blocks) := by
  have hmiss : oneOperator incrementOps (ahead (w.tokens ++ next :: rest) blocks) =
      .ok (none, ahead (w.tokens ++ next :: rest) blocks) := by
    refine oneOperator_miss fun entry hentry => h.starts.isOperator_eq_false ?_
    simp only [incrementOps, List.mem_cons, List.not_mem_nil, or_false] at hentry
    rcases hentry with rfl | rfl <;> rfl
  rw [inlineStatement, bind_of_ok position_run, h.starts.pos, bind_of_ok hmiss]
  dsimp only
  rw [bind_of_ok (h.sound.run size next hsize hnext rest blocks), bind_of_ok current_run]
  rfl

theorem inline_expr (h : Simple w) : Inline w.text w.tokens (.expr w.value .start) where
  lexes := h.sound.lexes
  starts := h.starts
  unbraced := h.unbraced
  reads limit next hnext rest blocks hsize := by
    rcases mem_pair.mp hnext with rfl | rfl
    · rw [h.inline_run hsize rfl]
      rfl
    · rw [h.inline_run hsize rfl]
      rfl

-- The operator of an augmented assignment.
def augmentedSymbol (op : BinaryOp) : String := binarySymbol op ++ "="

theorem inline_augmented (h : Simple w) (htarget : w.value.isAssignable = true)
    (hvalue : Sound value) {op : BinaryOp} (hop : op ≠ .floorDivide) :
    Inline (w.text ++ ' ' :: ((augmentedSymbol op).toList ++ ' ' :: value.text))
      (w.tokens ++ .op (augmentedSymbol op) :: value.tokens)
      (.augAssign w.value op value.value .start) where
  lexes := by
    have hmem : augmentedSymbol op ∈ operators := by cases op <;> decide
    exact Scanner.LexesAs.join h.sound.lexes hvalue.lexes (joins_operator _ hmem)
  starts := h.starts.append (Nat.le_refl 1)
  unbraced := h.unbraced_append _
  reads {size} limit next hnext rest blocks hsize := by
    rw [List.length_append, List.length_cons] at hsize
    have hlevel : grammar.level (.op (augmentedSymbol op)) = 0 := by cases op <;> rfl
    have hclose : ∀ next ∈ [";", ")"], grammar.level (.op next) = 0 := by decide
    have hend : grammar.level (ahead (.op next :: rest) blocks).current = 0 := hclose next hnext
    have hequals : (Token.op (augmentedSymbol op)).isOperator "=" = false := by
      cases op <;> rfl
    have hfind : augmentedOps.find?
        (fun entry => (Token.op (augmentedSymbol op)).isOperator entry.1) =
          some (augmentedSymbol op, op) := by
      cases op <;> first | rfl | contradiction
    rw [List.append_assoc, List.cons_append, h.inline_run (by omega) hlevel, hequals, hfind]
    exact augmented_run htarget op (augmentedSymbol op)
      (Diglot.Reads.whole hvalue.toReads (show value.tokens.length ≤ size by omega)) hend .start

-- Counting a name up by one.
theorem inline_increment {name : String} (h : isName name = true) :
    Inline (name.toList ++ "++".toList) [word name, op "++"]
      (.augAssign (.var name .start) .add (.number "1" .start) .start) where
  lexes := (lexesAs_name h).append (fun _ _ _ _ => Lexes.longest "++" (by decide) (by decide))
    fun _ _ => ⟨rfl, rfl⟩
  starts := ⟨_, _, rfl, rfl, rfl⟩
  unbraced := rfl
  reads {size} limit next hnext rest blocks hsize := by
    have hsimple : Simple (.ofName name) := ⟨sound_name h, rfl⟩
    have hname : (Written.ofName name).tokens.length ≤ size := Nat.le_of_succ_le hsize
    have hrun := hsimple.inline_run hname (show grammar.level (op "++") = 0 from rfl) limit
      (op next :: rest) blocks
    refine hrun.trans ?_
    change (checkAssignable (.var name .start) >>= fun _ => Parser.advance >>= fun _ =>
      pure (increment (.var name .start) .add .start)) _ = _
    rw [bind_of_ok (checkAssignable_run rfl), bind_of_ok (advance_op "++")]
    rfl

end Inline

section Lines

variable {w : Written} {line : String} {text : List Char} {tokens : List Token} {stmt : Stmt}

-- A line that is a statement.
theorem says_line (line : String) (hlexes : scanner.LexesAs line.toList tokens)
    (hleads : tokens.head?.any leads = true)
    (hreads : ∀ {size limit : Nat} (inner : Parser Stmt) (rest : List Token)
      (blocks : Blocks), tokens.length ≤ limit + 1 → limit < size →
        anyStatement (expression size) inner (limit + 1) (ahead (tokens ++ rest) blocks) =
          .ok (stmt, ahead rest blocks)) :
    Says width (.line line) [stmt] := by
  refine ⟨[⟨tokens, stmt⟩], ?_, List.forall_mem_singleton.mpr ⟨hleads, ?_⟩, rfl⟩
  · have hlays : Lays width (.line line) tokens := lays_phrase (.plain line) hlexes
    simpa using hlays
  · intro size limit rest blocks hlength hsize _
    obtain ⟨first, more, rfl, -⟩ := exists_of_leads hleads
    obtain ⟨limit, rfl⟩ : ∃ less, limit = less + 1 := ⟨limit - 1, by simp at hlength; omega⟩
    exact hreads _ rest blocks hlength hsize

-- The statements that are a single word.
theorem says_word {keyword : String} {node : Pos → Stmt}
    (h : (keyword, node) ∈ [("break", Stmt.breaks), ("continue", .continues)])
    (htext : line.toList = keyword.toList ++ [';']) : Says width (.line line) [node .start] := by
  simp only [List.mem_cons, Prod.mk.injEq, List.not_mem_nil, or_false] at h
  have hword : (isWord keyword.toList = true ∧ keyword ∈ keywords) ∧ leads (kw keyword) = true := by
    rcases h with ⟨rfl, -⟩ | ⟨rfl, -⟩ <;> decide
  have hlexes := lexesAs_semicolon (lexesAs_keyword keyword hword.1)
  rw [← htext] at hlexes
  refine says_line line hlexes hword.2 fun inner rest blocks _ _ => ?_
  have hread : ∀ (expression : Parser Expr) (limit : Nat), anyStatement expression inner limit
      (ahead (kw keyword :: op ";" :: rest) blocks) =
        keywordStatement node (ahead (kw keyword :: op ";" :: rest) blocks) := by
    rcases h with ⟨rfl, rfl⟩ | ⟨rfl, rfl⟩ <;> exact fun _ _ => rfl
  change anyStatement _ inner _ (ahead (kw keyword :: op ";" :: rest) blocks) = _
  rw [hread, keywordStatement, bind_of_ok (advance_kw keyword), bind_of_ok endOfStatement_semicolon]
  rfl

theorem says_return : Says width (.line "return;") [.returns none .start] := by
  have htext : "return;".toList = "return".toList ++ [';'] := by decide
  have hlexes := lexesAs_semicolon (lexesAs_keyword "return" (by decide))
  rw [← htext] at hlexes
  refine says_line "return;" hlexes rfl fun {size limit} inner rest blocks _ _ => ?_
  change returnStatement (expression size) (ahead (kw "return" :: op ";" :: rest) blocks) = _
  rw [returnStatement, bind_of_ok position_run, bind_of_ok (expectKeyword_kw "return"),
    bind_of_ok (checkOperator_run ";"), bind_of_ok (checkOperator_run "\x7d"),
    bind_of_ok isAtEnd_run]
  change (endOfStatement >>= fun _ => pure (Stmt.returns none .start)) _ = _
  rw [bind_of_ok endOfStatement_semicolon, pure_run]

theorem says_returned (h : Sound w)
    (htext : line.toList = "return".toList ++ ' ' :: w.text ++ [';']) :
    Says width (.line line) [.returns (some w.value) .start] := by
  have hlexes := lexesAs_semicolon (lexesAs_behind "return" (by decide) h.lexes)
  rw [← htext] at hlexes
  refine says_line line hlexes rfl fun {size limit} inner rest blocks hlength hsize => ?_
  simp only [List.length_append, List.length_cons, List.length_nil] at hlength
  have hstarts := h.starts.mono h.ranked
  have hread := h.run size (op ";") (by omega) rfl rest blocks
  have hmore : (ahead (w.tokens ++ op ";" :: rest) blocks).isAtEnd = false :=
    isAtEnd_of_leads (fun _ h => by simp [h]) (leads_of_starts hstarts)
  rw [List.append_assoc, List.cons_append, List.singleton_append]
  change returnStatement (expression size)
    (ahead (kw "return" :: (w.tokens ++ op ";" :: rest)) blocks) = _
  rw [returnStatement, bind_of_ok position_run, bind_of_ok (expectKeyword_kw "return"),
    bind_of_ok (checkOperator_run ";"), bind_of_ok (checkOperator_run "\x7d"),
    bind_of_ok isAtEnd_run, hmore, hstarts.isOperator_eq_false rfl, hstarts.isOperator_eq_false rfl]
  simp only [Bool.or_self, Bool.false_eq_true, if_false]
  rw [bind_of_ok hread]
  change (endOfStatement >>= fun _ => pure (Stmt.returns (some w.value) .start)) _ = _
  rw [bind_of_ok endOfStatement_semicolon, pure_run]

-- A simple statement and its semicolon. What prints is told by what it calls.
theorem says_inline (h : Inline text tokens stmt) (htext : line.toList = text ++ [';']) :
    Says width (.line line) [recognizePrint stmt] := by
  have hlexes := lexesAs_semicolon h.lexes
  rw [← htext] at hlexes
  have hstarts : grammar.Starts 1 (tokens ++ [op ";"]) := h.starts.append (Nat.le_refl 1)
  refine says_line line hlexes (leads_of_starts hstarts)
    fun {size limit} inner rest blocks hlength hsize => ?_
  rw [List.length_append, List.length_singleton] at hlength
  have hread := h.reads (limit + 1) ";" (by decide) rest blocks (show tokens.length ≤ size by omega)
  rw [List.append_assoc, List.singleton_append, anyStatement_simple h.starts h.unbraced,
    simpleStatement, bind_of_ok hread, bind_of_ok endOfStatement_semicolon]
  rfl

end Lines

section Blocks

variable {w : Written} {line : String} {text : List Char} {body closing : Fragment}
  {tokens inner tail : List Token} {values : List Stmt}

-- A line with a brace at its end, the lines of a block, and lines that start with the brace that
-- closes it.
theorem lays_block (phrase : Phrase) (hlexes : scanner.LexesAs text tokens)
    (htext : phrase.text.toList = text ++ [' ', '{']) (hblock : Block width body inner values)
    (hclosing : Lays width closing (op "\x7d" :: tail)) :
    Lays width (.phrase phrase ++ body.indent ++ closing)
      (tokens ++ op "\x7b" :: (inner ++ op "\x7d" :: tail)) := by
  have hopening := lexesAs_opening hlexes
  rw [← htext] at hopening
  have hlays := ((lays_phrase phrase hopening).append hblock.lays.indent).append hclosing
  simpa using hlays

theorem lays_brace : Lays width (.line "\x7d") [op "\x7d"] :=
  lays_phrase (.plain "\x7d") (lexesAs_mark '}' (by decide))

-- A line with a brace at its end, a block and the line that closes it, which are a statement.
theorem says_block (phrase : Phrase) {stmt : Stmt} (hlexes : scanner.LexesAs text tokens)
    (htext : phrase.text.toList = text ++ [' ', '{']) (hleads : tokens.head?.any leads = true)
    (hbody : Says width body values)
    (hreads : ∀ {size limit : Nat} (inner : List Token) (rest : List Token)
      (blocks : Blocks), tokens.length ≤ limit → limit < size →
        block (statement (expression size) limit) (limit + 1) (ahead (op "\x7b" :: inner) blocks) =
          .ok (values, ahead rest blocks) →
        anyStatement (expression size) (statement (expression size) limit) (limit + 1)
            (ahead (tokens ++ op "\x7b" :: inner) blocks) =
          .ok (stmt, ahead rest blocks)) :
    Says width (.phrase phrase ++ body.indent ++ .line "\x7d") [stmt] := by
  obtain ⟨inner, hblock⟩ := hbody.block
  refine ⟨[⟨tokens ++ op "\x7b" :: (inner ++ [op "\x7d"]), stmt⟩], ?_,
    List.forall_mem_singleton.mpr ⟨?_, ?_⟩, rfl⟩
  · simpa using lays_block phrase hlexes htext hblock lays_brace
  · obtain ⟨first, more, rfl, -⟩ := exists_of_leads hleads
    exact hleads
  · intro size limit rest blocks hlength hsize _
    simp only [List.length_append, List.length_cons, List.length_nil] at hlength
    obtain ⟨limit, rfl⟩ : ∃ less, limit = less + 1 := ⟨limit - 1, by omega⟩
    have hread := hblock.reads rest blocks (by omega) (Nat.le_of_lt hsize)
    have htokens : tokens ++ op "\x7b" :: (inner ++ [op "\x7d"]) ++ rest =
        tokens ++ op "\x7b" :: (inner ++ op "\x7d" :: rest) := by simp
    rw [htokens, statement]
    exact hreads _ rest blocks (by omega) hsize hread

-- A condition in brackets and a block are read behind their keyword.
theorem conditionAndBody_run (h : Sound w) {size limit : Nat} (hsize : w.tokens.length ≤ size)
    {statement : Parser Stmt} (keyword : String) {blocks : Blocks} {t : TokenStream}
    (hblock : block statement limit (ahead (op "\x7b" :: inner) blocks) = .ok (values, t)) :
    conditionAndBody (expression size) statement limit keyword
        (ahead (kw keyword :: op "(" :: (w.tokens ++ op ")" :: op "\x7b" :: inner)) blocks) =
      .ok ((w.value, values), t) := by
  have hread := h.run size (op ")") hsize rfl (op "\x7b" :: inner) blocks
  rw [← body_brace] at hblock
  rw [conditionAndBody, bind_of_ok (expectKeyword_kw keyword), bind_of_ok (expectOperator_op "("),
    bind_of_ok hread, bind_of_ok (expectOperator_op ")"), bind_of_ok hblock]
  rfl

theorem says_while (h : Sound w)
    (htext : line.toList = "while".toList ++ ' ' :: '(' :: (w.text ++ [')']) ++ [' ', '{'])
    (hbody : Says width body values) :
    Says width (.line line ++ body.indent ++ .line "\x7d") [.whileDo w.value values .start] := by
  have hlexes := lexesAs_asked "while" (by decide) h.lexes
  refine says_block (.plain line) hlexes htext rfl hbody
    fun {size limit} inner rest blocks hlength hsize hblock => ?_
  simp only [List.length_append, List.length_cons, List.length_nil] at hlength
  have hread := conditionAndBody_run h (show w.tokens.length ≤ size by omega) "while" hblock
  have htokens : kw "while" :: op "(" :: (w.tokens ++ [op ")"]) ++ op "\x7b" :: inner =
      kw "while" :: op "(" :: (w.tokens ++ op ")" :: op "\x7b" :: inner) := by simp
  rw [htokens]
  change whileStatement (expression size) _ (limit + 1) _ = _
  rw [whileStatement, bind_of_ok position_run, bind_of_ok hread]
  rfl

end Blocks

section Loops

variable {text : List Char} {tokens : List Token} {target : String} {w : Written}

-- The head of a loop between its brackets: its text, its tokens, and the loop that it makes of a
-- body.
structure Head (text : List Char) (tokens : List Token) (loop : List Stmt → Stmt) : Prop where
  lexes : scanner.LexesAs text tokens
  reads : ∀ {size limit : Nat} {statement : Parser Stmt} {values : List Stmt}
    {inner rest : List Token} {blocks : Blocks}, tokens.length ≤ size →
      block statement limit (ahead (op "\x7b" :: inner) blocks) = .ok (values, ahead rest blocks) →
        forStatement (expression size) statement limit
            (ahead (kw "for" :: op "(" :: (tokens ++ op ")" :: op "\x7b" :: inner)) blocks) =
          .ok (loop values, ahead rest blocks)

theorem says_for {loop : List Stmt → Stmt} {line : String} {body : Fragment} {values : List Stmt}
    (h : Head text tokens loop)
    (htext : line.toList = "for".toList ++ ' ' :: '(' :: (text ++ [')']) ++ [' ', '{'])
    (hbody : Says width body values) :
    Says width (.line line ++ body.indent ++ .line "\x7d") [loop values] := by
  have hlexes := lexesAs_asked "for" (by decide) h.lexes
  refine says_block (.plain line) hlexes htext rfl hbody
    fun {size limit} inner rest blocks hlength hsize hblock => ?_
  simp only [List.length_append, List.length_cons, List.length_nil] at hlength
  have htokens : kw "for" :: op "(" :: (tokens ++ [op ")"]) ++ op "\x7b" :: inner =
      kw "for" :: op "(" :: (tokens ++ op ")" :: op "\x7b" :: inner) := by simp
  rw [htokens]
  exact h.reads (by omega) hblock

-- A loop over the elements of something.
theorem head_each (htarget : isName target = true) (h : Sound w) :
    Head ("const".toList ++ ' ' :: (target.toList ++ ' ' :: ("of".toList ++ ' ' :: w.text)))
      (kw "const" :: word target :: kw "of" :: w.tokens)
      (.forIn target (.each w.value) · .start) where
  lexes := by
    have hof := (lexesAs_behind "of" (by decide) h.lexes).blank
    exact lexesAs_behind "const" (by decide)
      ((lexesAs_name htarget).append hof fun _ _ => ends_cons (by decide) _)
  reads {size limit statement values inner rest blocks} hsize hblock := by
    simp only [List.length_cons] at hsize
    have hread := h.run size (op ")") (by omega) rfl (op "\x7b" :: inner) blocks
    rw [← body_brace] at hblock
    rw [forStatement, bind_of_ok position_run, bind_of_ok (expectKeyword_kw "for"),
      bind_of_ok (expectOperator_op "("), bind_of_ok current_run]
    change eachLoop (expression size) statement limit .start
      (ahead (kw "const" :: word target :: kw "of" :: (w.tokens ++ op ")" :: op "\x7b" :: inner))
        blocks) = _
    rw [eachLoop, bind_of_ok current_run]
    change (Parser.advance >>= _) _ = _
    rw [bind_of_ok (advance_kw "const")]
    dsimp only
    rw [bind_of_ok (identifier_word target), bind_of_ok (expectKeyword_kw "of"), bind_of_ok hread,
      bind_of_ok (expectOperator_op ")"), bind_of_ok hblock]
    rfl

-- The first clause of a loop is read if it declares a name with a value.
theorem initClause_run (h : Sound w) {size : Nat} (hsize : w.tokens.length ≤ size) (name : String)
    (limit : Nat) (rest : List Token) (blocks : Blocks) :
    initClause (expression size) limit
        (ahead (kw "let" :: word name :: op "=" :: (w.tokens ++ op ";" :: rest)) blocks) =
      .ok (some (.assign [.var name .start] (some w.value) (some .letWord) .start),
        ahead (op ";" :: rest) blocks) := by
  have hread := h.run size (op ";") hsize rfl rest blocks
  change (declare (expression size) .letWord >>= fun found => pure (some found)) _ = _
  rw [declare, bind_assoc, bind_of_ok position_run, bind_assoc, bind_of_ok (advance_kw "let"),
    bind_assoc, bind_of_ok position_run, bind_assoc, bind_of_ok (identifier_word name), bind_assoc,
    bind_of_ok (eatOperator_op "=")]
  simp only [if_true]
  rw [bind_assoc, bind_of_ok hread]
  rfl

-- A loop with three clauses. One that counts is told by them.
def clausesLoop (init : Option Stmt) (test : Option Expr) (update : Option Stmt)
    (body : List Stmt) : Stmt :=
  match countingLoop? init test update with
  | some (target, iteration) => .forIn target iteration body .start
  | none => .forClauses init test update body .start

theorem clausesLoop_of_counts {init update : Option Stmt} {test : Option Expr}
    {iteration : Iteration} (h : countingLoop? init test update = some (target, iteration)) :
    clausesLoop init test update = (.forIn target iteration · .start) := by
  funext body
  rw [clausesLoop, h]

-- The text of three clauses of which the first declares a name.
def clausesText (target : String) (start test update : List Char) : List Char :=
  "let".toList ++ ' ' :: (target.toList ++ ' ' :: ("=".toList ++ ' ' ::
    (start ++ ';' :: ' ' :: (test ++ ';' :: ' ' :: update))))

theorem head_clauses {start test : Written} {update : Stmt} (htarget : isName target = true)
    (hstart : Sound start) (htest : Sound test) (hupdate : Inline text tokens update) :
    Head (clausesText target start.text test.text text)
      (kw "let" :: word target :: op "=" :: (start.tokens ++ op ";" ::
        (test.tokens ++ op ";" :: tokens)))
      (clausesLoop (some (.assign [.var target .start] (some start.value) (some .letWord) .start))
        (some test.value) (some update)) where
  lexes := by
    have hrest := (lexesAs_semicolon htest.lexes).append hupdate.lexes.blank
      fun _ _ => ends_cons (by decide) _
    have hmore := (lexesAs_semicolon hstart.lexes).append hrest.blank
      fun _ _ => ends_cons (by decide) _
    have hlexes := lexesAs_behind "let" (by decide)
      ((lexesAs_name htarget).join hmore (joins_operator "=" (by decide)))
    simpa [clausesText] using hlexes
  reads {size limit statement values inner rest blocks} hsize hblock := by
    simp only [List.length_append, List.length_cons] at hsize
    have hfirst := initClause_run hstart (show start.tokens.length ≤ size by omega) target limit
      (test.tokens ++ op ";" :: (tokens ++ op ")" :: op "\x7b" :: inner)) blocks
    have hsecond := htest.run size (op ";") (by omega) rfl (tokens ++ op ")" :: op "\x7b" :: inner)
      blocks
    have hthird := hupdate.reads limit ")" (by decide) (op "\x7b" :: inner) blocks
      (show tokens.length ≤ size by omega)
    have hasked : (ahead (test.tokens ++ op ";" :: (tokens ++ op ")" :: op "\x7b" :: inner))
        blocks).current.isOperator ";" = false :=
      (htest.starts.mono htest.ranked).isOperator_eq_false rfl
    have hchanged : (ahead (tokens ++ op ")" :: op "\x7b" :: inner) blocks).current.isOperator ")" =
        false := hupdate.starts.isOperator_eq_false rfl
    rw [← body_brace] at hblock
    rw [forStatement, bind_of_ok position_run, bind_of_ok (expectKeyword_kw "for"),
      bind_of_ok (expectOperator_op "("), bind_of_ok current_run]
    simp only [List.cons_append, List.append_assoc]
    change clauseLoop (expression size) statement limit .start _ = _
    rw [clauseLoop, bind_of_ok hfirst, bind_of_ok (expectOperator_op ";"),
      bind_of_ok (checkOperator_run ";"), hasked]
    simp only [Bool.false_eq_true, if_false]
    rw [bind_of_ok hsecond, bind_of_ok (pure_run _ _), bind_of_ok (expectOperator_op ";"),
      bind_of_ok (checkOperator_run ")"), hchanged]
    simp only [Bool.false_eq_true, if_false]
    rw [bind_of_ok hthird, bind_of_ok (pure_run _ _), bind_of_ok (expectOperator_op ")"),
      bind_of_ok hblock, clausesLoop]
    cases countingLoop? _ _ _ <;> rfl

end Loops

section Functions

variable {name : String} {param : Parameter}

-- The text and the tokens of a parameter, and what they are read as. Only a positional parameter
-- has a default.

def paramText (param : Parameter) : List Char :=
  match param.kind, param.default with
  | .positional, some default =>
      param.name.toList ++ ' ' :: ("=".toList ++ ' ' :: (written default).text)
  | .positional, none => param.name.toList
  | _, _ => "...".toList ++ param.name.toList

def paramTokens (param : Parameter) : List Token :=
  match param.kind, param.default with
  | .positional, some default => word param.name :: op "=" :: (written default).tokens
  | .positional, none => [word param.name]
  | _, _ => [op "...", word param.name]

def paramValue (param : Parameter) : Parameter :=
  match param.kind, param.default with
  | .positional, some default => ⟨param.name, .positional, some (written default).value, .start⟩
  | .positional, none => ⟨param.name, .positional, none, .start⟩
  | _, _ => ⟨param.name, .rest, none, .start⟩

-- A parameter has a name, and its default is read back.
structure ParamSound (param : Parameter) : Prop where
  isName : isName param.name = true
  default : ∀ default ∈ param.default, Sound (written default)

theorem length_paramTokens_pos (param : Parameter) : 0 < (paramTokens param).length := by
  unfold paramTokens
  split <;> exact Nat.zero_lt_succ _

theorem isOperator_paramTokens (param : Parameter) (rest : List Token)
    (blocks : Blocks) :
    (ahead (paramTokens param ++ rest) blocks).current.isOperator ")" = false := by
  unfold paramTokens
  split <;> rfl

theorem lexesAs_spread (h : isName name = true) :
    scanner.LexesAs ("...".toList ++ name.toList) [op "...", word name] := by
  intro state rest more hrest hlexes
  rw [List.append_assoc]
  exact Lexes.longest "..." (by decide) (by decide) (lexesAs_name h hrest hlexes)

theorem ParamSound.lexes (h : ParamSound param) :
    scanner.LexesAs (paramText param) (paramTokens param) := by
  unfold paramText paramTokens
  split
  · rename_i default _ hdefault
    exact (lexesAs_name h.isName).join (h.default default hdefault).lexes
      (joins_operator "=" (by decide))
  · exact lexesAs_name h.isName
  · exact lexesAs_spread h.isName

-- A parameter is read in front of a comma and in front of the bracket that closes the list.
theorem ParamSound.run (h : ParamSound param) {size : Nat}
    (hsize : (paramTokens param).length ≤ size) (next : String) (hnext : next ∈ [",", ")"])
    (rest : List Token) (blocks : Blocks) :
    parameter (expression size) (ahead (paramTokens param ++ op next :: rest) blocks) =
      .ok (paramValue param, ahead (op next :: rest) blocks) := by
  have hlevel : ∀ next ∈ [",", ")"], grammar.level (op next) = 0 := by decide
  have hequals : ∀ next ∈ [",", ")"], (op next).isOperator "=" = false := by decide
  unfold paramTokens paramValue at *
  split at *
  · rename_i default _ hdefault
    rw [List.length_cons, List.length_cons] at hsize
    have hread := (h.default default hdefault).run size _ (by omega) (hlevel next hnext) rest blocks
    rw [parameter, bind_of_ok position_run, List.cons_append, List.cons_append,
      test_of_false (eatOperator_miss rfl), bind_of_ok (identifier_word param.name),
      test_of_true (eatOperator_op "="), bind_of_ok hread]
    rfl
  · have hmiss : eatOperator "=" (ahead (op next :: rest) blocks) = .ok (false, _) :=
      eatOperator_miss (hequals next hnext)
    rw [parameter, bind_of_ok position_run, List.singleton_append,
      test_of_false (eatOperator_miss rfl), bind_of_ok (identifier_word param.name),
      bind_of_ok hmiss]
    rfl
  · rw [parameter, bind_of_ok position_run, List.cons_append, test_of_true (eatOperator_op "..."),
      List.singleton_append, bind_of_ok (identifier_word param.name)]
    rfl

theorem says_function {params : List Parameter} {phrase : Phrase} {body : Fragment}
    {values : List Stmt} (hname : isName name = true) (hparams : ∀ param ∈ params, ParamSound param)
    (htext : phrase.text.toList = "function".toList ++ ' ' :: (name.toList ++
      '(' :: (commaTexts (params.map paramText) ++ [')'])) ++ [' ', '{'])
    (hbody : Says width body values) :
    Says width (.phrase phrase ++ body.indent ++ .line "\x7d")
      [.functionDef name (params.map paramValue) values .start] := by
  have hlist := (Scanner.lexesAs_commas fun param hparam => (hparams param hparam).lexes).enclosed
    '(' ')' (by decide) (by decide)
  have hlexes := lexesAs_behind "function" (by decide)
    ((lexesAs_name hname).append hlist fun _ _ => ends_cons (by decide) _)
  refine says_block phrase hlexes htext rfl hbody
    fun {size limit} inner rest blocks hlength hsize hblock => ?_
  simp only [List.length_cons, List.length_append, List.length_nil] at hlength
  have hrounds := length_parts_le fun param (_ : param ∈ params) => length_paramTokens_pos param
  have hread : enclosed ")" (parameter (expression size)) (limit + 1)
      (ahead (commas (params.map paramTokens) ++ op ")" :: op "\x7b" :: inner) blocks) =
        .ok (params.map paramValue, ahead (op "\x7b" :: inner) blocks) := by
    refine enclosed_run (by decide) _ ?_
      (fun param _ rest => isOperator_paramTokens param rest blocks) (by omega)
    intro param hparam next hnext rest
    have hle := length_le_length_commas hparam paramTokens
    exact (hparams param hparam).run (by omega) next hnext rest blocks
  have htokens : kw "function" :: ([word name] ++ op "(" ::
      (commas (params.map paramTokens) ++ [op ")"])) ++ op "\x7b" :: inner =
        kw "function" :: word name :: op "(" :: (commas (params.map paramTokens) ++
          op ")" :: op "\x7b" :: inner) := by simp
  rw [htokens]
  change functionDef (expression size) _ (limit + 1) _ = _
  rw [functionDef, bind_of_ok position_run, bind_of_ok (expectKeyword_kw "function"),
    bind_of_ok (identifier_word name), functionRest, bind_of_ok (expectOperator_op "("),
    bind_of_ok hread, bind_of_ok hblock]
  rfl

end Functions

section Branches

variable {α : Type} {w : Written} {line : String} {body closing : Fragment} {values : List Stmt}
  {clauses : List (ElifClause Stmt)} {orElse cleanup : Option (List Stmt)}

-- Lines that close a block of a statement and may add others. They are made into the brace and the
-- tokens `tail`, and `reader` reads these in front of all that may follow the statement, if it has
-- more rounds than there are tokens.
structure Further (width : Nat) (reader : Parser Expr → Parser Stmt → Nat → Nat → Parser α)
    (fragment : Fragment) (tail : List Token) (value : α) : Prop where
  lays : Lays width fragment (op "\x7d" :: tail)
  reads : ∀ {size limit rounds : Nat} (rest : List Token) (blocks : Blocks),
    tail.length ≤ limit → limit < size → tail.length < rounds → Apart rest →
      reader (expression size) (statement (expression size) limit) (limit + 1) rounds
          (ahead (tail ++ rest) blocks) =
        .ok (value, ahead rest blocks)

-- Lines say what `reader` finds behind a block of a statement.
def SaysFurther (width : Nat) (reader : Parser Expr → Parser Stmt → Nat → Nat → Parser α)
    (fragment : Fragment) (value : α) : Prop :=
  ∃ tail, Further width reader fragment tail value

theorem says_noBranch : SaysFurther width branches (.line "\x7d") ([], none) := by
  refine ⟨[], lays_brace, ?_⟩
  intro size limit rounds rest blocks _ _ hrounds hrest
  cases rounds with
  | zero => cases hrounds
  | succ rounds =>
      rw [List.nil_append, branches,
        bind_of_ok (eatKeyword_miss (hrest.isKeyword_eq_false (by decide)))]
      rfl

theorem says_else (hbody : Says width body values) :
    SaysFurther width branches (.line "\x7d else \x7b" ++ body.indent ++ .line "\x7d")
      ([], some values) := by
  obtain ⟨inner, hblock⟩ := hbody.block
  have hlexes := lexesAs_closing (lexesAs_keyword "else" (by decide))
  have htext : "\x7d else \x7b".toList =
      '}' :: ' ' :: "else".toList ++ [' ', '{'] := by decide
  have hlays := lays_block (.plain "\x7d else \x7b") hlexes htext hblock lays_brace
  refine ⟨kw "else" :: op "\x7b" :: (inner ++ [op "\x7d"]), hlays, ?_⟩
  intro size limit rounds rest blocks hlength hsize hrounds _
  simp only [List.length_append, List.length_cons, List.length_nil] at hlength hrounds
  obtain ⟨rounds, rfl⟩ : ∃ less, rounds = less + 1 := ⟨rounds - 1, by omega⟩
  have hread := hblock.reads rest blocks (by omega) (Nat.le_of_lt hsize)
  rw [← body_brace] at hread
  simp only [List.append_assoc, List.cons_append, List.nil_append]
  rw [branches, test_of_true (eatKeyword_kw "else"), bind_of_ok (checkKeyword_run "if"),
    if_neg (by simp), bind_of_ok hread]
  rfl

theorem says_elseIf (h : Sound w)
    (htext : line.toList = '}' :: ' ' :: ("else".toList ++ ' ' :: ("if".toList ++
      ' ' :: '(' :: (w.text ++ [')']))) ++ [' ', '{']) (hbody : Says width body values)
    (hrest : SaysFurther width branches closing (clauses, orElse)) :
    SaysFurther width branches (.line line ++ body.indent ++ closing)
      (⟨w.value, values, .start⟩ :: clauses, orElse) := by
  obtain ⟨inner, hblock⟩ := hbody.block
  obtain ⟨tail, hfurther⟩ := hrest
  have hlexes := lexesAs_closing
    (lexesAs_behind "else" (by decide) (lexesAs_asked "if" (by decide) h.lexes))
  refine ⟨kw "else" :: kw "if" :: op "(" :: (w.tokens ++ [op ")"] ++ op "\x7b" ::
    (inner ++ op "\x7d" :: tail)), lays_block (.plain line) hlexes htext hblock hfurther.lays, ?_⟩
  intro size limit rounds rest blocks hlength hsize hrounds hapart
  simp only [List.length_append, List.length_cons, List.length_nil] at hlength hrounds
  obtain ⟨rounds, rfl⟩ : ∃ less, rounds = less + 1 := ⟨rounds - 1, by omega⟩
  have hread := hblock.reads (tail ++ rest) blocks (by omega) (Nat.le_of_lt hsize)
  have hcondition := conditionAndBody_run h (show w.tokens.length ≤ size by omega) "if" hread
  have hmore := hfurther.reads rest blocks (by omega) hsize
    (show tail.length < rounds by omega) hapart
  simp only [List.append_assoc, List.cons_append, List.nil_append]
  rw [branches, test_of_true (eatKeyword_kw "else"), bind_of_ok (checkKeyword_run "if"),
    if_pos (by simp), bind_of_ok position_run, bind_of_ok hcondition]
  dsimp only
  rw [bind_of_ok hmore]
  rfl

theorem says_if (h : Sound w)
    (htext : line.toList = "if".toList ++ ' ' :: '(' :: (w.text ++ [')']) ++ [' ', '{'])
    (hbody : Says width body values)
    (hrest : SaysFurther width branches closing (clauses, orElse)) :
    Says width (.line line ++ body.indent ++ closing)
      [.ifElse w.value values clauses orElse .start] := by
  obtain ⟨inner, hblock⟩ := hbody.block
  obtain ⟨tail, hfurther⟩ := hrest
  have hlexes := lexesAs_asked "if" (by decide) h.lexes
  have hlays := lays_block (.plain line) hlexes htext hblock hfurther.lays
  rw [← List.append_nil (_ ++ _)] at hlays
  refine ⟨[⟨_, _⟩], hlays, List.forall_mem_singleton.mpr ⟨rfl, ?_⟩, rfl⟩
  intro size limit rest blocks hlength hsize hapart
  simp only [List.length_append, List.length_cons, List.length_nil] at hlength
  obtain ⟨limit, rfl⟩ : ∃ less, limit = less + 1 := ⟨limit - 1, by omega⟩
  have hread := hblock.reads (tail ++ rest) blocks (by omega) (Nat.le_of_lt hsize)
  have hcondition := conditionAndBody_run h (show w.tokens.length ≤ size by omega) "if" hread
  have hmore := hfurther.reads rest blocks (by omega) hsize
    (show tail.length < limit + 1 by omega) hapart
  simp only [List.append_assoc, List.cons_append, List.nil_append]
  change ifStatement (expression size) (statement (expression size) limit) (limit + 1) _ = _
  rw [ifStatement, bind_of_ok position_run, bind_of_ok hcondition]
  dsimp only
  rw [bind_of_ok hmore]
  rfl

-- The reader of the cleanup of a `try`.
def cleanupReader (_ : Parser Expr) (statement : Parser Stmt) (limit _rounds : Nat) :
    Parser (Option (List Stmt)) := do
  if ← eatKeyword "finally" then return some (← block statement limit) else return none

-- The reader of what follows the first block of a `try`.
def handlingReader (expression : Parser Expr) (statement : Parser Stmt) (limit rounds : Nat) :
    Parser (Option (Handler Stmt) × Option (List Stmt)) := do
  let handler ← handler? statement limit
  let cleanup ← cleanupReader expression statement limit rounds
  return (handler, cleanup)

theorem tryStatement_eq (expression : Parser Expr) (statement : Parser Stmt) (limit rounds : Nat) :
    tryStatement statement limit = (do
      let pos ← position
      let _ ← expectKeyword "try"
      let found ← block statement limit
      let (handler, cleanup) ← handlingReader expression statement limit rounds
      if handler.isNone && cleanup.isNone then unexpected "'catch' or 'finally'"
      else return .tryCatch found handler cleanup pos) := by
  simp only [tryStatement, handlingReader, cleanupReader, bind_assoc, pure_bind]
  congr 1
  funext pos
  congr 1
  funext _
  congr 1
  funext found
  congr 1
  funext handler
  congr 1
  funext more
  cases more <;> simp

-- Lines say the cleanup of a `try`, if there is one, and no handler.
def SaysCleanup (width : Nat) (fragment : Fragment) (cleanup : Option (List Stmt)) : Prop :=
  ∃ tail, Further width cleanupReader fragment tail cleanup ∧
    tail.head?.any (·.isKeyword "catch") = false

theorem says_noCleanup : SaysCleanup width (.line "\x7d") none := by
  refine ⟨[], ⟨lays_brace, ?_⟩, rfl⟩
  intro size limit rounds rest blocks _ _ _ hrest
  rw [List.nil_append, cleanupReader,
    bind_of_ok (eatKeyword_miss (hrest.isKeyword_eq_false (by decide)))]
  rfl

theorem says_finally (hbody : Says width body values) :
    SaysCleanup width (.line "\x7d finally \x7b" ++ body.indent ++ .line "\x7d")
      (some values) := by
  obtain ⟨inner, hblock⟩ := hbody.block
  have hlexes := lexesAs_closing (lexesAs_keyword "finally" (by decide))
  have htext : "\x7d finally \x7b".toList =
      '}' :: ' ' :: "finally".toList ++ [' ', '{'] := by decide
  have hlays := lays_block (.plain "\x7d finally \x7b") hlexes htext hblock lays_brace
  refine ⟨kw "finally" :: op "\x7b" :: (inner ++ [op "\x7d"]), ⟨hlays, ?_⟩, rfl⟩
  intro size limit rounds rest blocks hlength hsize _ _
  simp only [List.length_append, List.length_cons, List.length_nil] at hlength
  have hread := hblock.reads rest blocks (by omega) (Nat.le_of_lt hsize)
  simp only [List.append_assoc, List.cons_append, List.nil_append]
  rw [cleanupReader, test_of_true (eatKeyword_kw "finally"), bind_of_ok hread]
  rfl

theorem says_noHandler (h : SaysCleanup width closing cleanup) :
    SaysFurther width handlingReader closing (none, cleanup) := by
  obtain ⟨tail, hfurther, hhead⟩ := h
  refine ⟨tail, hfurther.lays, ?_⟩
  intro size limit rounds rest blocks hlength hsize hrounds hapart
  have hmiss : (ahead (tail ++ rest) blocks).current.isKeyword "catch" = false := by
    cases tail with
    | nil => exact hapart.isKeyword_eq_false (by decide)
    | cons first more => exact hhead
  have hhandler : handler? (statement (expression size) limit) (limit + 1)
      (ahead (tail ++ rest) blocks) = .ok (none, ahead (tail ++ rest) blocks) := by
    rw [handler?, bind_of_ok position_run, bind_of_ok (eatKeyword_miss hmiss)]
    rfl
  rw [handlingReader, bind_of_ok hhandler,
    bind_of_ok (hfurther.reads rest blocks hlength hsize hrounds hapart)]
  rfl

theorem says_catch {name : String} (hname : isName name = true)
    (htext : line.toList = '}' :: ' ' :: ("catch".toList ++ ' ' :: '(' ::
      (name.toList ++ [')'])) ++ [' ', '{']) (hbody : Says width body values)
    (hrest : SaysCleanup width closing cleanup) :
    SaysFurther width handlingReader (.line line ++ body.indent ++ closing)
      (some ⟨some name, values, .start⟩, cleanup) := by
  obtain ⟨inner, hblock⟩ := hbody.block
  obtain ⟨tail, hfurther, -⟩ := hrest
  have hlexes := lexesAs_closing (lexesAs_asked "catch" (by decide) (lexesAs_name hname))
  refine ⟨kw "catch" :: op "(" :: word name :: op ")" :: op "\x7b" :: (inner ++ op "\x7d" :: tail),
    lays_block (.plain line) hlexes htext hblock hfurther.lays, ?_⟩
  intro size limit rounds rest blocks hlength hsize hrounds hapart
  simp only [List.length_append, List.length_cons] at hlength hrounds
  have hread := hblock.reads (tail ++ rest) blocks (by omega) (Nat.le_of_lt hsize)
  have hmore := hfurther.reads rest blocks (by omega) hsize
    (show tail.length < rounds by omega) hapart
  have hhandler : handler? (statement (expression size) limit) (limit + 1)
      (ahead (kw "catch" :: op "(" :: word name :: op ")" :: op "\x7b" ::
        (inner ++ op "\x7d" :: (tail ++ rest))) blocks) =
        .ok (some ⟨some name, values, .start⟩, ahead (tail ++ rest) blocks) := by
    rw [handler?, bind_of_ok position_run, test_of_true (eatKeyword_kw "catch"),
      test_of_true (eatOperator_op "("), bind_of_ok (identifier_word name),
      bind_of_ok (expectOperator_op ")"), bind_of_ok (pure_run _ _)]
    exact bind_of_ok hread
  simp only [List.append_assoc, List.cons_append]
  rw [handlingReader, bind_of_ok hhandler, bind_of_ok hmore]
  rfl

-- A `try` has a handler, a cleanup, or both.
theorem says_try {handler : Option (Handler Stmt)} (hbody : Says width body values)
    (hrest : SaysFurther width handlingReader closing (handler, cleanup))
    (hsome : (handler.isNone && cleanup.isNone) = false) :
    Says width (.line "try \x7b" ++ body.indent ++ closing)
      [.tryCatch values handler cleanup .start] := by
  obtain ⟨inner, hblock⟩ := hbody.block
  obtain ⟨tail, hfurther⟩ := hrest
  have hlexes := lexesAs_keyword "try" (by decide)
  have htext : "try \x7b".toList = "try".toList ++ [' ', '{'] := by decide
  have hlays := lays_block (.plain "try \x7b") hlexes htext hblock hfurther.lays
  rw [← List.append_nil (_ ++ _)] at hlays
  refine ⟨[⟨_, _⟩], hlays, List.forall_mem_singleton.mpr ⟨rfl, ?_⟩, rfl⟩
  intro size limit rest blocks hlength hsize hapart
  simp only [List.length_append, List.length_cons, List.length_nil] at hlength
  obtain ⟨limit, rfl⟩ : ∃ less, limit = less + 1 := ⟨limit - 1, by omega⟩
  have hread := hblock.reads (tail ++ rest) blocks (by omega) (Nat.le_of_lt hsize)
  have hmore := hfurther.reads rest blocks (by omega) hsize
    (show tail.length < limit by omega) hapart
  simp only [List.append_assoc, List.cons_append, List.nil_append]
  change tryStatement (statement (expression size) limit) (limit + 1) _ = _
  rw [tryStatement_eq (expression size) _ _ limit, bind_of_ok position_run,
    bind_of_ok (expectKeyword_kw "try"), bind_of_ok hread, bind_of_ok hmore]
  dsimp only
  rw [hsome]
  rfl

end Branches

end Diglot.Braced
