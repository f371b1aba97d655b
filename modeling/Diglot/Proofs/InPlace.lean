import Diglot.Proofs.Parser.Reaches
import Diglot.Proofs.Parser.Statements

namespace Diglot

-- The operations of a token stream.
inductive StreamOp where
  | current
  | peek (offset : Nat)
  | isAtEnd
  | check (kind : TokenKind)
  | checkOperator (lexeme : String)
  | checkKeyword (lexeme : String)
  | position
  | depth
  | advance
  | expect (kind : TokenKind) (lexeme : Option String)
  | expectOperator (lexeme : String)
  | expectKeyword (lexeme : String)
  | identifier
  | eatOperator (lexeme : String)
  | eatKeyword (lexeme : String)
  | skipNewlines
  | unexpected (expected : String)
  | refused (explanation : String)
  deriving DecidableEq, Repr

namespace StreamOp

-- What an operation returns if it does not fail.
inductive Answer where
  | token (found : Token)
  | ahead (found : Option Token)
  | flag (value : Bool)
  | place (pos : Pos)
  | count (value : Nat)
  | name (text : String)
  | done
  deriving DecidableEq, Repr

-- An operation as a reader.
def read : StreamOp → Parser Answer
  | current => return .token (← Parser.current)
  | peek offset => return .ahead (← Parser.peek offset)
  | isAtEnd => return .flag (← Parser.isAtEnd)
  | check kind => return .flag (← Parser.check kind)
  | checkOperator lexeme => return .flag (← Parser.checkOperator lexeme)
  | checkKeyword lexeme => return .flag (← Parser.checkKeyword lexeme)
  | position => return .place (← Parser.position)
  | depth => return .count (← get).depth
  | advance => return .token (← Parser.advance)
  | expect kind lexeme => return .token (← Parser.expect kind lexeme)
  | expectOperator lexeme => return .token (← Parser.expectOperator lexeme)
  | expectKeyword lexeme => return .token (← Parser.expectKeyword lexeme)
  | identifier => return .name (← Parser.identifier)
  | eatOperator lexeme => return .flag (← Parser.eatOperator lexeme)
  | eatKeyword lexeme => return .flag (← Parser.eatKeyword lexeme)
  | skipNewlines => do
      Parser.skipNewlines
      return .done
  | unexpected expected => Parser.unexpected expected
  | refused explanation => Parser.refused explanation

-- Whether an operation moves over a token and returns it.
def isMove : StreamOp → Bool
  | advance | expect .. | expectOperator _ | expectKeyword _ => true
  | _ => false

-- The stream behind an operation. One that fails gives no other stream.
def follow (stream : TokenStream) (op : StreamOp) : TokenStream :=
  match op.read stream with
  | .ok (_, next) => next
  | .error _ => stream

end StreamOp

-- A stream that is changed in place: all its tokens, the number of the current one and the levels
-- of the blocks, innermost first, with that of the program last. It also keeps every token that a
-- move has returned.
structure Tape where
  tokens : List Token
  position : Nat
  levels : Option (List Nat)
  returned : List Token

namespace Tape

-- What an operation has changed before it fails stays changed.
abbrev Action := ExceptT Failure (StateM Tape)

variable {α β : Type}

def current (tape : Tape) : Token :=
  tape.tokens.getD (min tape.position (tape.tokens.length - 1)) default

def peek (tape : Tape) (offset : Nat) : Option Token := tape.tokens[tape.position + offset]?

def isAtEnd (tape : Tape) : Bool := tape.current.kind == .eof

-- How many blocks are open. The level of the program is none of them.
def depth (tape : Tape) : Nat := (tape.levels.map fun levels => levels.length - 1).getD 0

-- The stream that a tape shows.
def stream (tape : Tape) : TokenStream :=
  ⟨tape.current, tape.tokens.drop (tape.position + 1), tape.levels.map List.dropLast⟩

-- Enters the level of an indent, or leaves that of a dedent.
def track (token : Token) : Action Unit := do
  match (← get).levels with
  | none => return
  | some levels =>
      match token.kind with
      | .indent =>
          let level := TokenStream.indentLevel (levels.headD 0) token.lexeme
          modify fun tape => { tape with levels := some (level :: levels) }
      | .dedent =>
          if levels.length ≤ 1 then throw ⟨.unbalancedDedent, token.pos⟩
          else modify fun tape => { tape with levels := some levels.tail }
      | _ => return

-- Moves over the current token and returns it. The levels are changed before the position.
def advance : Action Token := do
  let token := (← get).current
  track token
  modify fun tape =>
    { tape with
      position := if token.kind = .eof then tape.position else tape.position + 1
      returned := tape.returned ++ [token] }
  return token

def expect (kind : TokenKind) (lexeme : Option String) : Action Token := do
  let token := (← get).current
  if token.kind == kind && lexeme.all (· == token.lexeme) then advance
  else
    match lexeme with
    | some lexeme => throw ((← get).stream.unexpected (kind.name ++ " '" ++ lexeme ++ "'"))
    | none => throw ((← get).stream.unexpected kind.name)

def identifier : Action String := do return (← expect .identifier none).lexeme

-- Moves over the current token if it passes a test, and says whether it does.
def eat (wanted : Token → Bool) : Action Bool := do
  if wanted (← get).current then
    let _ ← advance
    return true
  else return false

-- Moves over tokens as long as they pass a test.
def skip (wanted : Token → Bool) : Nat → Action Unit
  | 0 => return
  | limit + 1 => do
      if ← eat wanted then skip wanted limit

def skipNewlines : Action Unit := do skip (·.kind == .newline) (← get).tokens.length

end Tape

-- An operation in place.
def StreamOp.perform : StreamOp → Tape.Action Answer
  | current => return .token (← get).current
  | peek offset => return .ahead ((← get).peek offset)
  | isAtEnd => return .flag (← get).isAtEnd
  | check kind => return .flag ((← get).current.kind == kind)
  | checkOperator lexeme => return .flag ((← get).current.isOperator lexeme)
  | checkKeyword lexeme => return .flag ((← get).current.isKeyword lexeme)
  | position => return .place (← get).current.pos
  | depth => return .count (← get).depth
  | advance => return .token (← Tape.advance)
  | expect kind lexeme => return .token (← Tape.expect kind lexeme)
  | expectOperator lexeme => return .token (← Tape.expect .operator (some lexeme))
  | expectKeyword lexeme => return .token (← Tape.expect .keyword (some lexeme))
  | identifier => return .name (← Tape.identifier)
  | eatOperator lexeme => return .flag (← Tape.eat (·.isOperator lexeme))
  | eatKeyword lexeme => return .flag (← Tape.eat (·.isKeyword lexeme))
  | skipNewlines => do
      Tape.skipNewlines
      return .done
  | unexpected expected => do throw ((← get).stream.unexpected expected)
  | refused explanation => do throw ((← get).stream.refused explanation)

namespace Tape

-- A list of tokens with an end. One that ends by itself stays as it is.
def closed (tokens : List Token) : List Token :=
  if tokens.getLast?.map (·.kind) = some .eof then tokens
  else tokens ++ [TokenStream.endOf tokens]

def ofTokens (tokens : List Token) (tracks : Bool) : Tape :=
  ⟨closed tokens, 0, if tracks then some [0] else none, []⟩

-- The tokens of a list up to the cursor.
def passed (tape : Tape) : List Token := tape.tokens.take tape.position

-- How a tape over a list of tokens stands between operations.
structure Stands (list : List Token) (tracks : Bool) (tape : Tape) : Prop where
  tokens : tape.tokens = list
  ended : ∃ token ∈ list, token.kind = .eof
  inside : tape.position < list.length
  open_end : ∀ token ∈ tape.passed, token.kind ≠ .eof
  returned : ∃ count, tape.returned = tape.passed ++ List.replicate count tape.current ∧
    (0 < count → tape.isAtEnd = true)
  tracked : tape.levels.isSome = tracks
  levels : ∀ levels, tape.levels = some levels → ∃ opened, levels = opened ++ [0] ∧
    opened.length + tape.passed.countP (·.kind == .dedent) = tape.passed.countP (·.kind == .indent)

section Advance

variable {list : List Token} {tracks : Bool} {tape after : Tape} {action : Action α}
  {rest : α → Action β} {opened blocks : List Nat} {token : Token}

-- The tape behind its current token, with some levels.
def moved (tape : Tape) (levels : Option (List Nat)) : Tape :=
  { tape with
    position := if tape.current.kind = .eof then tape.position else tape.position + 1
    levels
    returned := tape.returned ++ [tape.current] }

theorem moved_of_end (h : tape.current.kind = .eof) (levels : Option (List Nat)) :
    tape.moved levels = { tape with levels, returned := tape.returned ++ [tape.current] } := by
  simp only [moved, h, if_true]

theorem moved_of_more (h : tape.current.kind ≠ .eof) (levels : Option (List Nat)) :
    tape.moved levels =
      ⟨tape.tokens, tape.position + 1, levels, tape.returned ++ [tape.current]⟩ := by
  simp only [moved, h, if_false]

theorem getElem?_position (h : tape.position < tape.tokens.length) :
    tape.tokens[tape.position]? = some tape.current := by
  have hmin : min tape.position (tape.tokens.length - 1) = tape.position := by omega
  rw [current, hmin, List.getD_eq_getElem?_getD, List.getElem?_eq_getElem h]
  rfl

theorem Stands.getElem?_position (h : Stands list tracks tape) :
    list[tape.position]? = some tape.current := by
  rw [← h.tokens]
  apply Tape.getElem?_position
  rw [h.tokens]
  exact h.inside

theorem bind_ok {found : α} (h : action tape = (.ok found, after)) :
    (action >>= rest) tape = rest found after := by
  change (match action tape with | (result, after) => ExceptT.bindCont rest result after) = _
  rw [h]
  rfl

theorem bind_error {failure : Failure} (h : action tape = (.error failure, after)) :
    (action >>= rest) tape = (.error failure, after) := by
  change (match action tape with | (result, after) => ExceptT.bindCont rest result after) = _
  rw [h]
  rfl

theorem Stands.peek_zero (h : Stands list tracks tape) : tape.peek 0 = some tape.current := by
  rw [peek, h.tokens]
  exact h.getElem?_position

-- Blocks are opened and closed on a tape as they are in a stream.
theorem track_eq (token : Token) (h : tape.levels = some (opened ++ [0])) :
    track token tape =
      match TokenStream.blocksAfter opened token with
      | .ok blocks => (.ok (), { tape with levels := some (blocks ++ [0]) })
      | .error cause => (.error ⟨cause, token.pos⟩, tape) := by
  obtain ⟨tokens, position, levels, returned⟩ := tape
  obtain ⟨kind, lexeme, pos⟩ := token
  cases h
  cases kind with
  | indent => cases opened <;> rfl
  | dedent =>
      cases opened with
      | nil => rfl
      | cons width outer =>
          have hmany : ¬ (width :: outer ++ [0]).length ≤ 1 := by simp
          change (if (width :: outer ++ [0]).length ≤ 1 then _ else _ : Action Unit) _ = _
          rw [if_neg hmany]
          rfl
  | _ => rfl

theorem advance_untracked (h : tape.levels = none) :
    advance tape = (.ok tape.current, tape.moved none) := by
  obtain ⟨tokens, position, levels, returned⟩ := tape
  cases h
  rfl

theorem advance_tracked (h : tape.levels = some (opened ++ [0])) :
    advance tape =
      match TokenStream.blocksAfter opened tape.current with
      | .ok blocks => (.ok tape.current, tape.moved (some (blocks ++ [0])))
      | .error cause => (.error ⟨cause, tape.current.pos⟩, tape) := by
  have htrack := track_eq tape.current h
  change (track tape.current >>= fun _ => _ : Action Token) tape = _
  cases hafter : TokenStream.blocksAfter opened tape.current with
  | ok blocks =>
      rw [hafter] at htrack
      exact bind_ok htrack
  | error cause =>
      rw [hafter] at htrack
      exact bind_error htrack

-- An end that is still ahead is behind the current token, unless it is that token.
theorem Stands.next_inside (h : Stands list tracks tape) (hkind : tape.current.kind ≠ .eof) :
    tape.position + 1 < list.length := by
  apply Nat.lt_of_not_le
  intro hlast
  obtain ⟨last, hmem, heof⟩ := h.ended
  have hall : list = tape.passed ++ [tape.current] := by
    rw [passed, h.tokens, ← Option.toList_some, ← h.getElem?_position, ← List.take_add_one,
      List.take_of_length_le hlast]
  rw [hall] at hmem
  rcases List.mem_append.mp hmem with hmem | hmem
  · exact h.open_end last hmem heof
  · rw [List.mem_singleton.mp hmem] at heof
    exact hkind heof

theorem Stands.passed_moved (h : Stands list tracks tape) (levels : Option (List Nat)) :
    (tape.moved levels).passed =
      if tape.current.kind = .eof then tape.passed else tape.passed ++ [tape.current] := by
  unfold passed moved
  split
  · rfl
  · rw [List.take_add_one, h.tokens, h.getElem?_position]
    rfl

-- A move stops at an end, so that it never leads out of the list.
theorem Stands.inside_moved (h : Stands list tracks tape) (levels : Option (List Nat)) :
    (tape.moved levels).position < list.length := by
  unfold Tape.moved
  dsimp only
  split
  · exact h.inside
  · rename_i hkind
    exact h.next_inside hkind

-- A move on a tape is a move of the stream that it shows.
theorem Stands.stream_moved (h : Stands list tracks tape) (levels : Option (List Nat)) :
    (tape.moved levels).stream =
      { tape.stream.move with blocks := levels.map List.dropLast } := by
  by_cases hkind : tape.current.kind = .eof
  · have hmove : tape.stream.move = tape.stream := by
      have hend : tape.stream.isAtEnd = true := by simpa [TokenStream.isAtEnd, stream] using hkind
      unfold TokenStream.move
      rw [hend]
      split <;> rfl
    rw [hmove, moved_of_end hkind]
    rfl
  · have hnext := h.next_inside hkind
    have hend : tape.stream.isAtEnd = false := by simpa [TokenStream.isAtEnd, stream] using hkind
    have hupcoming : tape.stream.upcoming =
        (tape.moved levels).current :: list.drop (tape.position + 2) := by
      have hinside : (tape.moved levels).position < tape.tokens.length :=
        h.tokens ▸ h.inside_moved levels
      have hcurrent := Tape.getElem?_position hinside
      rw [moved_of_more hkind] at hcurrent ⊢
      rw [← h.tokens] at hnext ⊢
      rw [List.getElem?_eq_getElem hnext] at hcurrent
      rw [← Option.some.inj hcurrent]
      exact List.drop_eq_getElem_cons hnext
    unfold TokenStream.move
    rw [hupcoming, hend]
    simp [stream, moved_of_more hkind, h.tokens]

theorem Stands.moved (h : Stands list tracks tape) {levels : Option (List Nat)}
    (htracked : levels.isSome = tracks)
    (hlevels : ∀ found, levels = some found → ∃ opened, found = opened ++ [0] ∧
      opened.length + (tape.moved levels).passed.countP (·.kind == .dedent) =
        (tape.moved levels).passed.countP (·.kind == .indent)) :
    Stands list tracks (tape.moved levels) where
  tokens := h.tokens
  ended := h.ended
  inside := h.inside_moved levels
  open_end := by
    rw [h.passed_moved]
    split
    · exact h.open_end
    · rename_i hkind
      intro token htoken
      rcases List.mem_append.mp htoken with htoken | htoken
      · exact h.open_end token htoken
      · exact List.mem_singleton.mp htoken ▸ hkind
  returned := by
    obtain ⟨count, hreturned, hcount⟩ := h.returned
    rw [h.passed_moved]
    split
    · rename_i hkind
      refine ⟨count + 1, ?_, fun _ => ?_⟩
      · rw [moved_of_end hkind, List.replicate_succ', ← List.append_assoc]
        exact congrArg (· ++ [tape.current]) hreturned
      · rw [moved_of_end hkind]
        exact beq_iff_eq.mpr hkind
    · rename_i hkind
      have hzero : count = 0 := by
        apply Nat.eq_zero_of_not_pos
        intro hpos
        exact hkind (eq_of_beq (hcount hpos))
      refine ⟨0, ?_, by simp⟩
      simp [Tape.moved, hreturned, hzero]
  tracked := htracked
  levels := hlevels

theorem blocksAfter_end (h : token.kind = .eof) (opened : List Nat) :
    TokenStream.blocksAfter opened token = .ok opened := by
  unfold TokenStream.blocksAfter
  rw [h]

-- What a token does to the number of open blocks.
theorem length_of_blocksAfter (h : TokenStream.blocksAfter opened token = .ok blocks) :
    blocks.length + [token].countP (·.kind == .dedent) =
      opened.length + [token].countP (·.kind == .indent) := by
  obtain ⟨kind, lexeme, pos⟩ := token
  cases kind with
  | dedent =>
      cases opened with
      | nil => cases h
      | cons width outer =>
          cases h
          rfl
  | indent =>
      cases h
      rfl
  | _ =>
      cases h
      rfl

theorem Stands.moved_untracked (h : Stands list tracks tape) (hlevels : tape.levels = none) :
    Stands list tracks (tape.moved none) := by
  apply h.moved
  · rw [← h.tracked, hlevels]
  · simp

theorem Stands.moved_tracked (h : Stands list tracks tape)
    (hlevels : tape.levels = some (opened ++ [0]))
    (hafter : TokenStream.blocksAfter opened tape.current = .ok blocks) :
    Stands list tracks (tape.moved (some (blocks ++ [0]))) := by
  apply h.moved
  · rw [← h.tracked, hlevels]
    rfl
  · rintro found ⟨⟩
    obtain ⟨_, hopened, hcount⟩ := h.levels _ hlevels
    rw [← List.append_cancel_right hopened] at hcount
    refine ⟨blocks, rfl, ?_⟩
    rw [h.passed_moved]
    split
    · rename_i hkind
      rw [blocksAfter_end hkind] at hafter
      cases hafter
      exact hcount
    · have hlength := length_of_blocksAfter hafter
      rw [List.countP_append, List.countP_append]
      omega

end Advance

-- How an action on a tape ends beside a reader on the stream that the tape shows. Where the reader
-- fails, the tape is as it was. At the end, its cursor and its levels are as they were.
inductive Agrees (list : List Token) (tracks : Bool) (tape : Tape) :
    Except Failure (α × TokenStream) → Except Failure α × Tape → Prop
  | ok (found : α) (after : Tape) (hstands : Stands list tracks after)
      (hend : tape.isAtEnd = true → after.position = tape.position ∧ after.levels = tape.levels) :
      Agrees list tracks tape (.ok (found, after.stream)) (.ok found, after)
  | error (failure : Failure) : Agrees list tracks tape (.error failure) (.error failure, tape)

def Follows (list : List Token) (tracks : Bool) (reader : Parser α) (action : Action α) : Prop :=
  ∀ tape, Stands list tracks tape → Agrees list tracks tape (reader tape.stream) (action tape)

section Operations

variable {list : List Token} {tracks : Bool} {wanted : Token → Bool}

theorem Follows.map {reader : Parser α} {action : Action α} (h : Follows list tracks reader action)
    (f : α → β) : Follows list tracks (do return f (← reader)) (do return f (← action)) := by
  intro tape hstands
  change Agrees list tracks tape ((reader tape.stream).bind fun found => .ok (f found.1, found.2)) _
  generalize hreader : reader tape.stream = result
  generalize haction : action tape = outcome
  have hagrees := h tape hstands
  rw [hreader, haction] at hagrees
  cases hagrees with
  | ok found after hafter hend =>
      rw [bind_ok haction]
      exact .ok (f found) after hafter hend
  | error failure =>
      rw [bind_error haction]
      exact .error failure

-- An operation that only looks at the tape.
theorem Follows.look {read : TokenStream → α} {look : Tape → α}
    (h : ∀ tape, Stands list tracks tape → read tape.stream = look tape) :
    Follows list tracks (do return read (← get)) (do return look (← get)) := by
  intro tape hstands
  change Agrees list tracks tape (.ok (read tape.stream, tape.stream)) (.ok (look tape), tape)
  rw [h tape hstands]
  exact .ok (look tape) tape hstands fun _ => ⟨rfl, rfl⟩

-- An operation that only tells a failure.
theorem Follows.fail (tell : TokenStream → Failure) :
    Follows list tracks (do throw (tell (← get)) : Parser α) (do throw (tell (← get).stream)) :=
  fun _ _ => .error _

theorem advance_follows : Follows list tracks Parser.advance advance := by
  intro tape hstands
  change Agrees list tracks tape tape.stream.advance (advance tape)
  cases hlevels : tape.levels with
  | none =>
      have hadvance : tape.stream.advance = .ok (tape.current, (tape.moved none).stream) := by
        have hblocks : tape.stream.blocks = none := by simp [stream, hlevels]
        have hmoved : { tape.stream.move with blocks := none } = tape.stream.move := by
          rw [← hblocks, ← TokenStream.blocks_move]
        rw [hstands.stream_moved, Option.map_none, hmoved]
        simp only [TokenStream.advance, hblocks]
        rfl
      rw [advance_untracked hlevels, hadvance]
      refine .ok _ _ (hstands.moved_untracked hlevels) fun hend => ?_
      rw [moved_of_end (eq_of_beq hend)]
      exact ⟨rfl, hlevels.symm⟩
  | some levels =>
      obtain ⟨opened, rfl, -⟩ := hstands.levels levels hlevels
      have hblocks : tape.stream.blocks = some opened := by simp [stream, hlevels]
      rw [advance_tracked hlevels]
      cases hafter : TokenStream.blocksAfter opened tape.current with
      | error cause =>
          have hstream : TokenStream.blocksAfter opened tape.stream.current = .error cause := hafter
          simp only [TokenStream.advance, hblocks, hstream]
          exact .error _
      | ok blocks =>
          have hstream : TokenStream.blocksAfter opened tape.stream.current = .ok blocks := hafter
          have hmoved := hstands.stream_moved (some (blocks ++ [0]))
          rw [Option.map_some, List.dropLast_concat] at hmoved
          simp only [TokenStream.advance, hblocks, hstream]
          rw [← hmoved]
          refine .ok _ _ (hstands.moved_tracked hlevels hafter) fun hend => ?_
          have hkind := eq_of_beq hend
          rw [blocksAfter_end hkind] at hafter
          cases hafter
          rw [moved_of_end hkind]
          exact ⟨rfl, hlevels.symm⟩

theorem expect_follows (kind : TokenKind) (lexeme : Option String) :
    Follows list tracks (Parser.expect kind lexeme) (expect kind lexeme) := by
  intro tape hstands
  change Agrees list tracks tape
    ((if tape.current.kind == kind && lexeme.all (· == tape.current.lexeme) then Parser.advance
      else _ : Parser Token) tape.stream)
    ((if tape.current.kind == kind && lexeme.all (· == tape.current.lexeme) then advance
      else _ : Action Token) tape)
  split
  · exact advance_follows tape hstands
  · cases lexeme with
    | none => exact .error _
    | some lexeme => exact .error _

theorem eat_follows (wanted : Token → Bool) {reader : Parser Bool}
    (hreader : reader = do
      if wanted (← get).current then
        let _ ← Parser.advance
        return true
      else return false) : Follows list tracks reader (eat wanted) := by
  intro tape hstands
  rw [hreader]
  change Agrees list tracks tape
    ((if wanted tape.current then (do return (fun _ => true) (← Parser.advance)) else return false :
      Parser Bool) tape.stream)
    ((if wanted tape.current then (do return (fun _ => true) (← advance)) else return false :
      Action Bool) tape)
  split
  · exact advance_follows.map (fun _ => true) tape hstands
  · exact .ok false tape hstands fun _ => ⟨rfl, rfl⟩

theorem dropWhile_move {p : Token → Bool} {s : TokenStream} (h : p s.current = true)
    (hkind : s.current.kind ≠ .eof) : s.dropWhile p = s.move.dropWhile p := by
  obtain ⟨current, upcoming, blocks⟩ := s
  have hend : (current.kind == .eof) = false := by simpa using hkind
  cases upcoming with
  | nil => rfl
  | cons next rest =>
      simp only [TokenStream.dropWhile, TokenStream.move, TokenStream.isAtEnd,
        TokenStream.dropTokens, hend, h, if_true]
      rfl

theorem Stands.size_move {tape : Tape} (h : Stands list tracks tape)
    (hkind : tape.current.kind ≠ .eof) : tape.stream.move.size < tape.stream.size := by
  have hnext : tape.position + 1 < tape.tokens.length := h.tokens ▸ h.next_inside hkind
  have hend : tape.stream.isAtEnd = false := by simpa [TokenStream.isAtEnd, stream] using hkind
  have hupcoming : tape.stream.upcoming = tape.tokens[tape.position + 1] :: _ :=
    List.drop_eq_getElem_cons hnext
  unfold TokenStream.move
  rw [hupcoming, hend]
  simp only [TokenStream.size, hupcoming, List.length_cons]
  exact Nat.lt_succ_self _

-- Each round of the loop moves over one token, so that the tokens ahead bound its rounds.
theorem skip_run (hsolid : ∀ token, wanted token = true → token.isSolid = true) (limit : Nat)
    (tape : Tape) (hstands : Stands list tracks tape) (hlimit : tape.stream.size ≤ limit) :
    ∃ after, skip wanted limit tape = (.ok (), after) ∧
      after.stream = tape.stream.dropWhile wanted ∧ Stands list tracks after ∧
      (tape.isAtEnd = true → after = tape) := by
  induction limit generalizing tape with
  | zero => cases hlimit
  | succ limit ih =>
      by_cases hwanted : wanted tape.current = true
      · have heat := eat_follows wanted rfl tape hstands
        change Agrees list tracks tape
          ((if wanted tape.current then (do return (fun _ => true) (← Parser.advance))
            else return false : Parser Bool) tape.stream) (eat wanted tape) at heat
        have hkind : tape.current.kind ≠ .eof := by
          intro hkind
          simpa [Token.isSolid, hkind] using hsolid _ hwanted
        have hadvance : Parser.advance tape.stream = .ok (tape.current, tape.stream.move) :=
          TokenStream.advance_of_isSolid (hsolid _ hwanted)
        rw [if_pos hwanted, Parser.bind_of_ok hadvance] at heat
        generalize houtcome : eat wanted tape = outcome at heat
        generalize hmove : tape.stream.move = next at heat
        cases heat with
        | ok found after hafter hend =>
          have hsize := hstands.size_move hkind
          rw [hmove] at hsize
          obtain ⟨last, hskip, hstream, hlast, -⟩ := ih after hafter (by omega)
          refine ⟨last, ?_, ?_, hlast, fun hend => absurd (eq_of_beq hend) hkind⟩
          · exact (bind_ok houtcome).trans hskip
          · rw [hstream, ← hmove]
            exact (dropWhile_move hwanted hkind).symm
      · refine ⟨tape, ?_, ?_, hstands, fun _ => rfl⟩
        · have heaten : eat wanted tape = (.ok false, tape) := by
            change (if wanted tape.current then _ else return false : Action Bool) tape = _
            rw [if_neg hwanted]
            rfl
          exact bind_ok heaten
        · exact (Parser.dropWhile_of_current (eq_false_of_ne_true hwanted)).symm

theorem skip_follows (hsolid : ∀ token, wanted token = true → token.isSolid = true) :
    Follows list tracks (modify (·.dropWhile wanted)) (do skip wanted (← get).tokens.length) := by
  intro tape hstands
  have hsize : tape.stream.size ≤ tape.tokens.length := by
    have hinside : tape.position < tape.tokens.length := hstands.tokens ▸ hstands.inside
    simp only [TokenStream.size, stream, List.length_drop]
    omega
  obtain ⟨after, hskip, hstream, hafter, hend⟩ := skip_run hsolid _ tape hstands hsize
  change Agrees list tracks tape (.ok ((), tape.stream.dropWhile wanted)) (skip wanted _ tape)
  rw [hskip, ← hstream]
  exact .ok () after hafter fun h => hend h ▸ ⟨rfl, rfl⟩

-- Every operation on a tape does what it does to a stream, and fails only as a whole.
theorem perform_follows (op : StreamOp) : Follows list tracks op.read op.perform := by
  cases op with
  | current => exact .look fun _ _ => rfl
  | peek offset =>
      refine .look fun tape hstands => congrArg _ ?_
      cases offset with
      | zero => exact hstands.peek_zero.symm
      | succ offset =>
          simp only [TokenStream.peek, stream, peek, List.getElem?_drop]
          congr 1
          omega
  | isAtEnd => exact .look fun _ _ => rfl
  | check kind => exact .look fun _ _ => rfl
  | checkOperator lexeme => exact .look fun _ _ => rfl
  | checkKeyword lexeme => exact .look fun _ _ => rfl
  | position => exact .look fun _ _ => rfl
  | depth =>
      refine .look fun tape _ => ?_
      cases hlevels : tape.levels <;> simp [TokenStream.depth, stream, depth, hlevels]
  | advance => exact advance_follows.map _
  | expect kind lexeme => exact (expect_follows kind lexeme).map _
  | expectOperator lexeme => exact (expect_follows _ _).map _
  | expectKeyword lexeme => exact (expect_follows _ _).map _
  | identifier => exact ((expect_follows .identifier none).map _).map _
  | eatOperator lexeme => exact (eat_follows (·.isOperator lexeme) rfl).map _
  | eatKeyword lexeme => exact (eat_follows (·.isKeyword lexeme) rfl).map _
  | skipNewlines =>
      have hskip : Follows list tracks Parser.skipNewlines skipNewlines :=
        skip_follows fun token htoken => by simp [Token.isSolid, eq_of_beq htoken]
      exact hskip.map fun _ => StreamOp.Answer.done
  | unexpected expected => exact .fail _
  | refused explanation => exact .fail _

end Operations

section Runs

variable {list : List Token} {tracks : Bool} {tape after : Tape} {token : Token}

-- The tape behind some operations.
def run (tape : Tape) (ops : List StreamOp) : Tape :=
  ops.foldl (fun tape op => (op.perform tape).2) tape

-- What is true of a tape over a list of tokens between operations, whichever have been done.
structure Sound (list : List Token) (tracks : Bool) (tape : Tape) : Prop where
  -- The cursor is at a token of the list.
  cursor : list[tape.position]? = some tape.current
  peek_zero : tape.peek 0 = some tape.current
  -- If there are levels, they are never used up.
  tracked : tape.levels.isSome = tracks
  levels_ne_nil : tape.levels ≠ some []
  depth_eq : (tape.depth : Int) =
    if tracks then
      (tape.passed.countP (·.kind == .indent) : Int) - tape.passed.countP (·.kind == .dedent)
    else 0
  -- The moves have returned the tokens up to the cursor, each once, and from the first end on only
  -- that end.
  passed_eq : tape.passed = list.take tape.position
  open_end : ∀ token ∈ tape.passed, token.kind ≠ .eof
  returned : ∃ count, tape.returned = tape.passed ++ List.replicate count tape.current ∧
    (0 < count → tape.isAtEnd = true)
  records : ∀ op token after, StreamOp.isMove op = true →
    op.perform tape = (.ok (.token token), after) → after.returned = tape.returned ++ [token]
  stays : tape.isAtEnd = true → ∀ ops,
    (tape.run ops).position = tape.position ∧ (tape.run ops).levels = tape.levels
  -- An operation that fails changes nothing.
  atomic : ∀ op failure after, StreamOp.perform op tape = (.error failure, after) → after = tape
  -- A stream answers as the tape does, and the tape then shows the stream that is left.
  answers : ∀ op, StreamOp.read op tape.stream =
    match op.perform tape with
    | (.ok answer, after) => .ok (answer, after.stream)
    | (.error failure, _) => .error failure

theorem Stands.perform (h : Stands list tracks tape) (op : StreamOp) :
    Stands list tracks (op.perform tape).2 ∧
      (op.perform tape).2.stream = StreamOp.follow tape.stream op ∧
      (tape.isAtEnd = true → (op.perform tape).2.position = tape.position ∧
        (op.perform tape).2.levels = tape.levels) := by
  have hagrees := perform_follows op tape h
  unfold StreamOp.follow
  generalize op.read tape.stream = result at hagrees ⊢
  generalize op.perform tape = outcome at hagrees ⊢
  cases hagrees with
  | ok answer after hafter hend => exact ⟨hafter, rfl, hend⟩
  | error failure => exact ⟨h, rfl, fun _ => ⟨rfl, rfl⟩⟩

theorem Stands.run (h : Stands list tracks tape) (ops : List StreamOp) :
    Stands list tracks (tape.run ops) ∧
      (tape.run ops).stream = ops.foldl StreamOp.follow tape.stream ∧
      (tape.isAtEnd = true →
        (tape.run ops).position = tape.position ∧ (tape.run ops).levels = tape.levels) := by
  induction ops generalizing tape with
  | nil => exact ⟨h, rfl, fun _ => ⟨rfl, rfl⟩⟩
  | cons op rest ih =>
      obtain ⟨hnext, hstream, hstay⟩ := h.perform op
      obtain ⟨hlast, hfold, hstays⟩ := ih hnext
      rw [hstream] at hfold
      refine ⟨hlast, hfold, fun hend => ?_⟩
      obtain ⟨hposition, hlevels⟩ := hstay hend
      have hcurrent : (op.perform tape).2.current = tape.current := by
        unfold current
        rw [hposition, hnext.tokens, h.tokens]
      obtain ⟨hposition', hlevels'⟩ := hstays (by rw [isAtEnd, hcurrent]; exact hend)
      exact ⟨hposition'.trans hposition, hlevels'.trans hlevels⟩

theorem Stands.depth_eq (h : Stands list tracks tape) :
    (tape.depth : Int) =
      if tracks then
        (tape.passed.countP (·.kind == .indent) : Int) - tape.passed.countP (·.kind == .dedent)
      else 0 := by
  have htracked := h.tracked
  cases hlevels : tape.levels with
  | none =>
      rw [hlevels] at htracked
      simp [depth, hlevels, ← htracked]
  | some levels =>
      obtain ⟨opened, rfl, hcount⟩ := h.levels levels hlevels
      rw [hlevels] at htracked
      simp only [depth, hlevels, ← htracked, Option.map_some, Option.getD_some, Option.isSome_some,
        List.length_append, List.length_singleton, if_true]
      omega

theorem Stands.advance_records (h : Stands list tracks tape)
    (hadvance : advance tape = (.ok token, after)) : after.returned = tape.returned ++ [token] := by
  cases hlevels : tape.levels with
  | none =>
      rw [advance_untracked hlevels] at hadvance
      cases hadvance
      rfl
  | some levels =>
      obtain ⟨opened, rfl, -⟩ := h.levels levels hlevels
      rw [advance_tracked hlevels] at hadvance
      split at hadvance <;> cases hadvance
      rfl

theorem Stands.expect_records (h : Stands list tracks tape) {kind : TokenKind}
    {lexeme : Option String} (hexpect : expect kind lexeme tape = (.ok token, after)) :
    after.returned = tape.returned ++ [token] := by
  change (if tape.current.kind == kind && lexeme.all (· == tape.current.lexeme) then advance
    else _ : Action Token) tape = _ at hexpect
  split at hexpect
  · exact h.advance_records hexpect
  · cases lexeme <;> cases hexpect

-- What an action returned before its answer was wrapped.
theorem of_map_ok {action : Action α} {f : α → β} {found : β}
    (h : (do return f (← action) : Action β) tape = (.ok found, after)) :
    ∃ inner, action tape = (.ok inner, after) ∧ f inner = found := by
  cases houtcome : action tape with
  | mk result last =>
      cases result with
      | ok inner =>
          rw [bind_ok houtcome] at h
          cases h
          exact ⟨inner, rfl, rfl⟩
      | error failure =>
          rw [bind_error houtcome] at h
          cases h

theorem Stands.records (h : Stands list tracks tape) (op : StreamOp) (token : Token) (after : Tape)
    (hmove : op.isMove = true) (hperform : op.perform tape = (.ok (.token token), after)) :
    after.returned = tape.returned ++ [token] := by
  cases op with
  | advance =>
      obtain ⟨found, hfound, ⟨⟩⟩ := of_map_ok hperform
      exact h.advance_records hfound
  | expect kind lexeme | expectOperator lexeme | expectKeyword lexeme =>
      obtain ⟨found, hfound, ⟨⟩⟩ := of_map_ok hperform
      exact h.expect_records hfound
  | _ => cases hmove

theorem Stands.sound (h : Stands list tracks tape) : Sound list tracks tape where
  cursor := h.getElem?_position
  peek_zero := h.peek_zero
  tracked := h.tracked
  levels_ne_nil := by
    intro hlevels
    obtain ⟨opened, hnil, -⟩ := h.levels [] hlevels
    simp at hnil
  depth_eq := h.depth_eq
  passed_eq := by rw [passed, h.tokens]
  open_end := h.open_end
  returned := h.returned
  records := h.records
  stays := fun hend ops => (h.run ops).2.2 hend
  atomic := by
    intro op failure after hfails
    have hagrees := perform_follows op tape h
    rw [hfails] at hagrees
    generalize op.read tape.stream = result at hagrees
    cases hagrees
    rfl
  answers := by
    intro op
    have hagrees := perform_follows op tape h
    generalize op.read tape.stream = result at hagrees ⊢
    generalize op.perform tape = outcome at hagrees ⊢
    cases hagrees <;> rfl

theorem ended_closed (tokens : List Token) : ∃ token ∈ closed tokens, token.kind = .eof := by
  unfold closed
  split
  · rename_i hlast
    obtain ⟨last, hmem, hkind⟩ := Option.map_eq_some_iff.mp hlast
    exact ⟨last, List.mem_of_getLast? hmem, hkind⟩
  · exact ⟨TokenStream.endOf tokens, by simp, rfl⟩

theorem stands_ofTokens (tokens : List Token) (tracks : Bool) :
    Stands (closed tokens) tracks (ofTokens tokens tracks) where
  tokens := rfl
  ended := ended_closed tokens
  inside := by
    obtain ⟨last, hmem, -⟩ := ended_closed tokens
    exact List.length_pos_of_mem hmem
  open_end := by simp [passed, ofTokens]
  returned := ⟨0, by simp [passed, ofTokens], by simp⟩
  tracked := by cases tracks <;> rfl
  levels := by
    intro levels hlevels
    cases tracks with
    | false => cases hlevels
    | true =>
        cases hlevels
        exact ⟨[], rfl, by simp [passed, ofTokens]⟩

-- A tape over a list shows the stream over that list.
theorem stream_ofTokens (tokens : List Token) (tracks : Bool) :
    (ofTokens tokens tracks).stream = .ofTokens tokens (if tracks then some [] else none) := by
  have hblocks : (if tracks then some [0] else none : Option (List Nat)).map List.dropLast =
      if tracks then some [] else none := by
    cases tracks <;> rfl
  cases tokens with
  | nil => simp [stream, ofTokens, closed, current, TokenStream.ofTokens, hblocks]
  | cons first rest =>
      by_cases hlast : (first :: rest).getLast?.map (·.kind) = some .eof
      · have hclosed : closed (first :: rest) = first :: rest := if_pos hlast
        simp [stream, ofTokens, hclosed, current, TokenStream.ofTokens, hblocks, hlast]
      · have hclosed : closed (first :: rest) =
            first :: (rest ++ [TokenStream.endOf (first :: rest)]) := if_neg hlast
        simp [stream, ofTokens, hclosed, current, TokenStream.ofTokens, hblocks, hlast]

-- Whatever list of tokens a tape is over, and whatever operations are done on it, it is sound, and
-- it shows the stream that the same operations lead to.
theorem run_sound (tokens : List Token) (tracks : Bool) (ops : List StreamOp) :
    Sound (closed tokens) tracks ((ofTokens tokens tracks).run ops) ∧
      ((ofTokens tokens tracks).run ops).stream =
        ops.foldl StreamOp.follow (.ofTokens tokens (if tracks then some [] else none)) := by
  obtain ⟨hstands, hstream, -⟩ := (stands_ofTokens tokens tracks).run ops
  rw [stream_ofTokens] at hstream
  exact ⟨hstands.sound, hstream⟩

-- A list with an end in its middle, and a dedent too many in front of it.
def crookedBlocks : List Token :=
  [⟨.newline, "", ⟨1, 1⟩⟩, ⟨.indent, "wide", ⟨2, 1⟩⟩, ⟨.dedent, "", ⟨3, 1⟩⟩, ⟨.dedent, "", ⟨4, 1⟩⟩,
    ⟨.eof, "", ⟨5, 1⟩⟩, ⟨.number, "1", ⟨6, 1⟩⟩]

-- The dedent that closes nothing is refused again and again, and stays ahead.
theorem run_sound_crookedBlocks :
    let tape := (ofTokens crookedBlocks true).run [.skipNewlines, .advance, .advance, .advance]
    tape.position = 3 ∧ (StreamOp.perform .advance tape).1 = .error ⟨.unbalancedDedent, ⟨4, 1⟩⟩ ∧
      Sound (closed crookedBlocks) true tape ∧
      tape.stream = [.skipNewlines, .advance, .advance, .advance].foldl StreamOp.follow
        (.ofTokens crookedBlocks (some [])) :=
  ⟨by decide, by rfl, run_sound crookedBlocks true _⟩

end Runs

end Tape

end Diglot
