import Diglot.Proofs.Parser.Blind

namespace Diglot

theorem mem_pair {α : Type} {a b c : α} : a ∈ [b, c] ↔ a = b ∨ a = c := by simp

namespace Token

-- Tokens without places.

def op (lexeme : String) : Token := ⟨.operator, lexeme, .start⟩

def kw (lexeme : String) : Token := ⟨.keyword, lexeme, .start⟩

def word (name : String) : Token := ⟨.identifier, name, .start⟩

def number (literal : String) : Token := ⟨.number, literal, .start⟩

def string (value : String) : Token := ⟨.string, value, .start⟩

def newline : Token := ⟨.newline, "\n", .start⟩

def indent (width : Nat) : Token := ⟨.indent, toString width, .start⟩

def dedent : Token := ⟨.dedent, "", .start⟩

def ending : Token := ⟨.eof, "", .start⟩

-- Whether a stream moves over a token without looking at its blocks.
def isSolid (token : Token) : Bool :=
  match token.kind with
  | .eof | .indent | .dedent => false
  | _ => true

@[simp]
theorem kind_op (lexeme : String) : (op lexeme).kind = .operator := rfl

@[simp]
theorem lexeme_op (lexeme : String) : (op lexeme).lexeme = lexeme := rfl

@[simp]
theorem pos_op (lexeme : String) : (op lexeme).pos = .start := rfl

@[simp]
theorem kind_kw (lexeme : String) : (kw lexeme).kind = .keyword := rfl

@[simp]
theorem lexeme_kw (lexeme : String) : (kw lexeme).lexeme = lexeme := rfl

@[simp]
theorem kind_word (name : String) : (word name).kind = .identifier := rfl

@[simp]
theorem lexeme_word (name : String) : (word name).lexeme = name := rfl

@[simp]
theorem kind_number (literal : String) : (number literal).kind = .number := rfl

@[simp]
theorem lexeme_number (literal : String) : (number literal).lexeme = literal := rfl

@[simp]
theorem pos_number (literal : String) : (number literal).pos = .start := rfl

@[simp]
theorem kind_string (value : String) : (string value).kind = .string := rfl

@[simp]
theorem lexeme_string (value : String) : (string value).lexeme = value := rfl

@[simp]
theorem pos_string (value : String) : (string value).pos = .start := rfl

@[simp]
theorem pos_kw (lexeme : String) : (kw lexeme).pos = .start := rfl

@[simp]
theorem pos_word (name : String) : (word name).pos = .start := rfl

@[simp]
theorem isOperator_op (lexeme other : String) : (op lexeme).isOperator other = (lexeme == other) := by
  simp [op, isOperator, is]

@[simp]
theorem isKeyword_kw (lexeme other : String) : (kw lexeme).isKeyword other = (lexeme == other) := by
  simp [kw, isKeyword, is]

@[simp]
theorem isKeyword_op (lexeme other : String) : (op lexeme).isKeyword other = false := rfl

@[simp]
theorem isOperator_kw (lexeme other : String) : (kw lexeme).isOperator other = false := rfl

@[simp]
theorem isOperator_word (name other : String) : (word name).isOperator other = false := rfl

@[simp]
theorem isKeyword_word (name other : String) : (word name).isKeyword other = false := rfl

@[simp]
theorem isOperator_ending (other : String) : ending.isOperator other = false := rfl

@[simp]
theorem isKeyword_ending (other : String) : ending.isKeyword other = false := rfl

end Token

namespace TokenStream

-- The columns of the open blocks, where blocks are looked at.
abbrev Blocks := Option (List Nat)

-- The stream over some tokens and the end behind them.
def ahead (tokens : List Token) (blocks : Blocks) : TokenStream :=
  match tokens with
  | [] => ⟨.ending, [], blocks⟩
  | first :: rest => ⟨first, rest ++ [.ending], blocks⟩

variable {token : Token} {tokens : List Token} {blocks : Blocks}

@[simp]
theorem current_ahead_nil : (ahead [] blocks).current = .ending := rfl

@[simp]
theorem current_ahead_cons : (ahead (token :: tokens) blocks).current = token := rfl

@[simp]
theorem blocks_ahead : (ahead tokens blocks).blocks = blocks := by cases tokens <;> rfl

theorem move_ahead (h : token.kind ≠ .eof) :
    (ahead (token :: tokens) blocks).move = ahead tokens blocks := by
  have hend : (token.kind == .eof) = false := by simpa using h
  cases tokens with
  | nil => simp [move, ahead, isAtEnd, hend]
  | cons first rest => simp [move, ahead, isAtEnd, hend]

-- Moving over a token that opens or closes blocks.
theorem advance_ahead_blocks {widths after : List Nat} (h : token.kind ≠ .eof)
    (hafter : blocksAfter widths token = .ok after) :
    (ahead (token :: tokens) (some widths)).advance = .ok (token, ahead tokens (some after)) := by
  have hmove : { (ahead (token :: tokens) (some widths)).move with blocks := some after } =
      ahead tokens (some after) := by
    rw [move_ahead h]
    cases tokens <;> rfl
  simp only [advance, blocks_ahead, current_ahead_cons, hafter, hmove]

theorem advance_ahead (h : token.isSolid = true) :
    (ahead (token :: tokens) blocks).advance = .ok (token, ahead tokens blocks) := by
  have heof : token.kind ≠ .eof := by
    intro heof
    simp [Token.isSolid, heof] at h
  cases blocks with
  | none => simp only [advance, blocks_ahead, current_ahead_cons, move_ahead heof]
  | some widths =>
      apply advance_ahead_blocks heof
      unfold blocksAfter
      split
      · simp_all [Token.isSolid]
      · simp_all [Token.isSolid]
      · rfl

end TokenStream

namespace Parser

open TokenStream

variable {α β ω π : Type} {token : Token} {tokens : List Token} {blocks : Blocks}
  {s t : TokenStream} {p : Parser Bool} {f g : Parser β} {lexeme : String}
  {table : List (String × ω)} {parts : List π} {spelled : π → List Token}

theorem bind_run (p : Parser α) (f : α → Parser β) (s : TokenStream) :
    (p >>= f) s = (p s).bind fun found => f found.1 found.2 := rfl

theorem map_run (f : α → β) (p : Parser α) (s : TokenStream) :
    (f <$> p) s = (p s).bind fun found => .ok (f found.1, found.2) := rfl

theorem pure_run (a : α) (s : TokenStream) : (pure a : Parser α) s = .ok (a, s) := rfl

-- Goes on behind a reader whose outcome is known.
theorem bind_of_ok {p : Parser α} {f : α → Parser β} {a : α} (h : p s = .ok (a, t)) :
    (p >>= f) s = f a t := by
  rw [bind_run, h]
  rfl

-- Goes on behind a test whose answer is known.

theorem test_of_true (h : p s = .ok (true, t)) : (do if ← p then f else g) s = f t := bind_of_ok h

theorem test_of_false (h : p s = .ok (false, t)) : (do if ← p then f else g) s = g t := bind_of_ok h

@[simp]
theorem ok_bind {ε : Type} (a : α) (f : α → Except ε β) : (Except.ok a).bind f = f a := rfl

@[simp]
theorem position_run : position s = .ok (s.current.pos, s) := rfl

@[simp]
theorem current_run : current s = .ok (s.current, s) := rfl

@[simp]
theorem check_run (kind : TokenKind) : check kind s = .ok (s.current.kind == kind, s) := rfl

@[simp]
theorem checkOperator_run (lexeme : String) :
    checkOperator lexeme s = .ok (s.current.isOperator lexeme, s) := rfl

@[simp]
theorem checkKeyword_run (lexeme : String) :
    checkKeyword lexeme s = .ok (s.current.isKeyword lexeme, s) := rfl

@[simp]
theorem isAtEnd_run : isAtEnd s = .ok (s.isAtEnd, s) := rfl

theorem advance_run (h : token.isSolid = true) :
    advance (ahead (token :: tokens) blocks) = .ok (token, ahead tokens blocks) := advance_ahead h

@[simp]
theorem advance_op (lexeme : String) :
    advance (ahead (.op lexeme :: tokens) blocks) = .ok (.op lexeme, ahead tokens blocks) :=
  advance_ahead rfl

@[simp]
theorem advance_kw (lexeme : String) :
    advance (ahead (.kw lexeme :: tokens) blocks) = .ok (.kw lexeme, ahead tokens blocks) :=
  advance_ahead rfl

@[simp]
theorem advance_word (name : String) :
    advance (ahead (.word name :: tokens) blocks) = .ok (.word name, ahead tokens blocks) :=
  advance_ahead rfl

@[simp]
theorem advance_number (literal : String) :
    advance (ahead (.number literal :: tokens) blocks) = .ok (.number literal, ahead tokens blocks) :=
  advance_ahead rfl

@[simp]
theorem advance_string (value : String) :
    advance (ahead (.string value :: tokens) blocks) = .ok (.string value, ahead tokens blocks) :=
  advance_ahead rfl

@[simp]
theorem eatOperator_op (lexeme : String) :
    eatOperator lexeme (ahead (.op lexeme :: tokens) blocks) = .ok (true, ahead tokens blocks) := by
  simp [eatOperator, bind_run, map_run]

theorem eatOperator_miss (h : s.current.isOperator lexeme = false) :
    eatOperator lexeme s = .ok (false, s) := by
  simp [eatOperator, bind_run, pure_run, h]

@[simp]
theorem eatKeyword_kw (lexeme : String) :
    eatKeyword lexeme (ahead (.kw lexeme :: tokens) blocks) = .ok (true, ahead tokens blocks) := by
  simp [eatKeyword, bind_run, map_run]

theorem eatKeyword_miss (h : s.current.isKeyword lexeme = false) :
    eatKeyword lexeme s = .ok (false, s) := by
  simp [eatKeyword, bind_run, pure_run, h]

@[simp]
theorem expectOperator_op (lexeme : String) :
    expectOperator lexeme (ahead (.op lexeme :: tokens) blocks) =
      .ok (.op lexeme, ahead tokens blocks) := by
  simp [expectOperator, expect, bind_run]

@[simp]
theorem expectKeyword_kw (lexeme : String) :
    expectKeyword lexeme (ahead (.kw lexeme :: tokens) blocks) =
      .ok (.kw lexeme, ahead tokens blocks) := by
  simp [expectKeyword, expect, bind_run]

@[simp]
theorem identifier_word (name : String) :
    identifier (ahead (.word name :: tokens) blocks) = .ok (name, ahead tokens blocks) := by
  simp [identifier, expect, bind_run, pure_run]

-- One of several operators is found by its lexeme.
theorem oneOperator_op {meaning : ω}
    (h : table.find? (fun entry => lexeme == entry.1) = some (lexeme, meaning)) :
    oneOperator table (ahead (.op lexeme :: tokens) blocks) =
      .ok (some meaning, ahead tokens blocks) := by
  simp [oneOperator, bind_run, map_run, h]

theorem oneOperator_miss (h : ∀ entry ∈ table, s.current.isOperator entry.1 = false) :
    oneOperator table s = .ok (none, s) := by
  have hfind : table.find? (fun entry => s.current.isOperator entry.1) = none := by
    simpa using h
  simp [oneOperator, bind_run, pure_run, hfind]

section Loops

variable {operator? more : Parser (Option ω)} {operand : Parser α} {apply : ω → α → α → α}
  {t u : TokenStream} {item : ω → Parser α}

-- A chain ends where no operator follows, if a round is left to see it.
theorem chainLeft_stop (h : operator? s = .ok (none, s)) (limit : Nat) (left : α) :
    chainLeft operator? operand apply (limit + 1) left s = .ok (left, s) := by
  rw [chainLeft, bind_of_ok h]
  rfl

theorem chainLeft_step {op : ω} {right : α} (hop : operator? s = .ok (some op, t))
    (hright : operand t = .ok (right, u)) (limit : Nat) (left : α) :
    chainLeft operator? operand apply (limit + 1) left s =
      chainLeft operator? operand apply limit (apply op left right) u := by
  rw [chainLeft, bind_of_ok hop]
  exact bind_of_ok hright

theorem leftAssoc_run {operand : Parser Expr} {node : ω → Expr → Expr → Pos → Expr} {first : Expr}
    (h : operand s = .ok (first, t)) (limit : Nat) :
    leftAssoc operator? operand node limit s = chainLeft operator? operand
      (fun op left right => node op left right s.current.pos) limit first t := by
  rw [leftAssoc, bind_of_ok position_run, bind_of_ok h]

theorem whilst_stop (h : more s = .ok (none, s)) {limit : Nat} (hlimit : 0 < limit) :
    whilst more item limit s = .ok ([], s) := by
  cases limit with
  | zero => cases hlimit
  | succ limit =>
      rw [whilst, bind_of_ok h]
      rfl

theorem whilst_step {v : TokenStream} {mark : ω} {first : α} {rest : List α} {limit : Nat}
    (hmore : more s = .ok (some mark, t)) (hfirst : item mark t = .ok (first, u))
    (hrest : whilst more item limit u = .ok (rest, v)) :
    whilst more item (limit + 1) s = .ok (first :: rest, v) := by
  rw [whilst, bind_of_ok hmore]
  dsimp only
  rw [bind_of_ok hfirst, bind_of_ok hrest, pure_run]

end Loops

-- The tokens of items with commas between them.
def commas (items : List (List Token)) : List Token := [Token.op ","].intercalate items

theorem commas_nil : commas [] = [] := rfl

theorem commas_singleton (item : List Token) : commas [item] = item :=
  List.intercalate_singleton

theorem commas_cons_cons (first second : List Token) (others : List (List Token)) :
    commas (first :: second :: others) = first ++ .op "," :: commas (second :: others) := by
  rw [commas, List.intercalate_cons_cons, List.append_assoc, List.singleton_append, commas]

theorem length_le_length_commas {part : π} (h : part ∈ parts) (spelled : π → List Token) :
    (spelled part).length ≤ (commas (parts.map spelled)).length := by
  induction parts with
  | nil => cases h
  | cons first others ih =>
      cases others with
      | nil =>
          rw [List.mem_singleton] at h
          simp only [h, List.map_cons, List.map_nil, commas_singleton, Nat.le_refl]
      | cons second others =>
          simp only [List.map_cons, commas_cons_cons, List.length_append,
            List.length_cons] at ih ⊢
          rcases List.mem_cons.mp h with rfl | h
          · omega
          · have := ih h
            omega

-- There are no more items than tokens if no item is empty.
theorem length_parts_le (h : ∀ part ∈ parts, 0 < (spelled part).length) :
    parts.length ≤ (commas (parts.map spelled)).length := by
  induction parts with
  | nil => exact Nat.le_refl _
  | cons first others ih =>
      obtain ⟨hfirst, hothers⟩ := List.forall_mem_cons.mp h
      cases others with
      | nil =>
          simp only [List.map_cons, List.map_nil, commas_singleton]
          exact hfirst
      | cons second others =>
          have := ih hothers
          simp only [List.map_cons, commas_cons_cons, List.length_append,
            List.length_cons] at this ⊢
          omega

-- Items are read one by one if each is read in front of a comma and in front of the closing
-- operator, and none starts with the latter.
theorem enclosed_run {item : Parser α} {close : String} (hclose : close ≠ ",") {meant : π → α}
    (rest : List Token) (hitem : ∀ part ∈ parts, ∀ next ∈ [",", close], ∀ rest : List Token,
      item (ahead (spelled part ++ .op next :: rest) blocks) =
        .ok (meant part, ahead (.op next :: rest) blocks))
    (hopen : ∀ part ∈ parts, ∀ rest : List Token,
      (ahead (spelled part ++ rest) blocks).current.isOperator close = false) {limit : Nat}
    (hlimit : parts.length < limit) :
    enclosed close item limit (ahead (commas (parts.map spelled) ++ .op close :: rest) blocks) =
      .ok (parts.map meant, ahead rest blocks) := by
  suffices h : separated close item limit
      (ahead (commas (parts.map spelled) ++ .op close :: rest) blocks) =
        .ok (parts.map meant, ahead (.op close :: rest) blocks) by
    rw [enclosed, bind_of_ok h, bind_of_ok (expectOperator_op close), pure_run]
  induction parts generalizing limit with
  | nil =>
      cases limit with
      | zero => cases hlimit
      | succ limit => simp [separated, commas_nil, bind_run, pure_run]
  | cons first others ih =>
      cases limit with
      | zero => simp at hlimit
      | succ limit =>
          have hmore := ih (fun part hpart => hitem part (List.mem_cons_of_mem _ hpart))
            (fun part hpart => hopen part (List.mem_cons_of_mem _ hpart))
            (by simpa using hlimit)
          have hstart := hopen first (by simp)
          have hfirst := hitem first (by simp)
          cases others with
          | nil =>
              have hlast := hfirst close (by simp) rest
              have hcomma : (Token.op close).isOperator "," = false := by simpa using hclose
              simp only [List.map_cons, List.map_nil, commas_singleton]
              rw [separated, bind_of_ok (checkOperator_run close), hstart]
              simp only [Bool.false_eq_true, if_false]
              rw [bind_of_ok hlast, bind_of_ok (eatOperator_miss hcomma)]
              rfl
          | cons second others =>
              have hnext := hfirst "," (by simp)
              simp only [List.map_cons, commas_cons_cons, List.append_assoc,
                List.cons_append] at hmore ⊢
              rw [separated, bind_of_ok (checkOperator_run close), hstart]
              simp only [Bool.false_eq_true, if_false]
              rw [bind_of_ok (hnext _), test_of_true (eatOperator_op ","), bind_of_ok hmore,
                pure_run]

section Transfer

variable {expected : List Token} {p : Parser α} {t : TokenStream} {value : α}

-- The stream over tokens that end is the stream over what they are without places.
theorem placeless_ofTokens (h : placeless tokens = placeless (expected ++ [.ending]))
    (blocks : Blocks) :
    placeless (ofTokens tokens blocks) = placeless (ahead expected blocks) := by
  cases tokens with
  | nil => cases expected <;> simp at h
  | cons first rest =>
      have hlast : (first :: rest).getLast?.map (·.kind) = some .eof := by
        have hkinds : (first :: rest).map (·.kind) = (expected ++ [Token.ending]).map (·.kind) := by
          simpa [Placed.placeless, Function.comp_def] using congrArg (List.map (·.kind)) h
        rw [← List.getLast?_map, hkinds]
        simp [Token.ending]
      have hstream : ofTokens (first :: rest) blocks = ⟨first, rest, blocks⟩ := by
        simp only [ofTokens, hlast, beq_self_eq_true, if_true]
      rw [hstream]
      cases expected with
      | nil =>
          simp only [List.nil_append, placeless_cons, List.cons.injEq] at h
          exact placeless_stream_eq_iff.mpr ⟨h.1, h.2, rfl⟩
      | cons token more =>
          simp only [List.cons_append, placeless_cons, List.cons.injEq] at h
          exact placeless_stream_eq_iff.mpr ⟨h.1, h.2, rfl⟩

-- A blind reader does the same on streams that are the same but for places.
theorem Blind.run [Placed α] (hp : Blind p) {u : TokenStream} (h : placeless t = placeless s)
    (hrun : p s = .ok (value, u)) :
    ∃ found v, p t = .ok (found, v) ∧ placeless found = placeless value ∧
      placeless v = placeless u := by
  have hsame := hp _ _ h
  rw [hrun] at hsame
  cases hfound : p t with
  | error failure =>
      rw [hfound] at hsame
      cases hsame
  | ok found =>
      rw [hfound] at hsame
      obtain ⟨found, v⟩ := found
      simp only [placeless_ok, placeless_mk, Except.ok.injEq, Prod.mk.injEq] at hsame
      exact ⟨found, v, rfl, hsame⟩

-- It does on tokens what it does on the tokens without their places.
theorem run_of_blind [Placed α] (hp : Blind p)
    (h : placeless tokens = placeless (expected ++ [.ending]))
    (hrun : p (ahead expected blocks) = .ok (value, t)) :
    ∃ found u, p (ofTokens tokens blocks) = .ok (found, u) ∧ placeless found = placeless value ∧
      placeless u = placeless t := hp.run (placeless_ofTokens h blocks) hrun

end Transfer

end Parser

end Diglot
