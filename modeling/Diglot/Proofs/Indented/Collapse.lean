import Diglot.Proofs.Termination
import Mathlib.Data.List.DropRight

namespace Diglot

-- A token without its place, and unless widths count, an indent without the width that it states.
def Token.seen (widths : Bool) (token : Token) : Token :=
  ⟨token.kind, if token.kind = .indent ∧ widths = false then "" else token.lexeme, .start⟩

@[simp]
theorem Token.kind_seen (widths : Bool) (token : Token) : (token.seen widths).kind = token.kind := rfl

theorem Token.lexeme_seen {token : Token} (h : token.kind ≠ .indent) (widths : Bool) :
    (token.seen widths).lexeme = token.lexeme := if_neg fun hindent => h hindent.1

-- A cause, unless widths count without the width of an indent or of a line.
def Cause.seen (widths : Bool) : Cause → Cause
  | .unexpectedToken expected .indent lexeme =>
      .unexpectedToken expected .indent (if widths then lexeme else "")
  | .inconsistentIndentation width => .inconsistentIndentation (if widths then width else 0)
  | cause => cause

@[simp]
theorem Cause.seen_true (cause : Cause) : cause.seen true = cause := by
  unfold Cause.seen
  split <;> rfl

theorem Cause.seen_unexpectedToken (widths : Bool) (expected : String) (token : Token) :
    (unexpectedToken expected token.kind token.lexeme).seen widths =
      unexpectedToken expected (token.seen widths).kind (token.seen widths).lexeme := by
  obtain ⟨kind, lexeme, pos⟩ := token
  cases kind with
  | indent => cases widths <;> rfl
  | _ => rfl

-- Causes that are not told apart.
def Blames (widths : Bool) (cause other : Cause) : Prop := cause.seen widths = other.seen widths

-- What is seen of a result: a value up to places, or a cause.
def outcome {α : Type} [Placed α] (widths : Bool) : Except Failure α → Except Cause α
  | .ok value => .ok (placeless value)
  | .error failure => .error (failure.cause.seen widths)

theorem placeless_eq_of_outcome {α : Type} [Placed α] {x y : Except Failure α}
    (h : outcome true x = outcome true y) : placeless x = placeless y := by
  match x, y with
  | .error failure, .error other =>
      simp only [outcome, Cause.seen_true, Except.error.injEq] at h
      simp [placeless, h]
  | .error _, .ok _ | .ok _, .error _ => cases h
  | .ok a, .ok b => exact congrArg Except.ok (Except.ok.inj h)

namespace Indented

open Diglot.Parser

variable {widths : Bool} {token a b : Token} {s t : TokenStream}

-- Tokens as they are seen, with one line feed for each run of line feeds.
def collapse (widths : Bool) : List Token → List Token
  | [] => []
  | token :: rest =>
      token.seen widths ::
        if token.kind == .newline then (collapse widths rest).dropWhile (·.kind == .newline)
        else collapse widths rest

theorem collapse_feed (h : token.kind = .newline) (rest : List Token) :
    collapse widths (token :: rest) =
      token.seen widths :: (collapse widths rest).dropWhile (·.kind == .newline) := by
  simp [collapse, h]

theorem collapse_other (h : token.kind ≠ .newline) (rest : List Token) :
    collapse widths (token :: rest) = token.seen widths :: collapse widths rest := by
  simp [collapse, h]

theorem dropWhile_collapse (tokens : List Token) :
    (collapse widths tokens).dropWhile (·.kind == .newline) =
      collapse widths (tokens.dropWhile (·.kind == .newline)) := by
  induction tokens with
  | nil => rfl
  | cons token rest ih =>
      by_cases h : token.kind = .newline
      · rw [collapse_feed h, List.dropWhile_cons_of_pos (by simp [h]),
          List.dropWhile_cons_of_pos (by simp [h]), List.dropWhile_idempotent, ih]
      · rw [collapse_other h, List.dropWhile_cons_of_neg (by simp [h]),
          List.dropWhile_cons_of_neg (by simp [h]), collapse_other h]

-- What two streams have in common apart from their tokens: they come to an end and have equally
-- many blocks open. The second has no places.
structure Near (s t : TokenStream) : Prop where
  depth : s.blocks.map List.length = t.blocks.map List.length
  ended : s.Ended ∧ t.Ended
  place : ∀ token ∈ t.tokens, token.pos = .start

-- What a token does to the open blocks depends on its kind, and on whether any are open.
theorem blocksAfter_like {l m : List Nat} (hkind : a.kind = b.kind)
    (hlength : l.length = m.length) :
    (∃ cause, TokenStream.blocksAfter l a = .error cause ∧ TokenStream.blocksAfter m b = .error cause) ∨
      ∃ l' m', TokenStream.blocksAfter l a = .ok l' ∧ TokenStream.blocksAfter m b = .ok m' ∧
        l'.length = m'.length := by
  unfold TokenStream.blocksAfter
  rw [← hkind]
  cases a.kind with
  | indent => exact .inr ⟨_, _, rfl, rfl, by simp [hlength]⟩
  | dedent =>
      match l, m with
      | [], [] => exact .inl ⟨_, rfl, rfl⟩
      | [], _ :: _ => cases hlength
      | _ :: _, [] => cases hlength
      | _ :: l, _ :: m => exact .inr ⟨l, m, rfl, rfl, Nat.succ.inj hlength⟩
  | _ => exact .inr ⟨l, m, rfl, rfl, hlength⟩

theorem advance_depth (hkind : s.current.kind = t.current.kind)
    (hdepth : s.blocks.map List.length = t.blocks.map List.length) :
    Same (Blames widths) (fun s' t' => s'.blocks.map List.length = t'.blocks.map List.length)
      (fun _ _ => True) s.advance t.advance := by
  unfold TokenStream.advance
  match hs : s.blocks, ht : t.blocks with
  | none, none =>
      refine ⟨trivial, ?_⟩
      dsimp only
      rw [TokenStream.blocks_move, TokenStream.blocks_move, hdepth]
  | none, some m => simp [hs, ht] at hdepth
  | some l, none => simp [hs, ht] at hdepth
  | some l, some m =>
      have hlength : l.length = m.length := by simpa [hs, ht] using hdepth
      dsimp only
      rcases blocksAfter_like hkind hlength with ⟨cause, hl, hm⟩ | ⟨l', m', hl, hm, hlength⟩
      · rw [hl, hm]
        rfl
      · rw [hl, hm]
        exact ⟨trivial, by simp [hlength]⟩

-- Moving over a token leaves all the others.
theorem advance_near (h : Near s t) (hkind : s.current.kind = t.current.kind)
    (heof : s.current.kind ≠ .eof) :
    Same (Blames widths) (fun s' t' => Near s' t' ∧ s.tokens = s.current :: s'.tokens ∧
      t.tokens = t.current :: t'.tokens) (fun _ _ => True) s.advance t.advance := by
  obtain ⟨hended, hended'⟩ := h.ended
  rcases (advance_depth hkind h.depth).cases with
    ⟨failure, other, hs, ht, hcause⟩ | ⟨a, s', b, t', hs, ht, -, hdepth⟩
  · rw [hs, ht]
    exact hcause
  rcases TokenStream.tokens_of_advance hended hs with ⟨hend, -⟩ | ⟨-, htokens⟩
  · exact absurd hend heof
  rcases TokenStream.tokens_of_advance hended' ht with ⟨hend, -⟩ | ⟨-, htokens'⟩
  · exact absurd (hkind ▸ hend) heof
  rw [hs, ht]
  have hplace : ∀ token ∈ t'.tokens, token.pos = .start :=
    fun token htoken => h.place token (htokens' ▸ .tail _ htoken)
  exact ⟨trivial, ⟨hdepth, ⟨hended.advance hs, hended'.advance ht⟩, hplace⟩, htokens, htokens'⟩

theorem tokens_dropWhile {p : Token → Bool} (hp : ∀ token, p token = true → token.kind ≠ .eof)
    (hended : s.Ended) : (s.dropWhile p).tokens = s.tokens.dropWhile p := by
  obtain ⟨current, upcoming, blocks⟩ := s
  obtain ⟨last, hmem, hlast⟩ := hended
  induction upcoming generalizing current with
  | nil =>
      obtain rfl := List.mem_singleton.mp hmem
      have hnot : p last = false := Bool.eq_false_iff.mpr fun h => hp last h hlast
      simp [TokenStream.dropWhile, TokenStream.dropTokens, TokenStream.tokens, hnot]
  | cons next rest ih =>
      by_cases h : p current = true
      · have hmem : last ∈ next :: rest := by
          rcases List.mem_cons.mp hmem with rfl | hmem
          · exact absurd hlast (hp last h)
          · exact hmem
        have hrest := ih next hmem
        simp only [TokenStream.dropWhile, TokenStream.dropTokens, TokenStream.tokens, h, if_true,
          List.dropWhile_cons_of_pos] at hrest ⊢
        exact hrest
      · simp [TokenStream.dropWhile, TokenStream.dropTokens, TokenStream.tokens, h]

theorem skip_near (h : Near s t) :
    Near (s.dropWhile (·.kind == .newline)) (t.dropWhile (·.kind == .newline)) := by
  have hreach : ∀ s : TokenStream, s.Reaches (s.dropWhile (·.kind == .newline)) :=
    TokenStream.reaches_dropWhile fun token htoken => by simp [Token.isSolid, eq_of_beq htoken]
  obtain ⟨hended, hended'⟩ := h.ended
  exact ⟨h.depth, ⟨(hreach s).ended hended, (hreach t).ended hended'⟩,
    fun token htoken => h.place token ((hreach t).mem_tokens hended' htoken)⟩

section Heads

variable {a b : Token} {l m : List Token} (h : collapse widths (a :: l) = collapse widths (b :: m))

include h

theorem seen_head : a.seen widths = b.seen widths := (List.cons.inj h).1

theorem kind_head : a.kind = b.kind := by
  rw [← Token.kind_seen widths a, seen_head h, Token.kind_seen]

theorem collapse_tail (hkind : a.kind ≠ .newline) : collapse widths l = collapse widths m := by
  have hother : b.kind ≠ .newline := kind_head h ▸ hkind
  rw [collapse_other hkind, collapse_other hother] at h
  exact (List.cons.inj h).2

theorem collapse_feeds (hkind : a.kind = .newline) :
    (collapse widths l).dropWhile (·.kind == .newline) =
      (collapse widths m).dropWhile (·.kind == .newline) := by
  have hother : b.kind = .newline := kind_head h ▸ hkind
  rw [collapse_feed hkind, collapse_feed hother] at h
  exact (List.cons.inj h).2

end Heads

theorem is_eq_of_seen (h : a.seen widths = b.seen widths) {kind : TokenKind}
    (hkind : kind ≠ .indent) (lexeme : String) : a.is kind lexeme = b.is kind lexeme := by
  have hkinds : a.kind = b.kind := by rw [← Token.kind_seen widths a, h, Token.kind_seen]
  unfold Token.is
  rw [← hkinds]
  by_cases ha : a.kind = kind
  · rw [← Token.lexeme_seen (ha ▸ hkind) widths, h, Token.lexeme_seen (hkinds ▸ ha ▸ hkind)]
  · rw [beq_eq_false_iff_ne.mpr ha]
    rfl

-- Two runs on streams that differ in how many line feeds there are where there is one, and unless
-- widths count in the widths that indents state.
def relaxed (widths : Bool) : Bond where
  tight s t := Near s t ∧ collapse widths s.tokens = collapse widths t.tokens
  loose s t := Near s t ∧ (collapse widths s.tokens).dropWhile (·.kind == .newline) =
    (collapse widths t.tokens).dropWhile (·.kind == .newline)
  blames := Blames widths
  blames_refl _ := rfl
  loose_of_tight h := ⟨h.1, by rw [h.2]⟩
  place h := h.1.place _ (.head _)
  kind h := kind_head h.2
  lexeme h hkind := by
    rw [← Token.lexeme_seen hkind widths, seen_head h.2, Token.lexeme_seen (kind_head h.2 ▸ hkind)]
  next := by
    intro s t h hkind kind hindent lexeme
    have hupcoming := collapse_tail h.2 hkind
    unfold TokenStream.peek
    match hs : s.upcoming, ht : t.upcoming with
    | [], [] => rfl
    | [], other :: more => simp [hs, ht, collapse] at hupcoming
    | next :: rest, [] => simp [hs, ht, collapse] at hupcoming
    | next :: rest, other :: more =>
        rw [hs, ht] at hupcoming
        exact is_eq_of_seen (seen_head hupcoming) hindent lexeme
  depth h := by rw [TokenStream.depth, h.1.depth, TokenStream.depth]
  blames_unexpected := by
    intro s t h expected
    have hend : s.isAtEnd = t.isAtEnd := by
      rw [TokenStream.isAtEnd, kind_head h.2, TokenStream.isAtEnd]
    unfold TokenStream.unexpected Blames
    rw [hend]
    cases t.isAtEnd with
    | true => rfl
    | false =>
        change (Cause.unexpectedToken expected s.current.kind s.current.lexeme).seen widths =
          (Cause.unexpectedToken expected t.current.kind t.current.lexeme).seen widths
        rw [Cause.seen_unexpectedToken, Cause.seen_unexpectedToken, seen_head h.2]
  moves {s t} h hnewline heof := by
    refine (advance_near h.1 (kind_head h.2) heof).mono (fun {s' t'} hbehind => ?_) id
    obtain ⟨hnear, hs, ht⟩ := hbehind
    exact ⟨hnear, collapse_tail (hs ▸ ht ▸ h.2) hnewline⟩
  feeds {s t} h hnewline := by
    refine (advance_near h.1 (kind_head h.2) (by simp [hnewline])).mono
      (fun {s' t'} hbehind => ?_) id
    obtain ⟨hnear, hs, ht⟩ := hbehind
    exact ⟨hnear, collapse_feeds (hs ▸ ht ▸ h.2) hnewline⟩
  skips {s t} h := by
    have hp : ∀ token : Token, (token.kind == .newline) = true → token.kind ≠ .eof :=
      fun token htoken => by simp [eq_of_beq htoken]
    refine ⟨skip_near h.1, ?_⟩
    rw [tokens_dropWhile hp h.1.ended.1, tokens_dropWhile hp h.1.ended.2, ← dropWhile_collapse,
      h.2, dropWhile_collapse]

-- Limits that are large enough do not show in the program that is read.
theorem parse_eq_programWith {tokens : List Token} {limits : Limits}
    (h : limits.Suffice tokens (.withLayout tokens)) :
    parse tokens = (programWith .pythonScript limits).run' (.withLayout tokens) := by
  obtain ⟨least, hleast, heq⟩ := parseTokens_eq .pythonScript tokens
  have hsettled := (programWith_halts .pythonScript tokens).settled hleast h
  rw [StateT.run', hsettled] at heq
  exact heq

theorem tokens_placeless (s : TokenStream) : (placeless s).tokens = placeless s.tokens := rfl

theorem near_placeless (hblocks : s.blocks = t.blocks) (hended : s.Ended ∧ t.Ended) :
    Near s (placeless t) := by
  obtain ⟨hended, last, hmem, hlast⟩ := hended
  refine ⟨congrArg _ hblocks, ⟨hended, placeless last, List.mem_map_of_mem hmem, hlast⟩, ?_⟩
  intro token htoken
  rw [tokens_placeless] at htoken
  obtain ⟨_, -, rfl⟩ := List.mem_map.mp htoken
  rfl

theorem collapse_placeless (tokens : List Token) :
    collapse widths (placeless tokens) = collapse widths tokens := by
  induction tokens with
  | nil => rfl
  | cons token rest ih =>
      rw [placeless_cons, collapse, collapse, ih]
      rfl

-- What is seen of a program depends on what is seen of its tokens.
theorem outcome_program (embedded : Embedder) (n : Nat) (h : (relaxed widths).loose s t) :
    outcome widths ((program (expression embedded n) n).run' s) =
      match program (expression (bare embedded) n) n t with
      | .ok (module, _) => .ok module
      | .error failure => .error (failure.cause.seen widths) := by
  have hprogram := program_inStep (expression_steady embedded n) n h
  rw [StateT.run']
  rcases hprogram.cases with ⟨failure, failure', hs, ht, hcause⟩ | ⟨a, s, b, t, hs, ht, hab, -⟩
  · rw [hs, ht]
    exact congrArg Except.error hcause
  · rw [hs, ht, hab]
    rfl

-- Where the tokens collapse to the same, apart from line feeds in front of them, so do the programs.
theorem outcome_parse {read other : List Token} {last last' : Token} (hlast : last.kind = .eof)
    (hlast' : last'.kind = .eof)
    (h : (collapse widths (read ++ [last])).dropWhile (·.kind == .newline) =
      (collapse widths (other ++ [last'])).dropWhile (·.kind == .newline)) :
    outcome widths (parse (read ++ [last])) = outcome widths (parse (other ++ [last'])) := by
  have hlaid := TokenStream.ofTokens_append_eof read (some []) hlast
  have hlaid' := TokenStream.ofTokens_append_eof other (some []) hlast'
  generalize read ++ [last] = read at h hlaid ⊢
  generalize other ++ [last'] = other at h hlaid' ⊢
  -- Limits that are large enough for both.
  let n := max (TokenStream.withLayout read).size (TokenStream.withLayout other).size
  let limits : Limits := ⟨max (longestLexeme read) (longestLexeme other), n, n⟩
  have hread : limits.Suffice read (.withLayout read) :=
    ⟨Nat.le_max_left _ _, Nat.le_max_left _ _, Nat.le_max_left _ _⟩
  have hother : limits.Suffice other (.withLayout other) :=
    ⟨Nat.le_max_right _ _, Nat.le_max_right _ _, Nat.le_max_right _ _⟩
  -- Both are run beside the second without its places.
  have hloose : ∀ {tokens}, (TokenStream.ofTokens tokens (some [])).tokens = tokens ∧
      (TokenStream.ofTokens tokens (some [])).blocks = some [] →
      (collapse widths tokens).dropWhile (·.kind == .newline) =
        (collapse widths other).dropWhile (·.kind == .newline) →
      (relaxed widths).loose (.withLayout tokens) (placeless (.withLayout other)) := by
    intro tokens hlaid hseen
    refine ⟨near_placeless (hlaid.2.trans hlaid'.2.symm) ⟨TokenStream.ended_ofTokens _ _,
      TokenStream.ended_ofTokens _ _⟩, ?_⟩
    rw [tokens_placeless, collapse_placeless, TokenStream.withLayout, hlaid.1,
      TokenStream.withLayout, hlaid'.1, hseen]
  rw [parse_eq_programWith hread, parse_eq_programWith hother]
  exact (outcome_program _ n (hloose hlaid h)).trans
    (outcome_program _ n (hloose hlaid' rfl)).symm

section Collapsed

-- What is seen of the tokens that a text is made into, or why it is not.
def collapsed (widths : Bool) : Except Failure (List Token) → Except Cause (List Token)
  | .ok tokens => .ok (collapse widths tokens)
  | .error failure => .error (failure.cause.seen widths)

variable {widths : Bool} {front other found : List Token} {x y : Except Failure (List Token)}
  {a : Token} {source : String}

theorem seen_placeless (token : Token) : (placeless token).seen widths = token.seen widths := rfl

theorem collapse_append {l m : List Token} (hfront : placeless front = placeless other)
    (h : collapse widths l = collapse widths m) :
    collapse widths (front ++ l) = collapse widths (other ++ m) := by
  induction front generalizing other with
  | nil =>
      cases other with
      | nil => exact h
      | cons b other => simp at hfront
  | cons a front ih =>
      cases other with
      | nil => simp at hfront
      | cons b other =>
          simp only [placeless_cons, List.cons.injEq] at hfront
          have hkind : a.kind = b.kind := (placeless_token_eq_iff.mp hfront.1).1
          rw [List.cons_append, List.cons_append, collapse, collapse, hkind, ih hfront.2,
            ← seen_placeless, hfront.1, seen_placeless]

theorem collapsed_map_append (hfront : placeless front = placeless other)
    (h : collapsed widths x = collapsed widths y) :
    collapsed widths (x.map (front ++ ·)) = collapsed widths (y.map (other ++ ·)) := by
  match x, y with
  | .error failure, .error failure' => exact h
  | .error _, .ok _ | .ok _, .error _ => cases h
  | .ok l, .ok m => exact congrArg Except.ok (collapse_append hfront (Except.ok.inj h))

theorem collapsed_of_placeless (h : placeless x = placeless y) :
    collapsed widths x = collapsed widths y := by
  match x, y with
  | .error failure, .error failure' =>
      have hfailure : placeless failure = placeless failure' := Except.error.inj h
      change Except.error ((placeless failure).cause.seen widths) = _
      rw [hfailure]
      rfl
  | .error _, .ok _ | .ok _, .error _ => cases h
  | .ok l, .ok m =>
      have hlm : placeless l = placeless m := Except.ok.inj h
      have hcollapse : collapse widths (l ++ []) = collapse widths (m ++ []) :=
        collapse_append hlm rfl
      rw [List.append_nil, List.append_nil] at hcollapse
      exact congrArg Except.ok hcollapse

-- A second line feed does not show.
theorem collapsed_feed {b : Token} (ha : a.kind = .newline) (hb : b.kind = .newline)
    (x : Except Failure (List Token)) :
    collapsed widths ((x.map ([b] ++ ·)).map ([a] ++ ·)) = collapsed widths (x.map ([a] ++ ·)) := by
  cases x with
  | error failure => rfl
  | ok tokens =>
      refine congrArg Except.ok ?_
      change collapse widths (a :: b :: tokens) = collapse widths (a :: tokens)
      rw [collapse_feed ha, collapse_feed hb, collapse_feed ha,
        List.dropWhile_cons_of_pos (by simp [hb]), List.dropWhile_idempotent]

-- A line feed in front does not show at all, once those in front are skipped.
theorem collapsed_feeds (ha : a.kind = .newline) (x : Except Failure (List Token)) :
    (collapsed widths (x.map ([a] ++ ·))).map (·.dropWhile (·.kind == .newline)) =
      (collapsed widths x).map (·.dropWhile (·.kind == .newline)) := by
  cases x with
  | error failure => rfl
  | ok tokens =>
      refine congrArg Except.ok ?_
      change (collapse widths (a :: tokens)).dropWhile _ = _
      rw [collapse_feed ha, List.dropWhile_cons_of_pos (by simp [ha]), List.dropWhile_idempotent]

theorem lex_ending {state : State} (h : lex state = .ok found) :
    ∃ before pos, found = before ++ [⟨.eof, "", pos⟩] := by
  obtain ⟨steps, hreading, rfl⟩ := lex_eq_ok_iff.mp h
  clear h
  induction hreading with
  | ending hrest =>
      rw [tokens_append]
      exact ⟨_, _, rfl⟩
  | piece _ _ _ _ ih =>
      obtain ⟨before, pos, hbefore⟩ := ih
      rw [tokens_cons, hbefore, ← List.append_assoc]
      exact ⟨_, _, rfl⟩
  | line _ _ _ _ _ ih =>
      obtain ⟨before, pos, hbefore⟩ := ih
      rw [tokens_cons, tokens_append, hbefore, ← List.append_assoc, ← List.append_assoc]
      exact ⟨_, _, rfl⟩

theorem tokenize_ending (h : tokenize source = .ok found) :
    ∃ before pos, found = before ++ [⟨.eof, "", pos⟩] := by
  obtain ⟨⟨layout, next⟩, -, h⟩ := exists_of_bind_eq_ok h
  obtain ⟨behind, hlex, h⟩ := exists_of_bind_eq_ok h
  cases h
  obtain ⟨before, pos, rfl⟩ := lex_ending hlex
  exact ⟨layout ++ before, pos, by simp⟩

-- Texts are read alike if their tokens collapse to the same, line feeds in front of them aside.
theorem outcome_parse_source {other : String}
    (h : (collapsed widths (tokenize source)).map (·.dropWhile (·.kind == .newline)) =
      (collapsed widths (tokenize other)).map (·.dropWhile (·.kind == .newline))) :
    outcome widths (Diglot.parse .pythonScript source) =
      outcome widths (Diglot.parse .pythonScript other) := by
  unfold Diglot.parse Diglot.tokenize
  match hsource : tokenize source, hother : tokenize other with
  | .error failure, .error failure' =>
      rw [hsource, hother] at h
      exact congrArg Except.error (Except.error.inj h)
  | .error failure, .ok found => simp [hsource, hother, collapsed, Except.map] at h
  | .ok found, .error failure => simp [hsource, hother, collapsed, Except.map] at h
  | .ok found, .ok found' =>
      obtain ⟨before, pos, rfl⟩ := tokenize_ending hsource
      obtain ⟨before', pos', rfl⟩ := tokenize_ending hother
      rw [hsource, hother] at h
      exact outcome_parse rfl rfl (Except.ok.inj h)

end Collapsed

end Indented

end Diglot
