import Diglot.Proofs.Indented.Trail
import Diglot.Proofs.Termination
import Mathlib.Data.List.Forall2

namespace Diglot

namespace TokenStream

-- A width of at most 32 bits is understood as it is written.
theorem statedWidth?_toString {width : Nat} (h : width < 4294967296) :
    statedWidth? (toString width) = some width := by
  have hlist : (toString width).toList = Nat.toDigits 10 width := Nat.toList_repr
  have hdigits : ∀ c ∈ Nat.toDigits 10 width, c.isDigit = true := fun c hc =>
    Nat.isDigit_of_mem_toDigits (by decide) (by decide) hc
  have hvalue : (Nat.toDigits 10 width).foldl
      (fun width c => width * 10 + (c.toNat - '0'.toNat)) 0 = width := by
    have hten := Nat.ofDigitChars_ten_toDigits (n := width)
    simpa only [Nat.ofDigitChars_eq_foldl, Nat.mul_comm 10] using hten
  have hne : Nat.toDigits 10 width ≠ [] := Nat.toDigits_ne_nil
  unfold statedWidth?
  rw [hlist]
  split
  · rename_i digits hplus
    have hmark := hdigits '+' (hplus ▸ .head _)
    cases hmark
  · dsimp only
    rw [hvalue, if_pos]
    simpa [hne, h] using hdigits

-- The stream behind so many tokens.
def advances : Nat → TokenStream → Except Failure TokenStream
  | 0, s => .ok s
  | count + 1, s => do
      let (_, next) ← s.advance
      advances count next

end TokenStream

namespace Indented

open Diglot.Parser

variable {steps : List (Token × List Nat)}

section Streams

variable {s t : TokenStream} {blocks behind stack : List Nat} {steps : List (Token × List Nat)}
  {token : Token}

-- The blocks that a stream has counted are those that are open, but for the ones whose width has
-- more than 32 bits.
def Counted (stack blocks : List Nat) : Prop :=
  List.Forall₂ (fun counted width => width < 4294967296 → counted = width) stack blocks

theorem Counted.eq (h : Counted stack blocks) (hwidths : ∀ width ∈ blocks, width < 4294967296) :
    stack = blocks := by
  induction h with
  | nil => rfl
  | cons hfirst _ ih =>
      obtain ⟨hwidth, hwidths⟩ := List.forall_mem_cons.mp hwidths
      rw [hfirst hwidth, ih hwidths]

theorem Counted.shift (h : Counted stack blocks) (hshifts : Shifts blocks token behind) :
    ∃ next, TokenStream.blocksAfter stack token = .ok next ∧ Counted next behind := by
  cases hshifts with
  | @indent blocks width pos hwidth =>
      refine ⟨_, rfl, .cons (fun hwidth => ?_) h⟩
      rw [TokenStream.indentLevel, TokenStream.statedWidth?_toString hwidth]
      rfl
  | @dedent width blocks pos =>
      cases h with
      | cons _ hrest => exact ⟨_, rfl, hrest⟩
  | solid hindent hdedent =>
      refine ⟨stack, ?_, h⟩
      unfold TokenStream.blocksAfter
      split <;> simp_all

-- A stream over the tokens of a trail that has counted the blocks that are open before them.
structure OnTrail (s : TokenStream) (blocks : List Nat) (steps : List (Token × List Nat)) :
    Prop where
  tokens : s.tokens = steps.map (·.1)
  trail : ∃ depth, Trail blocks depth steps
  counted : ∃ stack, s.blocks = some stack ∧ Counted stack blocks

-- Such a stream never refuses a token. At the end it stays where it is.
theorem OnTrail.advance (h : OnTrail s blocks steps) :
    ∃ t behind rest, s.advance = .ok (s.current, t) ∧ OnTrail t behind rest ∧
      (steps = (s.current, behind) :: rest ∨ steps = [(s.current, behind)]) := by
  obtain ⟨htokens, ⟨depth, htrail⟩, stack, hstack, hcounted⟩ := h
  obtain ⟨current, upcoming, _⟩ := s
  subst hstack
  cases htrail with
  | @eof depth pos =>
      cases htokens
      cases hcounted
      exact ⟨_, [], _, rfl, ⟨rfl, ⟨depth, .eof⟩, [], rfl, .nil⟩, .inr rfl⟩
  | @step blocks behind depth token rest hshifts hkind hlayout hrest =>
      obtain ⟨next, hafter, hnext⟩ := hcounted.shift hshifts
      obtain ⟨rfl, rfl⟩ : current = token ∧ upcoming = rest.map (·.1) := by
        simpa [TokenStream.tokens] using htokens
      cases rest with
      | nil => cases hrest
      | cons first rest =>
          refine ⟨⟨first.1, rest.map (·.1), some next⟩, behind, first :: rest, ?_,
            ⟨rfl, ⟨_, hrest⟩, next, rfl, hnext⟩, .inl rfl⟩
          simp [TokenStream.advance, hafter, TokenStream.move, TokenStream.isAtEnd, hkind]

-- At the end of a trail no block is open.
theorem OnTrail.depth_of_isAtEnd (h : OnTrail s blocks steps) (hend : s.isAtEnd = true) :
    s.depth = 0 := by
  obtain ⟨htokens, ⟨depth, htrail⟩, stack, hstack, hcounted⟩ := h
  have hblocks : blocks = [] := by
    cases htrail with
    | eof => rfl
    | step _ hkind =>
        have hcurrent := (List.cons.inj htokens).1
        exact absurd (eq_of_beq hend) (hcurrent ▸ hkind)
  subst hblocks
  cases hcounted
  rw [TokenStream.depth, hstack]
  rfl

theorem OnTrail.reaches (h : OnTrail s blocks steps) (hreach : s.Reaches t) :
    ∃ blocks steps, OnTrail t blocks steps := by
  induction hreach generalizing blocks steps with
  | refl => exact ⟨blocks, steps, h⟩
  | step hadvance _ ih =>
      obtain ⟨next, behind, rest, hnext, hrest, -⟩ := h.advance
      rw [hnext] at hadvance
      cases hadvance
      exact ih hrest

-- Behind the tokens before it, a token of the trail is read, and the blocks are counted that are
-- open behind it.
theorem OnTrail.reads {before after : List (Token × List Nat)}
    (h : OnTrail s blocks (before ++ (token, behind) :: after)) :
    ∃ t u stack, s.advances before.length = .ok t ∧ t.tokens = token :: after.map (·.1) ∧
      t.advance = .ok (token, u) ∧ u.blocks = some stack ∧ Counted stack behind := by
  induction before generalizing s blocks with
  | nil =>
      have htokens := h.tokens
      have hcurrent : s.current = token := (List.cons.inj htokens).1
      obtain ⟨u, inner, rest, hadvance, hrest, hsteps⟩ := h.advance
      obtain ⟨stack, hstack, hcounted⟩ := hrest.counted
      rw [hcurrent] at hadvance hsteps
      refine ⟨s, u, stack, rfl, htokens, hadvance, hstack, ?_⟩
      rcases hsteps with hsteps | hsteps <;>
      · rw [List.nil_append, List.cons.injEq, Prod.mk.injEq] at hsteps
        rwa [hsteps.1.2]
  | cons first before ih =>
      obtain ⟨next, inner, rest, hadvance, hrest, hsteps⟩ := h.advance
      rcases hsteps with hsteps | hsteps
      · rw [List.cons_append, List.cons.injEq] at hsteps
        rw [← hsteps.2] at hrest
        obtain ⟨t, u, stack, hmore, hfound⟩ := ih hrest
        refine ⟨t, u, stack, ?_, hfound⟩
        rw [List.length_cons, TokenStream.advances, hadvance]
        exact hmore
      · simp at hsteps

theorem Runs.onTrail {source : String} {steps : List Step} (h : Runs source steps) :
    OnTrail (.withLayout (tokens steps)) [] (Indented.trail steps) := by
  have htrail := h.trail
  obtain ⟨before, pos, hsteps, -⟩ := htrail.ending
  have heof : (⟨.eof, "", pos⟩ : Token).kind = .eof := rfl
  obtain ⟨htokens, hblocks⟩ :=
    TokenStream.ofTokens_append_eof (before.map (·.1)) (some []) heof
  rw [tokens_eq_map_trail, hsteps, List.map_append]
  exact ⟨by rw [List.map_append]; exact htokens, ⟨0, hsteps ▸ htrail⟩, [], hblocks, .nil⟩

end Streams

section Causes

variable {failure : Failure} {source : String}

-- A reader that fails on a trail does not blame its blocks, as long as those of embedded
-- expressions do not.
theorem blamesBlocks_of_fails {tokens : List Token} {embedded : Embedder} {s : TokenStream}
    {blocks : List Nat} {steps : List (Token × List Nat)} (htrail : OnTrail s blocks steps)
    (h : (setting tokens embedded).Fails s failure)
    (hembedded : s.current.kind = .interpolated →
      ∀ source ∈ embeddedSources s.current.lexeme.toList, ∀ reason,
        embedded source = .error reason → reason.blamesBlocks = false) :
    failure.cause.blamesBlocks = false := by
  cases h with
  | unexpected expected =>
      unfold TokenStream.unexpected
      split <;> rfl
  | unbalanced h =>
      obtain ⟨t, behind, rest, hadvance, -⟩ := htrail.advance
      rw [hadvance] at h
      cases h
  | target _ _ => rfl
  | own h =>
      rcases h with ⟨hkind, reason, hsegments, rfl⟩ | ⟨hatEnd, hdepth, rfl⟩
      · rcases segments_eq_error hsegments with ⟨-, -, -, rfl⟩ | ⟨source, hmem, hsource⟩
        · rfl
        · exact hembedded hkind source hmem reason hsource
      · exact absurd (htrail.depth_of_isAtEnd hatEnd) hdepth

theorem explains_blamesBlocks : Explains fun _ reason => reason.blamesBlocks = false where
  empty _ := rfl
  unlexed := blamesBlocks_of_tokenize
  unread htokens hreach hfails hembedded := by
    obtain ⟨steps, hruns, rfl⟩ := tokenize_eq_ok_iff.mp htokens
    obtain ⟨blocks, rest, htrail⟩ := hruns.onTrail.reaches hreach
    exact blamesBlocks_of_fails htrail hfails hembedded
  trailing _ _ _ := rfl

theorem blamesBlocks_of_parse (h : Diglot.parse .pythonScript source = .error failure) :
    failure.cause.blamesBlocks = false := by
  rcases error_of_bind h with htokens | ⟨found, htokens, h⟩
  · exact blamesBlocks_of_tokenize htokens
  · obtain ⟨steps, hruns, rfl⟩ := tokenize_eq_ok_iff.mp htokens
    obtain ⟨limits, t, hlimits, hreach, hfails⟩ := fails_of_parseTokens h
    obtain ⟨blocks, rest, htrail⟩ := hruns.onTrail.reaches hreach
    exact blamesBlocks_of_fails htrail hfails (explains_blamesBlocks.of_suffice hlimits hreach)

end Causes

-- A list of tokens whose lines and blocks fit together.
structure Balanced (tokens : List Token) : Prop where
  ending : ∃ before pos, tokens = before ++ [⟨.eof, "", pos⟩] ∧ ∀ token ∈ before, token.kind ≠ .eof
  closes : ∀ before, before <+: tokens → countKind .dedent before ≤ countKind .indent before
  closed : countKind .dedent tokens = countKind .indent tokens
  widths : ∀ before, before <+: tokens →
    ∃ widths, openIndents before = widths.map toString ∧ Nested widths
  outside : ∀ before token after, tokens = before ++ token :: after → isLayout token.kind = true →
    Token.bracketDepth 0 before = 0 ∨ token.kind = .dedent ∧ Closing after

theorem Trail.leaves (h : Trail [] 0 steps) {before : List Token}
    (hbefore : before <+: steps.map (·.1)) : ∃ blocks, Leaves before blocks := by
  obtain ⟨passed, ⟨after, hsteps⟩, rfl⟩ := List.prefix_map_iff.mp hbefore
  rcases List.eq_nil_or_concat passed with rfl | ⟨front, ⟨token, behind⟩, rfl⟩
  · exact ⟨[], leaves_nil⟩
  · have hsplit : steps = front ++ (token, behind) :: after := by simp [← hsteps]
    have hleaves := h.invariant (fun _ _ _ _ => Leaves.shift) leaves_nil hsplit
    exact ⟨behind, by simpa using hleaves⟩

theorem Trail.balanced (h : Trail [] 0 steps) : Balanced (steps.map (·.1)) where
  ending := by
    obtain ⟨before, pos, rfl, hkinds⟩ := h.ending
    refine ⟨before.map (·.1), pos, by simp, fun token htoken => ?_⟩
    obtain ⟨step, hstep, rfl⟩ := List.mem_map.mp htoken
    exact hkinds step hstep
  closes before hbefore := by
    obtain ⟨blocks, hleaves⟩ := h.leaves hbefore
    have := hleaves.count
    omega
  closed := by
    obtain ⟨before, pos, rfl, -⟩ := h.ending
    have hleaves := h.invariant (fun _ _ _ _ => Leaves.shift) leaves_nil rfl
    have := hleaves.count
    simpa using this
  widths before hbefore := by
    obtain ⟨blocks, hleaves⟩ := h.leaves hbefore
    exact ⟨blocks, hleaves.lexemes, hleaves.nested⟩
  outside _ _ _ hsplit hlayout := h.outside hsplit hlayout

-- The blocks behind a token are those that the indents before it say.
theorem Trail.split_of_openIndents (h : Trail [] 0 steps) {count : Nat} {token : Token}
    {widths : List Nat} (htoken : (steps.map (·.1))[count]? = some token)
    (hwidths : openIndents ((steps.map (·.1)).take (count + 1)) = widths.map toString) :
    steps = steps.take count ++ (token, widths) :: steps.drop (count + 1) := by
  rw [List.getElem?_map] at htoken
  obtain ⟨⟨token, blocks⟩, hget, rfl⟩ := Option.map_eq_some_iff.mp htoken
  obtain ⟨hcount, hstep⟩ := List.getElem?_eq_some_iff.mp hget
  have hsplit : steps = steps.take count ++ (token, blocks) :: steps.drop (count + 1) := by
    rw [← hstep, List.getElem_cons_drop, List.take_append_drop]
  have hleaves := h.invariant (fun _ _ _ _ => Leaves.shift) leaves_nil hsplit
  have hpassed : (steps.map (·.1)).take (count + 1) =
      [] ++ (steps.take count).map (·.1) ++ [token] := by
    rw [List.take_add_one, List.getElem?_map, hget, List.map_take]
    rfl
  rw [hpassed, hleaves.lexemes] at hwidths
  have hinjective : Function.Injective (toString : Nat → String) := by
    intro width other htext
    have hdigits : Nat.toDigits 10 width = Nat.toDigits 10 other := by
      simpa only [Nat.toString_eq_repr, Nat.toList_repr] using congrArg String.toList htext
    simpa using congrArg (fun digits => Nat.ofDigitChars 10 digits 0) hdigits
  rwa [hinjective.list_map hwidths] at hsplit

end Indented

-- The layout of every program in the indented notation is balanced, the stream over its tokens
-- counts the blocks that its lexer has open, and no failure to read it is about blocks.
theorem layout_agrees (source : String) :
    (∀ tokens, tokenize .pythonScript source = .ok tokens →
      Indented.Balanced tokens ∧
      ∃ steps, Indented.Runs source steps ∧ Indented.tokens steps = tokens ∧
        ∀ before token blocks after, Indented.trail steps = before ++ (token, blocks) :: after →
          ∃ s t stack, (TokenStream.withLayout tokens).advances before.length = .ok s ∧
            s.tokens = token :: after.map (·.1) ∧ s.advance = .ok (token, t) ∧
            t.blocks = some stack ∧ stack.length = blocks.length ∧
            ((∀ width ∈ blocks, width < 4294967296) → stack = blocks)) ∧
    ∀ failure, parse .pythonScript source = .error failure →
      failure.cause.blamesBlocks = false := by
  refine ⟨fun found htokens => ?_, fun failure => Indented.blamesBlocks_of_parse⟩
  obtain ⟨steps, hruns, rfl⟩ := Indented.tokenize_eq_ok_iff.mp htokens
  refine ⟨?_, steps, hruns, rfl, fun before token blocks after hsplit => ?_⟩
  · rw [Indented.tokens_eq_map_trail]
    exact hruns.trail.balanced
  · obtain ⟨s, t, stack, hread, hrest, hadvance, hstack, hcounted⟩ :=
      (hsplit ▸ hruns.onTrail).reads
    exact ⟨s, t, stack, hread, hrest, hadvance, hstack, hcounted.length_eq, hcounted.eq⟩

-- A first line that is indented, a block behind a tab, a bracket that closes nothing, and one that
-- is never closed.
def staircase : String := "  if a:\n\tb = f(1,\n  2))\n\n# note\n\tc = 3\n  d(\n"

theorem layout_agrees_staircase :
    ∃ found steps before after s t failure,
      tokenize .pythonScript staircase = .ok found ∧ Indented.Balanced found ∧
      Indented.Runs staircase steps ∧
      Indented.trail steps = before ++ (⟨.identifier, "c", ⟨6, 2⟩⟩, [4, 2]) :: after ∧
      (TokenStream.withLayout found).advances before.length = .ok s ∧
      s.advance = .ok (⟨.identifier, "c", ⟨6, 2⟩⟩, t) ∧ t.blocks = some [4, 2] ∧
      parse .pythonScript staircase = .error failure ∧ failure.cause.blamesBlocks = false := by
  obtain ⟨hlexed, hparsed⟩ := layout_agrees staircase
  obtain ⟨failure, hfailure⟩ : ∃ failure, parse .pythonScript staircase = .error failure := by
    have hnone : (parse .pythonScript staircase).toOption.isNone = true := by decide +kernel
    cases h : parse .pythonScript staircase with
    | error failure => exact ⟨failure, rfl⟩
    | ok module => simp [h, Except.toOption] at hnone
  have hfacts : ((tokenize .pythonScript staircase).toOption.map fun found =>
      (found[18]?, Indented.openIndents (found.take 19))) =
        some (some ⟨.identifier, "c", ⟨6, 2⟩⟩, ["4", "2"]) := by decide +kernel
  obtain ⟨found, hfound, hfacts⟩ := Option.map_eq_some_iff.mp hfacts
  have htokens : tokenize .pythonScript staircase = .ok found := by
    cases h : tokenize .pythonScript staircase with
    | error failure => simp [h, Except.toOption] at hfound
    | ok tokens => simpa [h, Except.toOption] using hfound
  obtain ⟨hbalanced, steps, hruns, rfl, hreads⟩ := hlexed found htokens
  obtain ⟨htoken, hindents⟩ := Prod.mk.inj hfacts
  rw [Indented.tokens_eq_map_trail] at htoken hindents
  have hwidths : ["4", "2"] = [4, 2].map (toString : Nat → String) := by decide +kernel
  have hsplit := hruns.trail.split_of_openIndents htoken (hindents.trans hwidths)
  obtain ⟨s, t, stack, hread, -, hadvance, hstack, -, heq⟩ := hreads _ _ _ _ hsplit
  rw [heq (by decide)] at hstack
  exact ⟨_, steps, _, _, s, t, failure, htokens, hbalanced, hruns, hsplit, hread, hadvance, hstack,
    hfailure, hparsed failure hfailure⟩

end Diglot
