import Diglot.Proofs.Parser.Ahead

namespace Diglot.TokenStream

variable {token : Token} {s t : TokenStream}

def tokens (s : TokenStream) : List Token := s.current :: s.upcoming

theorem length_tokens (s : TokenStream) : s.tokens.length = s.size := rfl

theorem blocks_move (s : TokenStream) : s.move.blocks = s.blocks := by
  unfold move
  split
  · rfl
  · split <;> rfl

-- Streams that come to an end, as all do that are made from a list of tokens.
def Ended (s : TokenStream) : Prop := ∃ token ∈ s.tokens, token.kind = .eof

theorem ended_ofTokens (tokens : List Token) (blocks : Option (List Nat)) :
    (ofTokens tokens blocks).Ended := by
  cases tokens with
  | nil => exact ⟨endOf [], .head _, rfl⟩
  | cons first rest =>
      unfold ofTokens
      dsimp only
      split
      · rename_i hlast
        obtain ⟨last, hmem, hkind⟩ := Option.map_eq_some_iff.mp (eq_of_beq hlast)
        exact ⟨last, List.mem_of_getLast? hmem, hkind⟩
      · exact ⟨endOf (first :: rest), by simp [TokenStream.tokens], rfl⟩

theorem mem_tokens_ofTokens {tokens : List Token} {blocks : Option (List Nat)}
    (h : token ∈ (ofTokens tokens blocks).tokens) : token ∈ tokens ∨ token.kind = .eof := by
  cases tokens with
  | nil =>
      rw [List.mem_singleton.mp h]
      exact .inr rfl
  | cons first rest =>
      unfold ofTokens at h
      dsimp only at h
      split at h
      · exact .inl h
      · have hmem : token ∈ first :: rest ++ [endOf (first :: rest)] := h
        rcases List.mem_append.mp hmem with hmem | hmem
        · exact .inl hmem
        · rw [List.mem_singleton.mp hmem]
          exact .inr rfl

-- A list that ends by itself is read as it is.
theorem ofTokens_append_eof (tokens : List Token) (blocks : Option (List Nat)) {last : Token}
    (hkind : last.kind = .eof) :
    (ofTokens (tokens ++ [last]) blocks).tokens = tokens ++ [last] ∧
      (ofTokens (tokens ++ [last]) blocks).blocks = blocks := by
  have hlast : ((tokens ++ [last]).getLast?.map (·.kind) == some .eof) = true := by simp [hkind]
  cases htokens : tokens ++ [last] with
  | nil => simp at htokens
  | cons first rest =>
      rw [htokens] at hlast
      unfold ofTokens
      dsimp only
      rw [if_pos hlast]
      exact ⟨rfl, rfl⟩

-- A stream that is got from another by reading token after token.
inductive Reaches : TokenStream → TokenStream → Prop
  | refl (s : TokenStream) : Reaches s s
  | step {s t u : TokenStream} {token : Token} (hadvance : s.advance = .ok (token, t))
      (hrest : Reaches t u) : Reaches s u

theorem Reaches.trans {u : TokenStream} (hst : Reaches s t) (htu : Reaches t u) : Reaches s u := by
  induction hst with
  | refl => exact htu
  | step hadvance _ ih => exact .step hadvance (ih htu)

theorem eq_current_of_advance (h : s.advance = .ok (token, t)) : token = s.current := by
  unfold advance at h
  split at h
  · cases h
    rfl
  · split at h <;> cases h
    rfl

-- Only a dedent is refused, where no block is open.
theorem eq_of_advance_eq_error {failure : Failure} (h : s.advance = .error failure) :
    failure = ⟨.unbalancedDedent, s.current.pos⟩ ∧ s.current.kind = .dedent ∧
      s.blocks = some [] := by
  unfold advance at h
  split at h
  · cases h
  rename_i hblocks
  split at h
  · rename_i hafter
    unfold blocksAfter at hafter
    split at hafter
    · cases hafter
    · rename_i hkind
      split at hafter <;> cases hafter
      cases h
      exact ⟨rfl, hkind, hblocks⟩
    · cases hafter
  · cases h

-- A step stays at the end, or leaves its token behind.
theorem tokens_of_advance (hended : s.Ended) (h : s.advance = .ok (token, t)) :
    (s.current.kind = .eof ∧ t.tokens = s.tokens) ∨
      (s.current.kind ≠ .eof ∧ s.tokens = s.current :: t.tokens) := by
  have hmove : t.tokens = s.move.tokens := by
    unfold advance at h
    split at h
    · cases h
      rfl
    · split at h <;> cases h
      rfl
  rw [hmove]
  unfold move
  by_cases hkind : s.current.kind = .eof
  · refine .inl ⟨hkind, ?_⟩
    split
    · rfl
    · simp [isAtEnd, hkind]
  · refine .inr ⟨hkind, ?_⟩
    split
    · rename_i hupcoming
      obtain ⟨last, hmem, hlast⟩ := hended
      rw [tokens, hupcoming] at hmem
      rw [List.mem_singleton] at hmem
      exact absurd (hmem ▸ hlast) hkind
    · rename_i next rest hupcoming
      simp [isAtEnd, hkind, tokens, hupcoming]

theorem Ended.advance (hended : s.Ended) (h : s.advance = .ok (token, t)) : t.Ended := by
  rcases tokens_of_advance hended h with ⟨-, heq⟩ | ⟨hkind, heq⟩
  · obtain ⟨last, hmem, hlast⟩ := hended
    exact ⟨last, heq ▸ hmem, hlast⟩
  · obtain ⟨last, hmem, hlast⟩ := hended
    rw [heq] at hmem
    rcases List.mem_cons.mp hmem with rfl | hmem
    · exact absurd hlast hkind
    · exact ⟨last, hmem, hlast⟩

-- What is read never goes past the first token that ends the stream.
theorem Reaches.passes (h : Reaches s t) (hended : s.Ended) :
    t.Ended ∧ ∃ passed, s.tokens = passed ++ t.tokens ∧ ∀ token ∈ passed, token.kind ≠ .eof := by
  induction h with
  | refl => exact ⟨hended, [], rfl, by simp⟩
  | @step s t u token hadvance _ ih =>
      obtain ⟨hend, passed, hpassed, hkinds⟩ := ih (hended.advance hadvance)
      refine ⟨hend, ?_⟩
      rcases tokens_of_advance hended hadvance with ⟨-, heq⟩ | ⟨hkind, heq⟩
      · exact ⟨passed, heq ▸ hpassed, hkinds⟩
      · refine ⟨s.current :: passed, by rw [heq, hpassed]; rfl, ?_⟩
        simpa [hkind] using hkinds

theorem Reaches.ended (h : Reaches s t) (hended : s.Ended) : t.Ended :=
  (h.passes hended).1

theorem Reaches.mem_tokens (h : Reaches s t) (hended : s.Ended) (hmem : token ∈ t.tokens) :
    token ∈ s.tokens := by
  obtain ⟨-, passed, hpassed, -⟩ := h.passes hended
  rw [hpassed]
  exact List.mem_append_right _ hmem

theorem Reaches.size_le (h : Reaches s t) (hended : s.Ended) : t.size ≤ s.size := by
  obtain ⟨-, passed, hpassed, -⟩ := h.passes hended
  rw [← length_tokens, ← length_tokens, hpassed, List.length_append]
  omega

-- A stream moves over a token that is solid without looking at its blocks.
theorem advance_of_isSolid (h : s.current.isSolid = true) :
    s.advance = .ok (s.current, s.move) := by
  obtain ⟨current, upcoming, blocks⟩ := s
  cases blocks with
  | none => rfl
  | some widths =>
      have hafter : blocksAfter widths current = .ok widths := by
        unfold blocksAfter
        split
        · simp_all [Token.isSolid]
        · simp_all [Token.isSolid]
        · rfl
      simp only [advance, hafter, move]
      split
      · rfl
      · split <;> rfl

theorem reaches_dropWhile {p : Token → Bool} (hp : ∀ token, p token = true → token.isSolid = true)
    (s : TokenStream) : Reaches s (s.dropWhile p) := by
  obtain ⟨current, upcoming, blocks⟩ := s
  induction upcoming generalizing current with
  | nil => exact .refl _
  | cons next rest ih =>
      by_cases hcurrent : p current = true
      · have hsolid := hp current hcurrent
        have hend : (current.kind == .eof) = false := by
          cases hkind : current.kind <;> simp_all [Token.isSolid]
        have hstep : advance ⟨current, next :: rest, blocks⟩ =
            .ok (current, ⟨next, rest, blocks⟩) := by
          rw [advance_of_isSolid hsolid]
          simp [move, isAtEnd, hend]
        have hrest := ih next
        simp only [dropWhile, dropTokens, hcurrent, if_true] at hrest ⊢
        exact .step hstep hrest
      · simp only [dropWhile, dropTokens, hcurrent]
        exact .refl _

end Diglot.TokenStream
