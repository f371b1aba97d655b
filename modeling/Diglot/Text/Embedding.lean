namespace Diglot.Embedding

-- Splits a text at the brace that closes an embedded expression: the expression's source and what
-- follows the brace. Nested braces are counted, and those inside quotes are passed over.
def close (depth : Nat) (quote : Option Char) : List Char → Option (List Char × List Char)
  | [] => none
  | c :: rest =>
      let keep := Option.map fun (source, rest) => (c :: source, rest)
      match quote with
      | some q => keep (close depth (if c == q then none else some q) rest)
      | none =>
          if c == '"' || c == '\'' || c == '`' then keep (close depth (some c) rest)
          else if c == '{' then keep (close (depth + 1) none rest)
          else if c == '}' then
            match depth with
            | 0 => some ([], rest)
            | outer + 1 => keep (close outer none rest)
          else keep (close depth none rest)

-- The split loses nothing but the closing brace.
theorem append_of_close {depth : Nat} {quote : Option Char} {text source rest : List Char}
    (h : close depth quote text = some (source, rest)) : text = source ++ '}' :: rest := by
  induction text generalizing depth quote source with
  | nil => simp [close] at h
  | cons c tail ih =>
    have step : ∀ {depth quote}, (close depth quote tail).map
        (fun (source, rest) => (c :: source, rest)) = some (source, rest) →
        c :: tail = source ++ '}' :: rest := by
      intro depth quote hkept
      obtain ⟨⟨inner, behind⟩, hclose, heq⟩ := Option.map_eq_some_iff.mp hkept
      cases heq
      simp [ih hclose]
    unfold close at h
    dsimp only at h
    split at h
    · exact step h
    · split at h
      · exact step h
      split at h
      · exact step h
      split at h
      · rename_i hbrace
        split at h
        · cases h
          simp [eq_of_beq hbrace]
        · exact step h
      · exact step h

end Diglot.Embedding
