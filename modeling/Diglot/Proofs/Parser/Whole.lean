import Diglot.Proofs.Parser.Ahead

namespace Diglot

open Diglot.Parser TokenStream

variable {source : String} {tokens : List Token} {found : Expr} {rest : TokenStream}

-- The expression that a text starts with, and whether it is all of the text.
def parseWhole (dialect : Dialect) (source : String) : Except Failure (Expr × Bool) := do
  let tokens ← tokenize dialect source
  let (expr, rest) ← match dialect with
    | .pythonScript =>
        Indented.expression (Indented.embeddedExpr (Indented.longestLexeme tokens))
          (withLayout tokens).size (withLayout tokens)
    | .javaScript => Braced.expression (plain tokens).size (plain tokens)
  return (expr, rest.isAtEnd)

theorem Indented.parseWhole_of_read (htokenize : Indented.tokenize source = .ok tokens)
    (hread : Indented.expression (Indented.embeddedExpr (Indented.longestLexeme tokens))
      (withLayout tokens).size (withLayout tokens) = .ok (found, rest))
    (hend : rest.isAtEnd = true) :
    parseWhole .pythonScript source = .ok (found, true) := by
  simp only [parseWhole, Diglot.tokenize, htokenize, bind, Except.bind, hread, hend]
  rfl

theorem Braced.parseWhole_of_read (htokenize : Braced.tokenize source = .ok tokens)
    (hread : Braced.expression (plain tokens).size (plain tokens) = .ok (found, rest))
    (hend : rest.isAtEnd = true) : parseWhole .javaScript source = .ok (found, true) := by
  simp only [parseWhole, Diglot.tokenize, htokenize, bind, Except.bind, hread, hend]
  rfl

theorem parseExpr_eq_map_parseWhole (dialect : Dialect) (source : String) :
    parseExpr dialect source = (parseWhole dialect source).map (·.1) := by
  rw [parseExpr, parseWhole]
  cases tokenize dialect source with
  | error failure => rfl
  | ok tokens =>
      cases dialect with
      | pythonScript =>
          change Indented.readExpr tokens = _
          rw [Indented.readExpr]
          cases hread : Indented.expression
            (Indented.embeddedExpr (Indented.longestLexeme tokens))
            (withLayout tokens).size (withLayout tokens) <;>
            simp [StateT.run', hread, bind, Except.bind, Except.map, pure, Except.pure,
              Functor.map]
      | javaScript =>
          change Braced.readExpr tokens = _
          rw [Braced.readExpr]
          cases hread : Braced.expression (plain tokens).size (plain tokens) <;>
            simp [StateT.run', hread, bind, Except.bind, Except.map, pure, Except.pure,
              Functor.map]

namespace Parser

theorem size_eq_of_placeless {s t : TokenStream} (h : placeless s = placeless t) :
    s.size = t.size := by
  obtain ⟨-, hupcoming, -⟩ := placeless_stream_eq_iff.mp h
  have hlength := congrArg List.length hupcoming
  simpa [TokenStream.size] using hlength

theorem size_ahead (expected : List Token) (blocks : Blocks) :
    (ahead expected blocks).size = expected.length + 1 := by
  cases expected with
  | nil => rfl
  | cons first rest => simp [TokenStream.size, ahead]

-- A blind reader that reads all of some tokens reads all of what they are with places.
theorem whole_of_blind {reader : Nat → Parser Expr} {blocks : Blocks}
    {tokens expected : List Token} {value : Expr}
    (h : placeless tokens = placeless (expected ++ [.ending]))
    (hblind : ∀ limit, Blind (reader limit))
    (hread : reader (expected.length + 1) (ahead expected blocks) = .ok (value, ahead [] blocks)) :
    ∃ found rest, reader (ofTokens tokens blocks).size (ofTokens tokens blocks) =
      .ok (found, rest) ∧ rest.isAtEnd = true ∧ placeless found = placeless value := by
  have hsize : (ofTokens tokens blocks).size = expected.length + 1 := by
    rw [size_eq_of_placeless (placeless_ofTokens h blocks), size_ahead]
  rw [hsize]
  obtain ⟨found, rest, hrun, hfound, hrest⟩ := run_of_blind (hblind _) h hread
  exact ⟨found, rest, hrun, isAtEnd_eq_of_placeless hrest, hfound⟩

end Parser

end Diglot
