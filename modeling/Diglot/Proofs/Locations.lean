import Diglot.Proofs.InPlace
import Diglot.Proofs.Termination

namespace Diglot

open Diglot.Parser Indented
open Tape (closed)

-- The tokens that raise a cause outside of interpolated texts.
inductive Raises : Dialect → Token → Cause → Prop
  | unexpected {dialect : Dialect} {token : Token} (h : token.kind ≠ .eof) (expected : String) :
      Raises dialect token (.unexpectedToken expected token.kind token.lexeme)
  | ended {dialect : Dialect} {token : Token} (h : token.kind = .eof) (expected : String) :
      Raises dialect token (.unexpectedEnd expected)
  | unbalanced {token : Token} (h : token.kind = .dedent) :
      Raises .pythonScript token .unbalancedDedent
  -- An expression that starts there cannot be assigned to.
  | target {dialect : Dialect} {token : Token} {e : Expr} (hpos : e.pos = token.pos)
      (h : e.isAssignable = false) : Raises dialect token (.invalidTarget e.kindName)
  | unclosed {token : Token} (h : token.kind = .eof) :
      Raises .pythonScript token (.refused "indented block is not closed at end of input")
  | refused {token : Token} {explanation : String} (h : Braced.Refused token explanation) :
      Raises .javaScript token (.refused explanation)

mutual

-- How reading some tokens fails: at the place of the one that raises the cause, or inside an
-- interpolated text that one of them says, and then at the place of that one.
inductive Arises : Dialect → List Token → Failure → Prop
  | outside {dialect : Dialect} {tokens : List Token} {token : Token} {cause : Cause}
      (hmem : token ∈ tokens) (h : Raises dialect token cause) :
      Arises dialect tokens ⟨cause, token.pos⟩
  | inside {tokens : List Token} {token : Token} {reason : Cause} (hmem : token ∈ tokens)
      (hkind : token.kind = .interpolated) (h : Refuses token.lexeme reason) :
      Arises .pythonScript tokens ⟨.invalidInterpolation reason, token.pos⟩

-- Why an interpolated text is refused. A source that is embedded in it has tokens of its own, and
-- reading these may fail inside an interpolated text in turn.
inductive Refuses : String → Cause → Prop
  | unclosed {lexeme : String} {rest : List Char} (hopen : '{' :: rest <:+ lexeme.toList)
      (hclose : Embedding.close 0 none rest = none) : Refuses lexeme .unclosedEmbedding
  | empty {lexeme : String} {source : List Char} (hsource : source ∈ embeddedSources lexeme.toList)
      (hblank : trimBlanks source = []) : Refuses lexeme .emptyEmbedding
  | unlexed {lexeme : String} {source : List Char} {failure : Failure}
      (hsource : source ∈ embeddedSources lexeme.toList)
      (hlexed : tokenize .pythonScript (String.ofList (trimBlanks source)) = .error failure) :
      Refuses lexeme failure.cause
  | unread {lexeme : String} {source : List Char} {tokens : List Token} {failure : Failure}
      (hsource : source ∈ embeddedSources lexeme.toList)
      (hlexed : tokenize .pythonScript (String.ofList (trimBlanks source)) = .ok tokens)
      (hread : Arises .pythonScript (closed tokens) failure) : Refuses lexeme failure.cause
  | trailing {lexeme : String} {source : List Char} {tokens : List Token} {token : Token}
      (hsource : source ∈ embeddedSources lexeme.toList)
      (hlexed : tokenize .pythonScript (String.ofList (trimBlanks source)) = .ok tokens)
      (hmem : token ∈ closed tokens) (hkind : token.kind ≠ .eof) :
      Refuses lexeme (.trailingToken token.kind token.lexeme)

end

section Failing

variable {tokens : List Token} {s : TokenStream} {failure : Failure}

end Failing

-- Inside a text that is itself embedded in one, what is wrong is reported at the outer one.
example : parseTokens .pythonScript [⟨.identifier, "a", ⟨1, 1⟩⟩, ⟨.operator, "=", ⟨1, 3⟩⟩,
    ⟨.interpolated, "\x7bf'\x7bx +\x7d'\x7d", ⟨1, 5⟩⟩] =
      .error ⟨.invalidInterpolation (.invalidInterpolation (.unexpectedEnd "expression")),
        ⟨1, 5⟩⟩ := by
  cbv

end Diglot
