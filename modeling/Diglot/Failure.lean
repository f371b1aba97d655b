import Diglot.Token

namespace Diglot

-- Why reading a program failed.
inductive Cause where
  | unterminatedString
  | unterminatedInterpolated
  | unterminatedTemplate
  | unterminatedBlockComment
  | unexpectedCharacter (character : Char)
  -- A line is indented less than the block before it, by a width that no open block has.
  | inconsistentIndentation (width : Nat)
  | invalidNumber (text : String)
  | unexpectedToken (expected : String) (kind : TokenKind) (lexeme : String)
  | unexpectedEnd (expected : String)
  | unbalancedDedent
  -- An expression inside a quoted text cannot be read, for the given reason.
  | invalidInterpolation (reason : Cause)
  -- The kind of expression that cannot be assigned to.
  | invalidTarget (kind : String)
  -- The text is understood and not supported.
  | refused (explanation : String)
  -- The three reasons that only an expression inside a quoted text has.
  | unclosedEmbedding
  | emptyEmbedding
  | trailingToken (kind : TokenKind) (lexeme : String)
  deriving Repr, Inhabited

-- What a reader fails with whose limit is used up. None that reads a program is given one so small.
def Cause.exhausted : Cause := .refused "the limit of a reader is used up"

-- What a message says about the cause.
def Cause.message : Cause → String
  | .unterminatedString => "unterminated string literal"
  | .unterminatedInterpolated => "unterminated interpolated string literal"
  | .unterminatedTemplate => "unterminated template literal"
  | .unterminatedBlockComment => "unterminated block comment"
  | .unexpectedCharacter character => "unexpected character '" ++ character.toString ++ "'"
  | .inconsistentIndentation width =>
      "inconsistent indentation (dedent to column width " ++ toString width ++
        " matches no enclosing block)"
  | .invalidNumber text => "invalid number '" ++ text ++ "'"
  | .unexpectedToken expected kind lexeme =>
      "expected " ++ expected ++ ", found " ++ kind.describe lexeme
  | .unexpectedEnd expected => "unexpected end of input, expected " ++ expected
  | .unbalancedDedent => "unbalanced DEDENT"
  | .invalidInterpolation reason => "invalid interpolation: " ++ reason.message
  | .invalidTarget kind => "invalid assignment target " ++ kind
  | .refused explanation => explanation
  | .unclosedEmbedding => "unterminated '\x7b' in interpolated string"
  | .emptyEmbedding => "empty expression"
  | .trailingToken kind lexeme =>
      "unexpected " ++ kind.describe lexeme ++ " after embedded expression"

-- A cause and the place it is reported at.
structure Failure where
  cause : Cause
  pos : Pos
  deriving Repr, Inhabited

-- A place in a named text, as messages show it.
def Pos.label (pos : Pos) (origin : String) : String :=
  origin ++ ":" ++ toString pos.line ++ ":" ++ toString pos.column

-- The whole message about a failure in a named text.
def Failure.message (failure : Failure) (origin : String) : String :=
  failure.pos.label origin ++ ": " ++ failure.cause.message

end Diglot
