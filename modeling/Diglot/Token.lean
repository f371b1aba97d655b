import Diglot.Text.Position

namespace Diglot

-- The categories of tokens, shared by both notations.
inductive TokenKind where
  | number
  | string
  -- Quoted text with expressions in braces; the braces are not looked at yet.
  | interpolated
  -- Text between backticks, kept as it is written.
  | template
  | identifier
  | keyword
  -- Operators and punctuation.
  | operator
  | indent
  | dedent
  | newline
  | eof
  deriving DecidableEq, Repr, Inhabited

-- The name of a category, as messages and serialized tokens show it.
def TokenKind.name : TokenKind → String
  | .number => "NUMBER"
  | .string => "STRING"
  | .interpolated => "INTERPOLATED_STRING"
  | .template => "TEMPLATE_STRING"
  | .identifier => "IDENTIFIER"
  | .keyword => "KEYWORD"
  | .operator => "OPERATOR"
  | .indent => "INDENT"
  | .dedent => "DEDENT"
  | .newline => "NEWLINE"
  | .eof => "EOF"

-- All categories.
def TokenKind.all : List TokenKind :=
  [.number, .string, .interpolated, .template, .identifier, .keyword, .operator, .indent, .dedent,
    .newline, .eof]

-- The category with a given name.
def TokenKind.ofName? (name : String) : Option TokenKind :=
  TokenKind.all.find? (·.name == name)

-- How messages describe a token: its category, and its text where that says more.
def TokenKind.describe (kind : TokenKind) (lexeme : String) : String :=
  match kind with
  | .indent | .dedent | .newline | .eof => kind.name
  | _ => kind.name ++ " '" ++ lexeme ++ "'"

-- A token: its category, its text (of a quoted text, what the quotes hold), and the place of its
-- first character.
structure Token where
  kind : TokenKind
  lexeme : String
  pos : Pos
  deriving DecidableEq, Repr, Inhabited

namespace Token

def is (token : Token) (kind : TokenKind) (lexeme : String) : Bool :=
  token.kind == kind && token.lexeme == lexeme

def isOperator (token : Token) (lexeme : String) : Bool := token.is .operator lexeme

def isKeyword (token : Token) (lexeme : String) : Bool := token.is .keyword lexeme

def describe (token : Token) : String := token.kind.describe token.lexeme

end Token

end Diglot
