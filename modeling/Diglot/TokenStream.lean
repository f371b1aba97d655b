import Diglot.Failure

namespace Diglot

-- Tokens from a current one on. A stream may keep the widths of the blocks that the tokens before
-- the current one have opened, innermost first.
structure TokenStream where
  current : Token
  upcoming : List Token
  blocks : Option (List Nat)
  deriving Repr

namespace TokenStream

-- The token that ends a list of tokens which does not end by itself. It stands where the last one
-- does.
def endOf (tokens : List Token) : Token :=
  ⟨.eof, "", (tokens.getLast?.map (·.pos)).getD .start⟩

-- The stream over a list of tokens, which is ended if it does not end with an `eof`.
def ofTokens (tokens : List Token) (blocks : Option (List Nat)) : TokenStream :=
  match tokens with
  | [] => ⟨endOf [], [], blocks⟩
  | first :: rest =>
      if (tokens.getLast?.map (·.kind)) == some .eof then ⟨first, rest, blocks⟩
      else ⟨first, rest ++ [endOf tokens], blocks⟩

-- A stream that does not look at the layout of blocks.
def plain (tokens : List Token) : TokenStream := ofTokens tokens none

-- A stream that checks that blocks are closed as often as they are opened.
def withLayout (tokens : List Token) : TokenStream := ofTokens tokens (some [])

-- How many tokens there are, the current one included.
def size (stream : TokenStream) : Nat := stream.upcoming.length + 1

-- The token some places ahead.
def peek (stream : TokenStream) : Nat → Option Token
  | 0 => some stream.current
  | offset + 1 => stream.upcoming[offset]?

def isAtEnd (stream : TokenStream) : Bool := stream.current.kind == .eof

-- How many blocks are open.
def depth (stream : TokenStream) : Nat := (stream.blocks.map List.length).getD 0

-- The width that an indent token states: a decimal number of at most 32 bits.
def statedWidth? (lexeme : String) : Option Nat :=
  let digits := match lexeme.toList with
    | '+' :: digits => digits
    | digits => digits
  let width := digits.foldl (fun width c => width * 10 + (c.toNat - '0'.toNat)) 0
  if !digits.isEmpty && digits.all Char.isDigit && width < 4294967296 then some width else none

-- The level of an indent inside another level: the width that it states, or else one column more.
-- Levels are 32-bit numbers, and the sum wraps around as in a build without overflow checks.
def indentLevel (around : Nat) (lexeme : String) : Nat :=
  (statedWidth? lexeme).getD ((around + 1) % 4294967296)

-- The open blocks behind a token.
def blocksAfter (blocks : List Nat) (token : Token) : Except Cause (List Nat) :=
  match token.kind with
  | .indent => .ok (indentLevel (blocks.headD 0) token.lexeme :: blocks)
  | .dedent =>
      match blocks with
      | [] => .error .unbalancedDedent
      | _ :: outer => .ok outer
  | _ => .ok blocks

-- The stream behind its current token. At the end it stays where it is.
def move (stream : TokenStream) : TokenStream :=
  match stream.upcoming with
  | [] => stream
  | next :: rest =>
      if stream.isAtEnd then stream else { stream with current := next, upcoming := rest }

-- The current token and the stream behind it. A dedent that closes no block is refused.
def advance (stream : TokenStream) : Except Failure (Token × TokenStream) :=
  match stream.blocks with
  | none => .ok (stream.current, stream.move)
  | some blocks =>
      match blocksAfter blocks stream.current with
      | .error cause => .error ⟨cause, stream.current.pos⟩
      | .ok blocks => .ok (stream.current, { stream.move with blocks := some blocks })

-- The first of some tokens that fails a test, and those behind it. The last token always stays.
def dropTokens (p : Token → Bool) : Token → List Token → Token × List Token
  | current, [] => (current, [])
  | current, next :: rest => if p current then dropTokens p next rest else (current, next :: rest)

-- The stream without the tokens at its start that pass a test.
def dropWhile (p : Token → Bool) (stream : TokenStream) : TokenStream :=
  let (current, upcoming) := dropTokens p stream.current stream.upcoming
  { stream with current, upcoming }

-- The failure that something else than the current token was expected.
def unexpected (stream : TokenStream) (expected : String) : Failure :=
  if stream.isAtEnd then ⟨.unexpectedEnd expected, stream.current.pos⟩
  else ⟨.unexpectedToken expected stream.current.kind stream.current.lexeme, stream.current.pos⟩

-- The failure that what starts at the current token is not supported.
def refused (stream : TokenStream) (explanation : String) : Failure :=
  ⟨.refused explanation, stream.current.pos⟩

end TokenStream

end Diglot
