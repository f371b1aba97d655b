import Diglot.Proofs.Parser.Whole
import Diglot.Proofs.Parser.Grammar
import Diglot.Proofs.Scanner

namespace Diglot

open Diglot.Parser TokenStream
open Token (op kw word)

-- An expression as it is written: its text, the tokens that the text makes, the expression that
-- they say, and the tightest level of the grammar that has it. What stands alone or in brackets,
-- and what has suffixes, is of level 14 in both notations.
structure Written where
  text : List Char
  tokens : List Token
  value : Expr
  rank : Nat

namespace Written

def leaf (text : List Char) (token : Token) (value : Expr) : Written := ⟨text, [token], value, 14⟩

def ofName (name : String) : Written := leaf name.toList (word name) (.var name .start)

def ofNumber (literal : String) : Written :=
  leaf literal.toList (.number literal) (.number literal .start)

-- A quoted text, and what is read back for it.
def ofString (value lexeme : String) : Written :=
  leaf (quote value).toList (.string lexeme) (.string lexeme .start)

def ofKeyword (keyword : String) (value : Expr) : Written := leaf keyword.toList (kw keyword) value

-- A text that is not looked into.
def sealed (text : String) : Written := leaf text.toList .ending (.null .start)

def group (w : Written) : Written :=
  ⟨'(' :: (w.text ++ [')']), op "(" :: (w.tokens ++ [op ")"]), w.value, 14⟩

def list (elements : List Written) : Written :=
  ⟨'[' :: (commaTexts (elements.map text) ++ [']']),
    op "[" :: (commas (elements.map tokens) ++ [op "]"]), .list (elements.map value) .start, 14⟩

def index (object inner : Written) : Written :=
  ⟨object.text ++ '[' :: (inner.text ++ [']']),
    object.tokens ++ op "[" :: (inner.tokens ++ [op "]"]),
    .index object.value inner.value .start, 14⟩

def call (callee : Written) (args : List Written) : Written :=
  ⟨callee.text ++ '(' :: (commaTexts (args.map text) ++ [')']),
    callee.tokens ++ op "(" :: (commas (args.map tokens) ++ [op ")"]),
    .call callee.value (args.map value) .start, 14⟩

-- The name behind a dot is made into the given token.
def member (object : Written) (name : String) (token : Token) : Written :=
  ⟨object.text ++ '.' :: name.toList, object.tokens ++ [op ".", token],
    .member object.value name .start, 14⟩

-- Two operands of an operator of a level.
def infixed (symbol : String) (token : Token) (rank : Nat) (node : Expr → Expr → Expr)
    (left right : Written) : Written :=
  ⟨left.text ++ ' ' :: (symbol.toList ++ ' ' :: right.text), left.tokens ++ token :: right.tokens,
    node left.value right.value, rank⟩

-- What is written, in brackets if its expression binds less tightly than needed.
def enclose (precedence : Expr → Nat) (needed : Nat) (expr : Expr) (w : Written) : Written :=
  if precedence expr < needed then w.group else w

section Enclosing

variable {precedence : Expr → Nat} {needed : Nat} {expr : Expr} {w : Written}

@[simp]
theorem value_enclose : (w.enclose precedence needed expr).value = w.value := by
  unfold enclose
  split <;> rfl

theorem text_enclose {text : String} (h : w.text = text.toList) :
    (w.enclose precedence needed expr).text = (expr.wrap precedence needed text).toList := by
  unfold enclose Expr.wrap
  split
  · simp [group, h]
  · exact h

end Enclosing

-- Tokens whose first is none of those that a test holds of.
def Spares (test : Token → Bool) (tokens : List Token) : Prop :=
  ∃ first more, tokens = first :: more ∧ test first = false

section Sparing

variable {test : Token → Bool} {tokens : List Token}

theorem Spares.append (h : Spares test tokens) (more : List Token) :
    Spares test (tokens ++ more) := by
  obtain ⟨first, rest, rfl, hfirst⟩ := h
  exact ⟨first, rest ++ more, rfl, hfirst⟩

theorem Spares.enclose {w : Written} (h : Spares test w.tokens) (hbracket : test (op "(") = false)
    (precedence : Expr → Nat) (needed : Nat) (expr : Expr) :
    Spares test (w.enclose precedence needed expr).tokens := by
  unfold Written.enclose
  split
  · exact ⟨op "(", _, rfl, hbracket⟩
  · exact h

end Sparing

section Lexing

variable {s : Scanner} {w object left right : Written} {parts : List Written}

-- The lexer makes the tokens out of the text.
def Lexes (s : Scanner) (w : Written) : Prop := s.LexesAs w.text w.tokens

theorem Lexes.group (h : w.Lexes s) : w.group.Lexes s :=
  Scanner.LexesAs.enclosed h '(' ')' (by decide) (by decide)

theorem lexes_list (h : ∀ part ∈ parts, part.Lexes s) : (list parts).Lexes s :=
  (Scanner.lexesAs_commas h).enclosed '[' ']' (by decide) (by decide)

theorem Lexes.index (hobject : object.Lexes s) (h : w.Lexes s) : (index object w).Lexes s :=
  Scanner.LexesAs.append hobject (Scanner.LexesAs.enclosed h '[' ']' (by decide) (by decide))
    fun _ _ => s.ends_cons (by decide) _

theorem Lexes.call (hobject : object.Lexes s) (h : ∀ part ∈ parts, part.Lexes s) :
    (call object parts).Lexes s :=
  Scanner.LexesAs.append hobject
    ((Scanner.lexesAs_commas h).enclosed '(' ')' (by decide) (by decide))
    fun _ _ => s.ends_cons (by decide) _

theorem Lexes.infixed (hleft : left.Lexes s) (hright : right.Lexes s) {symbol : String}
    {token : Token} (h : s.Joins symbol.toList token) (rank : Nat) (node : Expr → Expr → Expr) :
    (infixed symbol token rank node left right).Lexes s :=
  Scanner.LexesAs.join hleft hright h

end Lexing

end Written

-- The lexer of a notation and its reader of expressions.
structure FrontEnd where
  scanner : Scanner
  grammar : Grammar
  -- Whether the text of an expression of a level may start with a character.
  opens : Nat → Char → Bool
  opens_mono : ∀ {looser rank c}, looser ≤ rank → opens rank c = true → opens looser c = true
  expression : Nat → Parser Expr
  -- The reader of a level reads some tokens as an expression. What stands in brackets is read with
  -- the given limit.
  ReadsAt : Nat → Nat → List Token → Expr → Prop
  mono : ∀ {limit rank looser tokens value}, grammar.Starts rank tokens →
    tokens.length ≤ limit + 1 → ReadsAt limit rank tokens value → looser ≤ rank →
      ReadsAt limit looser tokens value
  whole : ∀ {limit tokens value}, ReadsAt limit 1 tokens value →
    grammar.ReadsAs (expression (limit + 1)) 1 tokens value

-- Some tokens are read as a value at a level of the grammar.
structure Reads (f : FrontEnd) (rank : Nat) (tokens : List Token) (value : Expr) : Prop where
  ranked : 0 < rank
  starts : f.grammar.Starts rank tokens
  readsAt : ∀ limit, tokens.length ≤ limit + 1 → f.ReadsAt limit rank tokens value

namespace Reads

variable {f : FrontEnd} {rank looser : Nat} {tokens : List Token} {value : Expr}

theorem length_pos (h : Reads f rank tokens value) : 0 < tokens.length := by
  obtain ⟨first, more, htokens, -, -⟩ := h.starts
  simp [htokens]

theorem at_of_le (h : Reads f rank tokens value) (limit : Nat)
    (hlimit : tokens.length ≤ limit + 1) (hrank : looser ≤ rank) :
    f.ReadsAt limit looser tokens value :=
  f.mono h.starts hlimit (h.readsAt limit hlimit) hrank

-- In brackets an expression is read with the next smaller limit.
theorem whole (h : Reads f rank tokens value) {limit : Nat} (hlimit : tokens.length ≤ limit) :
    f.grammar.Whole (f.expression limit) tokens value := by
  have hpos := h.length_pos
  obtain ⟨limit, rfl⟩ : ∃ less, limit = less + 1 := ⟨limit - 1, by omega⟩
  exact ⟨h.starts.mono h.ranked, f.whole (h.at_of_le limit hlimit h.ranked)⟩

-- Two operands of an operator, once the level of the operator reads them.
theorem infixed {left right : List Token} {token : Token} {first : Expr}
    (hleft : Reads f rank left first) (hranked : 0 < looser) (hle : looser ≤ rank)
    (hreads : ∀ limit, left.length ≤ limit → right.length ≤ limit →
      f.ReadsAt limit looser (left ++ token :: right) value) :
    Reads f looser (left ++ token :: right) value where
  ranked := hranked
  starts := hleft.starts.append hle
  readsAt limit hlimit := by
    simp only [List.length_append, List.length_cons] at hlimit
    exact hreads limit (by omega) (by omega)

end Reads

-- The text of an expression is made into its tokens, and they are read as its value at its level.
structure Sound (f : FrontEnd) (w : Written) : Prop extends Reads f w.rank w.tokens w.value where
  lexes : w.Lexes f.scanner
  opens : w.text.head?.any (f.opens w.rank) = true

namespace Sound

variable {f : FrontEnd} {w : Written} {parts : List Written}

-- What stands in a list is shorter than the list.
theorem wholes (h : ∀ part ∈ parts, Sound f part) (limit : Nat)
    (hlimit : (commas (parts.map Written.tokens)).length ≤ limit) :
    (∀ part ∈ parts, f.grammar.Whole (f.expression limit) part.tokens part.value) ∧
      parts.length ≤ limit := by
  constructor
  · intro part hpart
    exact (h part hpart).whole (Nat.le_trans (length_le_length_commas hpart _) hlimit)
  · exact Nat.le_trans (length_parts_le fun part hpart => (h part hpart).length_pos) hlimit

-- What stands behind an expression of a level does not change how its text starts.
theorem opens_append (h : Sound f w) {looser : Nat} (hle : looser ≤ w.rank) (more : List Char) :
    (w.text ++ more).head?.any (f.opens looser) = true := by
  have hopens := h.opens
  cases htext : w.text with
  | nil => simp [htext] at hopens
  | cons c text =>
      simp only [htext, List.head?_cons, Option.any_some] at hopens
      exact f.opens_mono hle hopens

-- A suffix, once the tightest level reads it behind what it applies to.
theorem suffixed {text : List Char} {token : Token} {more : List Token} {value : Expr}
    (h : Sound f w) (hrank : 14 ≤ w.rank)
    (hlexes : f.scanner.LexesAs (w.text ++ text) (w.tokens ++ token :: more))
    (hreads : ∀ limit, w.tokens.length < limit + 1 → more.length ≤ limit →
      f.ReadsAt limit 14 w.tokens w.value → f.ReadsAt limit 14 (w.tokens ++ token :: more) value) :
    Sound f ⟨w.text ++ text, w.tokens ++ token :: more, value, 14⟩ where
  ranked := Nat.zero_lt_succ 13
  lexes := hlexes
  opens := h.opens_append hrank _
  starts := h.starts.append hrank
  readsAt limit hlimit := by
    simp only [List.length_append, List.length_cons] at hlimit
    exact hreads limit (by omega) (by omega) (h.at_of_le limit (by omega) hrank)

-- Two operands of an operator, once the level of the operator reads them.
theorem infixed {left right : Written} {symbol : String} {token : Token} {rank : Nat}
    {node : Expr → Expr → Expr} (hjoins : f.scanner.Joins symbol.toList token)
    (hleft : Sound f left) (hright : Sound f right) (hleftrank : rank ≤ left.rank)
    (hreads : Reads f rank (left.tokens ++ token :: right.tokens)
      (node left.value right.value)) :
    Sound f (.infixed symbol token rank node left right) where
  toReads := hreads
  lexes := hleft.lexes.infixed hright.lexes hjoins rank node
  opens := hleft.opens_append hleftrank _

end Sound

end Diglot
