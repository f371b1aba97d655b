import Diglot.Text.Position
import Diglot.Syntax.Operator

namespace Diglot

-- One link of a chain of comparisons: the operator and what stands on its right.
structure Comparison (ε : Type) where
  op : CompareOp
  right : ε
  deriving Repr

-- A key of a dictionary.
inductive DictKey (ε : Type) where
  -- A text, quoted or a bare property name.
  | literal (text : String)
  | number (text : String)
  -- A key that an expression gives.
  | computed (key : ε)
  deriving Repr

structure DictEntry (ε : Type) where
  key : DictKey ε
  value : ε
  deriving Repr

-- A piece of interpolated text.
inductive Segment (ε : Type) where
  | text (value : String)
  | expr (value : ε)
  deriving Repr

-- The expressions of both notations. Every node has the place of its first token.
inductive Expr where
  | binary (op : BinaryOp) (left right : Expr) (pos : Pos)
  | unary (op : UnaryOp) (operand : Expr) (pos : Pos)
  | logical (op : BoolOp) (left right : Expr) (pos : Pos)
  -- `a < b < c` means that both comparisons hold.
  | compare (left : Expr) (comparisons : List (Comparison Expr)) (pos : Pos)
  | conditional (test consequent alternate : Expr) (pos : Pos)
  | membership (element container : Expr) (negated : Bool) (pos : Pos)
  | index (object index : Expr) (pos : Pos)
  | slice (object : Expr) (start stop step : Option Expr) (pos : Pos)
  | member (object : Expr) (name : String) (pos : Pos)
  | call (callee : Expr) (args : List Expr) (pos : Pos)
  -- The call of a constructor with `new`.
  | construct (callee : Expr) (args : List Expr) (pos : Pos)
  | list (elements : List Expr) (pos : Pos)
  | dict (entries : List (DictEntry Expr)) (pos : Pos)
  | interpolated (segments : List (Segment Expr)) (pos : Pos)
  -- Text between backticks as it is written, with its embedded expressions unread.
  | template (raw : String) (pos : Pos)
  | number (literal : String) (pos : Pos)
  | string (value : String) (pos : Pos)
  | boolean (value : Bool) (pos : Pos)
  | null (pos : Pos)
  | var (name : String) (pos : Pos)
  | this (pos : Pos)
  | super (pos : Pos)
  deriving Repr, Inhabited

namespace Expr

-- Where an expression starts.
def pos : Expr → Pos
  | binary _ _ _ pos | unary _ _ pos | logical _ _ _ pos | compare _ _ pos | conditional _ _ _ pos
  | membership _ _ _ pos | index _ _ pos | slice _ _ _ _ pos | member _ _ pos | call _ _ pos
  | construct _ _ pos | list _ pos | dict _ pos | interpolated _ pos | template _ pos
  | number _ pos | string _ pos | boolean _ pos | null pos | var _ pos | this pos
  | super pos => pos

-- The name of the kind of an expression.
def kindName : Expr → String
  | binary .. => "BinOp"
  | unary .. => "UnaryOp"
  | logical .. => "BoolOp"
  | compare .. => "CompareChain"
  | conditional .. => "Conditional"
  | membership .. => "Membership"
  | index .. => "Index"
  | slice .. => "Slice"
  | member .. => "Attribute"
  | call .. => "Call"
  | construct .. => "New"
  | list .. => "List"
  | dict .. => "Dict"
  | interpolated .. => "InterpolatedString"
  | template .. => "TemplateLiteral"
  | number .. => "Number"
  | string .. => "String"
  | boolean .. => "Boolean"
  | null .. => "Null"
  | var .. => "Variable"
  | this .. => "This"
  | super .. => "Super"

-- The name that a plain variable reads.
def var? : Expr → Option String
  | var name _ => some name
  | _ => none

-- Whether an expression may stand on the left of an assignment.
def isAssignable : Expr → Bool
  | var .. | member .. | index .. => true
  | _ => false

-- Whether an expression is the given number, as it is written.
def isNumber (e : Expr) (literal : String) : Bool :=
  match e with
  | number found _ => found == literal
  | _ => false

-- A written expression, in brackets if it binds less tightly than needed.
def wrap (precedence : Expr → Nat) (needed : Nat) (expr : Expr) (text : String) : String :=
  if precedence expr < needed then "(" ++ text ++ ")" else text

end Expr

end Diglot
