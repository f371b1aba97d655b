import Diglot.Braced.Template
import Diglot.Fragment
import Diglot.Text.Quote

namespace Diglot.Indented

-- How tightly the kinds of expressions bind, from loose to tight.
namespace Level

def conditional : Nat := 1

def disjunction : Nat := 2

def conjunction : Nat := 3

def negation : Nat := 4

def comparison : Nat := 5

def additive : Nat := 10

def multiplicative : Nat := 11

def unary : Nat := 12

def power : Nat := 13

def atom : Nat := 14

end Level

def binaryLevel : BinaryOp → Nat
  | .add | .subtract => Level.additive
  | .power => Level.power
  | _ => Level.multiplicative

-- How tightly an expression binds once it is written. Some calls are written as operators.
def precedence : Expr → Nat
  | .conditional .. => Level.conditional
  | .logical .or .. => Level.disjunction
  | .logical .and .. => Level.conjunction
  | .unary .not .. => Level.negation
  | .compare .. => Level.comparison
  | .membership .. => Level.comparison
  | .binary op .. => binaryLevel op
  | .unary .. => Level.unary
  | .call (.member object name _) args _ =>
      match name, args with
      | "includes", [_] => Level.comparison
      | "floor", [.binary .divide ..] =>
          if object.var? = some "Math" then Level.multiplicative else Level.atom
      | _, _ => Level.atom
  | _ => Level.atom

abbrev wrap : Nat → Expr → String → String := Expr.wrap precedence

def binarySymbol : BinaryOp → String
  | .add => "+"
  | .subtract => "-"
  | .multiply => "*"
  | .divide => "/"
  | .floorDivide => "//"
  | .modulo => "%"
  | .power => "**"

def compareSymbol : CompareOp → String
  | .less => "<"
  | .greater => ">"
  | .lessEqual => "<="
  | .greaterEqual => ">="
  | .equal => "=="
  | .notEqual => "!="
  | .isIn => "in"
  | .notIn => "not in"

-- How a character of the text of an interpolated string is written between the given quotes.
def escapedText (quote : Char) (c : Char) : List Char :=
  match c with
  | '{' => ['{', '{']
  | '}' => ['}', '}']
  | '\\' => ['\\', '\\']
  | '\n' => ['\\', 'n']
  | '\t' => ['\\', 't']
  | '\r' => ['\\', 'r']
  | c => if c = quote then ['\\', c] else [c]

def segmentText (quote : Char) : Segment String → List Char
  | .text value => value.toList.flatMap (escapedText quote)
  | .expr text => '{' :: (text.toList ++ ['}'])

-- Whether an embedded expression has a double quote in it.
def hasQuote : Segment String → Bool
  | .text _ => false
  | .expr text => text.toList.contains '"'

-- An interpolated string from texts and written expressions. Its quotes are single if a double one
-- stands in an expression.
def interpolatedText (segments : List (Segment String)) : String :=
  let quote := if segments.any hasQuote then '\'' else '"'
  String.ofList ('f' :: quote :: (segments.flatMap (segmentText quote) ++ [quote]))

-- The texts among some segments, joined, if there is nothing else.
def onlyText? : List (Segment String) → Option String
  | [] => some ""
  | .text value :: rest => (onlyText? rest).map (value ++ ·)
  | .expr _ :: _ => none

-- What a template is written as: a plain string if it has no expressions.
def templateText (segments : List (Segment String)) : String :=
  match onlyText? segments with
  | some text => quote text
  | none => interpolatedText segments

section Text

-- How the raw text of a template is written.
variable (template : String → String)

mutual

-- The text of an expression.
def writeExprWith : Expr → String
  | .binary op left right _ =>
      let leftText := writeExprWith left
      let rightText := writeExprWith right
      match op with
      | .power =>
          wrap Level.atom left leftText ++ " ** " ++ wrap Level.unary right rightText
      | op =>
          wrap (binaryLevel op) left leftText ++ " " ++ binarySymbol op ++ " " ++
            wrap (binaryLevel op + 1) right rightText
  | .unary .negate operand _ => "-" ++ wrap Level.unary operand (writeExprWith operand)
  | .unary .plus operand _ => "+" ++ wrap Level.unary operand (writeExprWith operand)
  | .unary .not operand _ =>
      let negation := fun (_ : Unit) =>
        "not " ++ wrap Level.negation operand (writeExprWith operand)
      match operand with
      | .call (.member container name _) [element] _ =>
          if name = "includes" then
            wrap (Level.comparison + 1) element (writeExprWith element) ++ " not in " ++
              wrap (Level.comparison + 1) container (writeExprWith container)
          else negation ()
      | _ => negation ()
  | .logical .and left right _ =>
      wrap Level.conjunction left (writeExprWith left) ++ " and " ++
        wrap (Level.conjunction + 1) right (writeExprWith right)
  | .logical .or left right _ =>
      wrap Level.disjunction left (writeExprWith left) ++ " or " ++
        wrap (Level.disjunction + 1) right (writeExprWith right)
  | .compare left comparisons _ =>
      wrap (Level.comparison + 1) left (writeExprWith left) ++
        String.join (writeLinksWith comparisons)
  | .conditional test consequent alternate _ =>
      wrap (Level.conditional + 1) consequent (writeExprWith consequent) ++ " if " ++
        wrap (Level.conditional + 1) test (writeExprWith test) ++ " else " ++
        wrap Level.conditional alternate (writeExprWith alternate)
  | .membership element container negated _ =>
      wrap (Level.comparison + 1) element (writeExprWith element) ++
        (if negated then " not in " else " in ") ++
        wrap (Level.comparison + 1) container (writeExprWith container)
  | .index object index _ =>
      wrap Level.atom object (writeExprWith object) ++ "[" ++ writeExprWith index ++ "]"
  | .slice object start stop step _ =>
      let bounds := wrap Level.atom object (writeExprWith object) ++ "[" ++
        writeOptionWith start ++ ":" ++ writeOptionWith stop
      match step with
      | none => bounds ++ "]"
      | some step => bounds ++ ":" ++ writeExprWith step ++ "]"
  | .member object name _ =>
      let objectText := writeExprWith object
      match object with
      | .super _ => "super()." ++ name
      | _ =>
          match name with
          | "length" => "len(" ++ objectText ++ ")"
          | "push" => wrap Level.atom object objectText ++ ".append"
          | name => wrap Level.atom object objectText ++ "." ++ name
  | .call callee args _ =>
      -- Only one of the texts below is written, so that no part is written twice.
      let bracket := fun (_ : Unit) => "(" ++ ", ".intercalate (writeExprsWith args) ++ ")"
      let called := fun (_ : Unit) => wrap Level.atom callee (writeExprWith callee) ++ bracket ()
      match callee with
      | .super _ => "super().__init__" ++ bracket ()
      | .member object name _ =>
          match name, args with
          | "includes", [element] =>
              wrap (Level.comparison + 1) element (writeExprWith element) ++ " in " ++
                wrap (Level.comparison + 1) object (writeExprWith object)
          | "at", [index] =>
              wrap Level.atom object (writeExprWith object) ++ "[" ++ writeExprWith index ++ "]"
          | "slice", [] => wrap Level.atom object (writeExprWith object) ++ "[:]"
          | "slice", [start] =>
              wrap Level.atom object (writeExprWith object) ++ "[" ++ writeExprWith start ++ ":]"
          | "slice", [start, stop] =>
              wrap Level.atom object (writeExprWith object) ++ "[" ++ writeExprWith start ++ ":" ++
                writeExprWith stop ++ "]"
          | "floor", [.binary .divide left right _] =>
              if object.var? = some "Math" then
                wrap Level.multiplicative left (writeExprWith left) ++ " // " ++
                  wrap (Level.multiplicative + 1) right (writeExprWith right)
              else called ()
          | "log", _ => if object.var? = some "console" then "print" ++ bracket () else called ()
          | _, _ => called ()
      | _ => called ()
  | .construct callee args _ =>
      wrap Level.atom callee (writeExprWith callee) ++ "(" ++
        ", ".intercalate (writeExprsWith args) ++ ")"
  | .list elements _ => "[" ++ ", ".intercalate (writeExprsWith elements) ++ "]"
  | .dict entries _ => "\x7b" ++ ", ".intercalate (writeEntriesWith entries) ++ "\x7d"
  | .interpolated segments _ => interpolatedText (writeSegmentsWith segments)
  | .template raw _ => template raw
  | .number literal _ => literal
  | .string value _ => quote value
  | .boolean value _ => if value then "True" else "False"
  | .null _ => "None"
  | .var name _ => name
  | .this _ => "self"
  | .super _ => "super()"

def writeExprsWith : List Expr → List String
  | [] => []
  | first :: rest => writeExprWith first :: writeExprsWith rest

def writeOptionWith : Option Expr → String
  | none => ""
  | some expr => writeExprWith expr

def writeLinksWith : List (Comparison Expr) → List String
  | [] => []
  | ⟨op, right⟩ :: rest =>
      (" " ++ compareSymbol op ++ " " ++
        wrap (Level.comparison + 1) right (writeExprWith right)) :: writeLinksWith rest

def writeEntriesWith : List (DictEntry Expr) → List String
  | [] => []
  | ⟨.literal text, value⟩ :: rest =>
      (quote text ++ ": " ++ writeExprWith value) :: writeEntriesWith rest
  | ⟨.number text, value⟩ :: rest => (text ++ ": " ++ writeExprWith value) :: writeEntriesWith rest
  | ⟨.computed key, value⟩ :: rest =>
      (writeExprWith key ++ ": " ++ writeExprWith value) :: writeEntriesWith rest

def writeSegmentsWith : List (Segment Expr) → List (Segment String)
  | [] => []
  | .text value :: rest => .text value :: writeSegmentsWith rest
  | .expr value :: rest => .expr (writeExprWith value) :: writeSegmentsWith rest

end

end Text

section Count

-- How many parts of a raw template cannot be read.
variable (template : String → Nat)

mutual

-- How many placeholders the text of an expression has: parts of templates that cannot be read.
def countExprWith : Expr → Nat
  | .binary _ left right _ => countExprWith left + countExprWith right
  | .unary _ operand _ => countExprWith operand
  | .logical _ left right _ => countExprWith left + countExprWith right
  | .compare left comparisons _ => countExprWith left + countLinksWith comparisons
  | .conditional test consequent alternate _ =>
      countExprWith test + countExprWith consequent + countExprWith alternate
  | .membership element container _ _ => countExprWith element + countExprWith container
  | .index object index _ => countExprWith object + countExprWith index
  | .slice object start stop step _ =>
      countExprWith object + countOptionWith start + countOptionWith stop + countOptionWith step
  | .member object _ _ => countExprWith object
  | .call callee args _ => countExprWith callee + countExprsWith args
  | .construct callee args _ => countExprWith callee + countExprsWith args
  | .list elements _ => countExprsWith elements
  | .dict entries _ => countEntriesWith entries
  | .interpolated segments _ => countSegmentsWith segments
  | .template raw _ => template raw
  | .number .. | .string .. | .boolean .. | .null .. | .var .. | .this .. | .super .. => 0

def countExprsWith : List Expr → Nat
  | [] => 0
  | first :: rest => countExprWith first + countExprsWith rest

def countOptionWith : Option Expr → Nat
  | none => 0
  | some expr => countExprWith expr

def countLinksWith : List (Comparison Expr) → Nat
  | [] => 0
  | ⟨_, right⟩ :: rest => countExprWith right + countLinksWith rest

def countEntriesWith : List (DictEntry Expr) → Nat
  | [] => 0
  | ⟨.literal _, value⟩ :: rest => countExprWith value + countEntriesWith rest
  | ⟨.number _, value⟩ :: rest => countExprWith value + countEntriesWith rest
  | ⟨.computed key, value⟩ :: rest =>
      countExprWith key + countExprWith value + countEntriesWith rest

def countSegmentsWith : List (Segment Expr) → Nat
  | [] => 0
  | .text _ :: rest => countSegmentsWith rest
  | .expr value :: rest => countExprWith value + countSegmentsWith rest

end

end Count

-- The text of a raw template of at most as many characters as the limit. The templates inside its
-- expressions have fewer.
def writeTemplateWithin : Nat → String → String
  | 0, raw => quote raw
  | limit + 1, raw =>
      templateText (writeSegmentsWith (writeTemplateWithin limit)
        (Braced.templateSegments raw.toList).1)

-- How many parts of such a template, and of the templates inside it, cannot be read.
def countTemplateWithin : Nat → String → Nat
  | 0, _ => 0
  | limit + 1, raw =>
      let (segments, unread) := Braced.templateSegments raw.toList
      unread + countSegmentsWith (countTemplateWithin limit) segments

-- The text of a raw template.
def writeTemplate (raw : String) : String := writeTemplateWithin raw.length raw

-- The text of an expression.
def writeExpr (expr : Expr) : String := writeExprWith writeTemplate expr

-- How many placeholders the text of an expression has.
def countExpr (expr : Expr) : Nat :=
  countExprWith (fun raw => countTemplateWithin raw.length raw) expr

-- An expression as a phrase, with words around it.
def exprPhrase (opening : String) (expr : Expr) (closing : String) : Phrase :=
  ⟨opening ++ writeExpr expr ++ closing, countExpr expr⟩

end Diglot.Indented
