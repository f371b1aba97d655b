import Diglot.Proofs.Braced.Written
import Diglot.Proofs.Indented.Written

namespace Diglot

open Diglot.Parser TokenStream
open Token (op word)
open Indented (binaryRank binarySymbol unaryToken)

namespace Expr

def isBinary : Expr → Bool
  | .binary .. => true
  | _ => false

def isAdditive : Expr → Bool
  | .binary op _ _ _ => [.add, .subtract].contains op
  | _ => false

def isMultiplicative : Expr → Bool
  | .binary op _ _ _ => [.multiply, .divide, .floorDivide, .modulo].contains op
  | _ => false

-- Whether an expression is names and numbers under signs and arithmetic operators, and says without
-- brackets what it is. Powers are grouped from the right, and all else from the left.
def isUnbracketed : Expr → Bool
  | .number .. | .var .. => true
  | .unary sign operand _ => sign != .not && !operand.isBinary && operand.isUnbracketed
  | .binary op left right _ =>
      (match op with
      | .power => !left.isBinary && !right.isAdditive && !right.isMultiplicative
      | .multiply | .divide | .floorDivide | .modulo =>
          !left.isAdditive && !right.isAdditive && !right.isMultiplicative
      | .add | .subtract => !right.isAdditive) && left.isUnbracketed && right.isUnbracketed
  | _ => false

-- The names, numbers and operators of an expression from left to right.
def inOrder : Expr → List Token
  | .number literal _ => [.number literal]
  | .var name _ => [word name]
  | .unary sign operand _ => unaryToken sign :: operand.inOrder
  | .binary op left right _ => left.inOrder ++ .op (binarySymbol op) :: right.inOrder
  | _ => []

end Expr

-- The arithmetic operators that a notation has.
def arithmeticOps : Dialect → List BinaryOp
  | .pythonScript => [.add, .subtract, .multiply, .divide, .floorDivide, .modulo, .power]
  | .javaScript => [.add, .subtract, .multiply, .divide, .modulo, .power]

namespace Token

def isOperand (token : Token) : Bool := token.kind == .number || token.kind == .identifier

def isSign (token : Token) : Bool := token.isOperator "+" || token.isOperator "-"

def isArithmetic (dialect : Dialect) (token : Token) : Bool :=
  (arithmeticOps dialect).any fun op => token.isOperator (binarySymbol op)

end Token

-- Whether tokens are operands with any number of signs in front of each and an arithmetic operator
-- between each two.
def isArithmeticRun (dialect : Dialect) : List Token → Bool
  | [] => false
  | [token] => token.isOperand
  | first :: second :: rest =>
      (first.isSign && isArithmeticRun dialect (second :: rest)) ||
        (first.isOperand && second.isArithmetic dialect && isArithmeticRun dialect rest)

-- The expression that a list of tokens starts with, and the stream behind it.
def leadingExpr (dialect : Dialect) (tokens : List Token) : Except Failure (Expr × TokenStream) :=
  match dialect with
  | .pythonScript =>
      Indented.expression (Indented.embeddedExpr (Indented.longestLexeme tokens))
        (withLayout tokens).size (withLayout tokens)
  | .javaScript => Braced.expression (plain tokens).size (plain tokens)

namespace Expr

section Ranks

-- The levels of the operands that need no brackets next to an operator.

def leftRank (op : BinaryOp) : Nat := if op = .power then 13 else binaryRank op

def rightRank (op : BinaryOp) : Nat := if op = .power then 12 else binaryRank op + 1

-- The level of an expression that stands without brackets.
def rank : Expr → Nat
  | .binary op _ _ _ => binaryRank op
  | .unary .. => 13
  | _ => 14

variable (e : Expr) {pos : Pos}

theorem ten_le_rank : 10 ≤ e.rank := by
  cases e with
  | binary op left right pos => cases op <;> simp [rank, binaryRank]
  | _ => simp [rank]

theorem isBinary_eq_false_iff : e.isBinary = false ↔ 13 ≤ e.rank := by
  cases e with
  | binary op left right pos => cases op <;> simp [isBinary, rank, binaryRank]
  | _ => simp [isBinary, rank]

theorem isAdditive_eq_false_iff : e.isAdditive = false ↔ 11 ≤ e.rank := by
  cases e with
  | binary op left right pos => cases op <;> simp [isAdditive, rank, binaryRank]
  | _ => simp [isAdditive, rank]

theorem isMultiplicative_eq_false_iff :
    e.isAdditive = false ∧ e.isMultiplicative = false ↔ 12 ≤ e.rank := by
  cases e with
  | binary op left right pos =>
      cases op <;> simp [isAdditive, isMultiplicative, rank, binaryRank]
  | _ => simp [isAdditive, isMultiplicative, rank]

variable {e}

theorem isUnbracketed_unary_iff {sign : UnaryOp} {operand : Expr} :
    (unary sign operand pos).isUnbracketed = true ↔
      sign ≠ .not ∧ 13 ≤ operand.rank ∧ operand.isUnbracketed = true := by
  simp [isUnbracketed, isBinary_eq_false_iff, and_assoc]

theorem isUnbracketed_binary_iff {op : BinaryOp} {left right : Expr} :
    (binary op left right pos).isUnbracketed = true ↔ leftRank op ≤ left.rank ∧
      rightRank op ≤ right.rank ∧ left.isUnbracketed = true ∧ right.isUnbracketed = true := by
  have hleft := left.ten_le_rank
  cases op with
  | add | subtract =>
      simp [isUnbracketed, leftRank, rightRank, binaryRank, isAdditive_eq_false_iff, and_assoc, hleft]
  | power =>
      simp [isUnbracketed, leftRank, rightRank, isBinary_eq_false_iff, and_assoc,
        ← isMultiplicative_eq_false_iff]
  | multiply | divide | floorDivide | modulo =>
      simp [isUnbracketed, leftRank, rightRank, binaryRank, isAdditive_eq_false_iff left, and_assoc,
        ← isMultiplicative_eq_false_iff]

end Ranks

section Places

variable (e : Expr)

theorem rank_placeless : e.placeless.rank = e.rank := by
  cases e <;> rfl

-- Places have no part in what stands where.
theorem shape_placeless :
    e.placeless.isUnbracketed = e.isUnbracketed ∧ e.placeless.inOrder = e.inOrder := by
  fun_induction inOrder e with
  | case1 | case2 => exact ⟨rfl, rfl⟩
  | case3 sign operand pos ih =>
      constructor
      · rw [Bool.eq_iff_iff, Expr.placeless, isUnbracketed_unary_iff, isUnbracketed_unary_iff,
          rank_placeless, ih.1]
      · rw [Expr.placeless, inOrder, ih.2]
  | case4 op left right pos ihleft ihright =>
      constructor
      · rw [Bool.eq_iff_iff, Expr.placeless, isUnbracketed_binary_iff, isUnbracketed_binary_iff,
          rank_placeless, rank_placeless, ihleft.1, ihright.1]
      · rw [Expr.placeless, inOrder, ihleft.2, ihright.2]
  | case5 e hnumber hvar hunary hbinary =>
      cases e with
      | number literal pos => exact absurd rfl (hnumber literal pos)
      | var name pos => exact absurd rfl (hvar name pos)
      | unary sign operand pos => exact absurd rfl (hunary sign operand pos)
      | binary op left right pos => exact absurd rfl (hbinary op left right pos)
      | _ => exact ⟨rfl, rfl⟩

theorem placeless_inOrder : Placed.placeless e.inOrder = e.inOrder := by
  fun_induction inOrder e with
  | case1 | case2 => rfl
  | case3 sign operand pos ih =>
      rw [placeless_cons, ih]
      cases sign <;> rfl
  | case4 op left right pos ihleft ihright =>
      rw [placeless_append, placeless_cons, ihleft, ihright]
      rfl
  | case5 e => rfl

end Places

end Expr

open Diglot.Expr (leftRank rightRank)

section Reading

-- The reader of a notation groups the operators of a list as their levels say.
structure ReadsArithmetic (f : FrontEnd) (ops : List BinaryOp) : Prop where
  name : ∀ name, Reads f 14 [word name] (.var name .start)
  number : ∀ literal, Reads f 14 [.number literal] (.number literal .start)
  signed : ∀ {sign rank tokens value}, sign ≠ .not → Reads f rank tokens value → 13 ≤ rank →
    Reads f 13 (unaryToken sign :: tokens) (.unary sign value .start)
  binary : ∀ {op first second leftmost rightmost left right}, op ∈ ops →
    Reads f leftmost left first → Reads f rightmost right second → leftRank op ≤ leftmost →
      rightRank op ≤ rightmost →
        Reads f (binaryRank op) (left ++ .op (binarySymbol op) :: right)
          (.binary op first second .start)

theorem Indented.readsArithmetic (embedded : List Char → Except Cause Expr) :
    ReadsArithmetic (frontEnd embedded) (arithmeticOps .pythonScript) where
  name := Reads.name
  number := Reads.number
  signed := Reads.signed
  binary {op} _ _ _ _ _ _ _ hleft hright hleftrank hrightrank := by
    by_cases hop : op = .power
    · subst hop
      exact Reads.power hleft hright hleftrank hrightrank
    · simp only [leftRank, rightRank, hop, if_false] at hleftrank hrightrank
      exact Reads.binary hop hleft hright hleftrank hrightrank

theorem Braced.readsArithmetic : ReadsArithmetic frontEnd (arithmeticOps .javaScript) where
  name := Reads.name
  number := Reads.number
  signed {sign} _ _ _ hsign h hrank := by
    cases sign with
    | not => contradiction
    | negate => exact Reads.prefixed .negate h hrank
    | plus => exact Reads.prefixed .plus h hrank
  binary {op} _ _ _ _ _ _ hmem hleft hright hleftrank hrightrank := by
    by_cases hop : op = .power
    · subst hop
      exact Reads.power hleft hright hleftrank hrightrank
    · simp only [leftRank, rightRank, hop, if_false] at hleftrank hrightrank
      have hsymbol : ∀ op ∈ arithmeticOps .javaScript, op ≠ .floorDivide ∧
          Braced.binarySymbol op = Indented.binarySymbol op ∧
            Braced.binaryRank op = Indented.binaryRank op := by decide
      obtain ⟨hfloor, hsymbol, hrank⟩ := hsymbol op hmem
      rw [← hrank] at hleftrank hrightrank ⊢
      rw [← hsymbol]
      exact Reads.binary (by simp [hop, hfloor]) hleft hright hleftrank hrightrank

variable {f : FrontEnd} {ops : List BinaryOp} {e : Expr}

theorem ReadsArithmetic.inOrder (hf : ReadsArithmetic f ops) (h : e.isUnbracketed = true)
    (hops : ∀ op, Token.op (binarySymbol op) ∈ e.inOrder → op ∈ ops) :
    ∃ value, placeless value = placeless e ∧ Reads f e.rank e.inOrder value := by
  fun_induction Expr.inOrder e with
  | case1 literal pos => exact ⟨.number literal .start, rfl, hf.number literal⟩
  | case2 name pos => exact ⟨.var name .start, rfl, hf.name name⟩
  | case3 sign operand pos ih =>
      obtain ⟨hsign, hrank, hoperand⟩ := Expr.isUnbracketed_unary_iff.mp h
      obtain ⟨value, hvalue, hreads⟩ := ih hoperand fun op hop => hops op (.tail _ hop)
      refine ⟨.unary sign value .start, ?_, hf.signed hsign hreads hrank⟩
      simp only [placeless_expr] at hvalue
      simp [placeless_expr, Expr.placeless, hvalue]
  | case4 op left right pos ihleft ihright =>
      obtain ⟨hleftrank, hrightrank, hleft, hright⟩ := Expr.isUnbracketed_binary_iff.mp h
      obtain ⟨first, hfirst, hreadsleft⟩ := ihleft hleft fun op hop => hops op (by simp [hop])
      obtain ⟨second, hsecond, hreadsright⟩ := ihright hright fun op hop => hops op (by simp [hop])
      refine ⟨.binary op first second .start, ?_,
        hf.binary (hops op (by simp)) hreadsleft hreadsright hleftrank hrightrank⟩
      simp only [placeless_expr] at hfirst hsecond
      simp [placeless_expr, Expr.placeless, hfirst, hsecond]
  | case5 e hnumber hvar hunary hbinary =>
      rw [Expr.isUnbracketed] at h
      · contradiction
      all_goals assumption

end Reading

section Streams

variable {dialect : Dialect} {tokens ending : List Token} {e : Expr} {token : Token}
  {lexeme : String}

theorem isArithmeticRun_induct {P : List Token → Prop}
    (operand : ∀ token, token.isOperand = true → P [token])
    (signed : ∀ sign rest, sign.isSign = true → P rest → P (sign :: rest))
    (joined : ∀ operand operator rest, operand.isOperand = true →
      operator.isArithmetic dialect = true → P rest → P (operand :: operator :: rest))
    (h : isArithmeticRun dialect tokens = true) : P tokens := by
  fun_induction isArithmeticRun dialect tokens with
  | case1 => contradiction
  | case2 token => exact operand token h
  | case3 first second rest ihsigned ihjoined =>
      simp only [Bool.or_eq_true, Bool.and_eq_true] at h
      rcases h with ⟨hsign, hrest⟩ | ⟨⟨hoperand, hoperator⟩, hrest⟩
      · exact signed first _ hsign (ihsigned hrest)
      · exact joined first second rest hoperand hoperator (ihjoined hrest)

theorem Token.exists_of_isOperand (h : token.isOperand = true) :
    ∃ e : Expr, e.isUnbracketed = true ∧ e.rank = 14 ∧ e.inOrder = [placeless token] := by
  obtain ⟨kind, lexeme, pos⟩ := token
  simp only [isOperand, Bool.or_eq_true, beq_iff_eq] at h
  rcases h with rfl | rfl
  · exact ⟨.number lexeme .start, rfl, rfl, rfl⟩
  · exact ⟨.var lexeme .start, rfl, rfl, rfl⟩

theorem Token.ne_of_isOperand (h : token.isOperand = true) : op lexeme ≠ placeless token := by
  intro hsame
  have hkind := congrArg Token.kind hsame
  obtain ⟨kind, found, pos⟩ := token
  obtain rfl : TokenKind.operator = kind := hkind
  contradiction

theorem Token.placeless_of_isOperator (h : token.isOperator lexeme = true) :
    placeless token = .op lexeme := by
  obtain ⟨kind, found, pos⟩ := token
  simp only [isOperator, is, Bool.and_eq_true, beq_iff_eq] at h
  rw [placeless_token, h.1, h.2]
  rfl

theorem Token.exists_of_isSign (h : token.isSign = true) :
    ∃ sign, sign ≠ .not ∧ placeless token = unaryToken sign := by
  simp only [isSign, Bool.or_eq_true] at h
  rcases h with h | h
  · exact ⟨.plus, by simp, placeless_of_isOperator h⟩
  · exact ⟨.negate, by simp, placeless_of_isOperator h⟩

-- The signs are written as the operators of sums are.
theorem Token.isArithmetic_of_isSign (h : token.isSign = true) :
    token.isArithmetic dialect = true := by
  simp only [isSign, Bool.or_eq_true] at h
  have hsums : .add ∈ arithmeticOps dialect ∧ .subtract ∈ arithmeticOps dialect := by
    cases dialect <;> decide
  rcases h with h | h
  · exact List.any_eq_true.mpr ⟨.add, hsums.1, h⟩
  · exact List.any_eq_true.mpr ⟨.subtract, hsums.2, h⟩

theorem binarySymbol_injective {a b : BinaryOp} (h : binarySymbol a = binarySymbol b) : a = b := by
  revert h
  cases a <;> cases b <;> decide

theorem Token.exists_of_isArithmetic (h : token.isArithmetic dialect = true) :
    ∃ op ∈ arithmeticOps dialect, placeless token = .op (binarySymbol op) := by
  obtain ⟨op, hmem, hop⟩ := List.any_eq_true.mp h
  exact ⟨op, hmem, placeless_of_isOperator hop⟩

theorem Token.mem_arithmeticOps (h : token.isArithmetic dialect = true) {found : BinaryOp}
    (hfound : op (binarySymbol found) = placeless token) : found ∈ arithmeticOps dialect := by
  obtain ⟨other, hmem, hother⟩ := exists_of_isArithmetic h
  have hsymbol : binarySymbol found = binarySymbol other := congrArg lexeme (hfound.trans hother)
  rwa [binarySymbol_injective hsymbol]

-- A run has the operators of its notation only.
theorem mem_arithmeticOps (h : isArithmeticRun dialect tokens = true) (op : BinaryOp)
    (hmem : Token.op (binarySymbol op) ∈ placeless tokens) : op ∈ arithmeticOps dialect := by
  refine isArithmeticRun_induct
    (P := fun tokens => Token.op (binarySymbol op) ∈ placeless tokens → op ∈ arithmeticOps dialect)
    ?_ ?_ ?_ h hmem
  · intro operand hoperand hmem
    exact absurd (List.mem_singleton.mp hmem) (Token.ne_of_isOperand hoperand)
  · intro sign rest hsign ih hmem
    exact (List.mem_cons.mp hmem).elim (Token.mem_arithmeticOps (Token.isArithmetic_of_isSign hsign)) ih
  · intro operand operator rest hoperand hoperator ih hmem
    rw [placeless_cons, placeless_cons, List.mem_cons, List.mem_cons] at hmem
    rcases hmem with hfirst | hsecond | hrest
    · exact absurd hfirst (Token.ne_of_isOperand hoperand)
    · exact Token.mem_arithmeticOps hoperator hsecond
    · exact ih hrest

end Streams

section Building

variable {dialect : Dialect} {tokens : List Token} {e : Expr}

-- Changes what stands at the left end of an expression, below the operators that are looser than a
-- level.
def Expr.atLeft (limit : Nat) (f : Expr → Expr) : Expr → Expr
  | .binary op left right pos =>
      if binaryRank op < limit then .binary op (left.atLeft limit f) right pos
      else f (.binary op left right pos)
  | e => f e

variable {limit : Nat} {f : Expr → Expr}

theorem Expr.inOrder_atLeft (front : List Token)
    (hf : ∀ e : Expr, (f e).inOrder = front ++ e.inOrder) (e : Expr) :
    (e.atLeft limit f).inOrder = front ++ e.inOrder := by
  fun_induction atLeft limit f e with
  | case1 op left right pos hop ih => rw [inOrder, inOrder, ih, List.append_assoc]
  | case2 op left right pos hop => exact hf _
  | case3 e => exact hf e

-- The operators above it still stand over an operand that needs no brackets.
theorem Expr.isUnbracketed_atLeft (bound : Nat) (hlimit : limit ≤ 13)
    (hbound : ∀ op, binaryRank op < limit → leftRank op ≤ bound)
    (hf : ∀ e : Expr, e.isUnbracketed = true → limit ≤ e.rank →
      (f e).isUnbracketed = true ∧ bound ≤ (f e).rank) (h : e.isUnbracketed = true) :
    (e.atLeft limit f).isUnbracketed = true ∧
      (e.rank ≤ (e.atLeft limit f).rank ∨ bound ≤ (e.atLeft limit f).rank) := by
  fun_induction atLeft limit f e with
  | case1 op left right pos hop ih =>
      obtain ⟨hleftrank, hrightrank, hleft, hright⟩ := isUnbracketed_binary_iff.mp h
      obtain ⟨hbelow, hrank⟩ := ih hleft
      have hfits : leftRank op ≤ (left.atLeft limit f).rank := by
        have := hbound op hop
        omega
      exact ⟨isUnbracketed_binary_iff.mpr ⟨hfits, hrightrank, hbelow, hright⟩, .inl (Nat.le_refl _)⟩
  | case2 op left right pos hop =>
      exact (hf _ h (Nat.le_of_not_lt hop)).imp_right .inr
  | case3 e hbinary =>
      have hrank : 13 ≤ e.rank := by
        rw [← isBinary_eq_false_iff, isBinary]
        exact hbinary
      exact (hf e h (Nat.le_trans hlimit hrank)).imp_right .inr

theorem exists_unbracketed (h : isArithmeticRun dialect tokens = true) :
    ∃ e : Expr, e.isUnbracketed = true ∧ e.inOrder = placeless tokens := by
  refine isArithmeticRun_induct
    (P := fun tokens => ∃ e : Expr, e.isUnbracketed = true ∧ e.inOrder = placeless tokens) ?_ ?_ ?_ h
  · intro token hoperand
    obtain ⟨e, he, -, hinOrder⟩ := Token.exists_of_isOperand hoperand
    exact ⟨e, he, hinOrder⟩
  · rintro token rest hsign ⟨e, he, hinOrder⟩
    obtain ⟨sign, hnot, hsame⟩ := Token.exists_of_isSign hsign
    refine ⟨e.atLeft 13 (.unary sign · .start), ?_, ?_⟩
    · refine (Expr.isUnbracketed_atLeft 13 (Nat.le_refl 13) ?_ ?_ he).1
      · intro op _
        cases op <;> decide
      · intro e he hrank
        exact ⟨Expr.isUnbracketed_unary_iff.mpr ⟨hnot, hrank, he⟩, Nat.le_refl 13⟩
    · rw [Expr.inOrder_atLeft [unaryToken sign] (fun _ => rfl), hinOrder, placeless_cons, hsame]
      rfl
  · rintro operand operator rest hoperand hoperator ⟨e, he, hinOrder⟩
    obtain ⟨first, hfirst, hrank, hsame⟩ := Token.exists_of_isOperand hoperand
    obtain ⟨op, -, hop⟩ := Token.exists_of_isArithmetic hoperator
    refine ⟨e.atLeft (rightRank op) (.binary op first · .start), ?_, ?_⟩
    · refine (Expr.isUnbracketed_atLeft (binaryRank op) ?_ ?_ ?_ he).1
      · cases op <;> decide
      · intro above hlooser
        revert hlooser
        cases op <;> cases above <;> decide
      · intro e he hright
        have hleft : leftRank op ≤ first.rank := by
          rw [hrank]
          cases op <;> decide
        exact ⟨Expr.isUnbracketed_binary_iff.mpr ⟨hleft, hright, hfirst, he⟩, Nat.le_refl _⟩
    · have hfront : ∀ e : Expr, (Expr.binary op first e .start).inOrder =
          [placeless operand, placeless operator] ++ e.inOrder := by
        intro e
        rw [Expr.inOrder, hsame, hop]
        rfl
      rw [Expr.inOrder_atLeft _ hfront, hinOrder]
      rfl

end Building

section Streams

variable {dialect : Dialect} {tokens ending : List Token} {e : Expr}

-- A list of tokens that does not end is read as if it did.
theorem ofTokens_append_endOf (hlast : tokens.getLast?.map (·.kind) ≠ some .eof)
    (blocks : Option (List Nat)) (hne : tokens ≠ []) :
    ofTokens (tokens ++ [endOf tokens]) blocks = ofTokens tokens blocks := by
  cases tokens with
  | nil => contradiction
  | cons first rest =>
      have hended : ((first :: rest ++ [endOf (first :: rest)]).getLast?.map (·.kind)) = some .eof := by
        rw [List.getLast?_concat]
        rfl
      rw [List.cons_append] at hended ⊢
      simp only [ofTokens, hended, beq_self_eq_true, if_true, beq_eq_false_iff_ne.mpr hlast]
      rfl

theorem isArithmeticRun_unended (h : isArithmeticRun dialect tokens = true) :
    tokens ≠ [] ∧ tokens.getLast?.map (·.kind) ≠ some .eof := by
  have hlonger : ∀ (first : Token) {rest : List Token}, rest ≠ [] →
      (first :: rest).getLast? = rest.getLast? := by
    intro first rest hrest
    rw [List.getLast?_cons, List.getLast?_eq_some_getLast hrest, Option.getD_some]
  refine isArithmeticRun_induct
    (P := fun tokens => tokens ≠ [] ∧ tokens.getLast?.map (·.kind) ≠ some .eof) ?_ ?_ ?_ h
  · intro token hoperand
    refine ⟨List.cons_ne_nil _ _, fun hend => ?_⟩
    have hkind : token.kind = .eof := Option.some.inj hend
    simp [Token.isOperand, hkind] at hoperand
  · rintro sign rest - ⟨hne, hlast⟩
    exact ⟨List.cons_ne_nil _ _, by rwa [hlonger sign hne]⟩
  · rintro operand operator rest - - ⟨hne, hlast⟩
    refine ⟨List.cons_ne_nil _ _, ?_⟩
    rwa [hlonger operand (List.cons_ne_nil _ _), hlonger operator hne]

-- An expression that needs no brackets is read from its operands and operators.
theorem leadingExpr_of_inOrder (h : isArithmeticRun dialect tokens = true)
    (hending : ending = [] ∨ ∃ pos, ending = [⟨.eof, "", pos⟩]) (he : e.isUnbracketed = true)
    (hinOrder : e.inOrder = placeless tokens) :
    ∃ found rest, leadingExpr dialect (tokens ++ ending) = .ok (found, rest) ∧
      rest.isAtEnd = true ∧ placeless found = placeless e := by
  obtain ⟨ended, hended, hstream⟩ : ∃ ended, placeless ended = placeless (e.inOrder ++ [.ending]) ∧
      ∀ blocks, ofTokens (tokens ++ ending) blocks = ofTokens ended blocks := by
    rcases hending with rfl | ⟨pos, rfl⟩
    · obtain ⟨hne, hlast⟩ := isArithmeticRun_unended h
      refine ⟨tokens ++ [endOf tokens], ?_, fun blocks => ?_⟩
      · rw [placeless_append, placeless_append, e.placeless_inOrder, hinOrder]
        rfl
      · rw [List.append_nil, ofTokens_append_endOf hlast blocks hne]
    · refine ⟨_, ?_, fun _ => rfl⟩
      rw [placeless_append, placeless_append, e.placeless_inOrder, hinOrder]
      rfl
  have hops : ∀ op, Token.op (binarySymbol op) ∈ e.inOrder → op ∈ arithmeticOps dialect := by
    rw [hinOrder]
    exact mem_arithmeticOps h
  cases dialect with
  | pythonScript =>
      obtain ⟨value, hvalue, hreads⟩ := (Indented.readsArithmetic
        (Indented.embeddedExpr (Indented.longestLexeme (tokens ++ ending)))).inOrder he hops
      have hwhole := (hreads.whole (Nat.le_succ _)).reads [] (some []) Nat.zero_lt_one
      rw [List.append_nil] at hwhole
      obtain ⟨found, rest, hread, hend, hfound⟩ :=
        whole_of_blind hended (fun limit => Indented.expression_blind _ limit) hwhole
      refine ⟨found, rest, ?_, hend, hfound.trans hvalue⟩
      simp only [leadingExpr, withLayout, hstream]
      exact hread
  | javaScript =>
      obtain ⟨value, hvalue, hreads⟩ := Braced.readsArithmetic.inOrder he hops
      have hwhole := (hreads.whole (Nat.le_succ _)).reads [] none (by decide)
      rw [List.append_nil] at hwhole
      obtain ⟨found, rest, hread, hend, hfound⟩ :=
        whole_of_blind hended Braced.expression_blind hwhole
      refine ⟨found, rest, ?_, hend, hfound.trans hvalue⟩
      simp only [leadingExpr, plain, hstream]
      exact hread

-- Operands, signs and operators without brackets are read to their end, in order, and are grouped in
-- the one way in which no operand needs brackets.
theorem leadingExpr_arithmeticRun (h : isArithmeticRun dialect tokens = true)
    (hending : ending = [] ∨ ∃ pos, ending = [⟨.eof, "", pos⟩]) :
    ∃ found rest, leadingExpr dialect (tokens ++ ending) = .ok (found, rest) ∧
      rest.isAtEnd = true ∧ found.inOrder = placeless tokens ∧ found.isUnbracketed = true ∧
      ∀ other : Expr, other.isUnbracketed = true → other.inOrder = placeless tokens →
        placeless other = placeless found := by
  obtain ⟨e, he, hinOrder⟩ := exists_unbracketed h
  obtain ⟨found, rest, hread, hend, hfound⟩ := leadingExpr_of_inOrder h hending he hinOrder
  have hshape := e.shape_placeless
  rw [← placeless_expr, ← hfound, placeless_expr, found.shape_placeless.1,
    found.shape_placeless.2] at hshape
  refine ⟨found, rest, hread, hend, hshape.2.trans hinOrder, hshape.1.trans he, ?_⟩
  intro other hother hsame
  obtain ⟨found', rest', hread', -, hfound'⟩ := leadingExpr_of_inOrder h hending hother hsame
  rw [hread] at hread'
  cases hread'
  exact hfound'.symm

-- `-a ** -b ** c - d // e * 2 - f`.
theorem leadingExpr_arithmeticRun_towers :
    ∃ found rest,
      leadingExpr .pythonScript [op "-", word "a", op "**", op "-", word "b", op "**", word "c", op "-",
        word "d", op "//", word "e", op "*", .number "2", op "-", word "f"] = .ok (found, rest) ∧
      rest.isAtEnd = true ∧
      placeless
          (Expr.binary .subtract
            (.binary .subtract
              (.binary .power (.unary .negate (.var "a" .start) .start)
                (.binary .power (.unary .negate (.var "b" .start) .start) (.var "c" .start) .start)
                .start)
              (.binary .multiply (.binary .floorDivide (.var "d" .start) (.var "e" .start) .start)
                (.number "2" .start) .start)
              .start)
            (.var "f" .start) .start) =
        placeless found := by
  have hrun : isArithmeticRun .pythonScript [op "-", word "a", op "**", op "-", word "b", op "**",
      word "c", op "-", word "d", op "//", word "e", op "*", .number "2", op "-", word "f"] = true := by
    decide
  obtain ⟨found, rest, hread, hend, -, -, hunique⟩ := leadingExpr_arithmeticRun hrun (.inl rfl)
  exact ⟨found, rest, hread, hend, hunique _ (by decide) rfl⟩

end Streams

end Diglot
