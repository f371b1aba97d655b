import Diglot.Transpile

namespace Diglot

-- Things that hold places. Without its places, a thing has the start of the text at each of them,
-- so that two things are equal up to places if they are equal without.
class Placed (α : Type) where
  placeless : α → α

export Placed (placeless)

instance : Placed Pos := ⟨fun _ => .start⟩
instance : Placed Unit := ⟨id⟩
instance : Placed Bool := ⟨id⟩
instance : Placed String := ⟨id⟩
instance : Placed BinaryOp := ⟨id⟩
instance : Placed UnaryOp := ⟨id⟩
instance : Placed BoolOp := ⟨id⟩
instance : Placed CompareOp := ⟨id⟩
instance : Placed ImportedName := ⟨id⟩
instance : Placed ImportKind := ⟨id⟩
instance : Placed Declaration := ⟨id⟩
instance : Placed Token := ⟨fun token => { token with pos := .start }⟩
instance : Placed Failure := ⟨fun failure => { failure with pos := .start }⟩

section Containers

variable {α β : Type} [Placed α] [Placed β]

instance : Placed (List α) := ⟨List.map placeless⟩
instance : Placed (Option α) := ⟨Option.map placeless⟩
instance : Placed (α × β) := ⟨fun (a, b) => (placeless a, placeless b)⟩

instance : Placed (Except Failure α) where
  placeless
    | .ok value => .ok (placeless value)
    | .error failure => .error (placeless failure)

@[simp]
theorem placeless_nil : placeless ([] : List α) = [] := rfl

@[simp]
theorem placeless_cons (a : α) (l : List α) : placeless (a :: l) = placeless a :: placeless l := rfl

@[simp]
theorem placeless_append (l m : List α) : placeless (l ++ m) = placeless l ++ placeless m :=
  List.map_append

@[simp]
theorem length_placeless (l : List α) : (placeless l).length = l.length := List.length_map _

theorem placeless_replicate (n : Nat) (a : α) :
    placeless (List.replicate n a) = List.replicate n (placeless a) :=
  List.map_replicate

theorem placeless_map_congr {γ : Type} {f g : γ → α} {l : List γ}
    (h : ∀ a ∈ l, placeless (f a) = placeless (g a)) : placeless (l.map f) = placeless (l.map g) := by
  induction l with
  | nil => rfl
  | cons first rest ih =>
      obtain ⟨hfirst, hrest⟩ := List.forall_mem_cons.mp h
      rw [List.map_cons, List.map_cons, placeless_cons, placeless_cons, hfirst, ih hrest]

-- Changing the places of the items of a list changes places only.
theorem placeless_map_eq {f : α → α} {l : List α} (h : ∀ a ∈ l, placeless (f a) = placeless a) :
    placeless (l.map f) = placeless l := by
  rw [placeless_map_congr h, List.map_id']

@[simp]
theorem placeless_none : placeless (none : Option α) = none := rfl

@[simp]
theorem placeless_some (a : α) : placeless (some a) = some (placeless a) := rfl

@[simp]
theorem placeless_mk (a : α) (b : β) : placeless (a, b) = (placeless a, placeless b) := rfl

-- A container of things without places has none either.
theorem placeless_list_eq_self (h : ∀ a : α, placeless a = a) (l : List α) : placeless l = l := by
  rw [show (placeless : List α → List α) = List.map placeless from rfl, funext h, List.map_id']

theorem placeless_option_eq_self (h : ∀ a : α, placeless a = a) (o : Option α) :
    placeless o = o := by
  cases o with
  | none => rfl
  | some a => simp [h]

@[simp]
theorem placeless_ok (a : α) :
    placeless (.ok a : Except Failure α) = .ok (placeless a) := rfl

@[simp]
theorem placeless_error (failure : Failure) :
    placeless (.error failure : Except Failure α) = .error (placeless failure) := rfl

end Containers

@[simp]
theorem placeless_pos (pos : Pos) : placeless pos = .start := rfl

@[simp]
theorem placeless_bool (b : Bool) : placeless b = b := rfl

@[simp]
theorem placeless_string (text : String) : placeless text = text := rfl

@[simp]
theorem placeless_token (kind : TokenKind) (lexeme : String) (pos : Pos) :
    placeless (⟨kind, lexeme, pos⟩ : Token) = ⟨kind, lexeme, .start⟩ := rfl

@[simp]
theorem placeless_failure (cause : Cause) (pos : Pos) :
    placeless (⟨cause, pos⟩ : Failure) = ⟨cause, .start⟩ := rfl

theorem placeless_placeless_tokens (tokens : List Token) :
    placeless (placeless tokens) = placeless tokens := by
  simp [Placed.placeless]

theorem placeless_token_eq_iff {a b : Token} :
    placeless a = placeless b ↔ a.kind = b.kind ∧ a.lexeme = b.lexeme := by
  cases a
  cases b
  simp

mutual

-- An expression without its places.
def Expr.placeless : Expr → Expr
  | .binary op left right _ => .binary op left.placeless right.placeless .start
  | .unary op operand _ => .unary op operand.placeless .start
  | .logical op left right _ => .logical op left.placeless right.placeless .start
  | .compare left comparisons _ => .compare left.placeless (linksPlaceless comparisons) .start
  | .conditional test consequent alternate _ =>
      .conditional test.placeless consequent.placeless alternate.placeless .start
  | .membership element container negated _ =>
      .membership element.placeless container.placeless negated .start
  | .index object index _ => .index object.placeless index.placeless .start
  | .slice object start stop step _ =>
      .slice object.placeless (optionPlaceless start) (optionPlaceless stop)
        (optionPlaceless step) .start
  | .member object name _ => .member object.placeless name .start
  | .call callee args _ => .call callee.placeless (exprsPlaceless args) .start
  | .construct callee args _ => .construct callee.placeless (exprsPlaceless args) .start
  | .list elements _ => .list (exprsPlaceless elements) .start
  | .dict entries _ => .dict (entriesPlaceless entries) .start
  | .interpolated segments _ => .interpolated (segmentsPlaceless segments) .start
  | .template raw _ => .template raw .start
  | .number literal _ => .number literal .start
  | .string value _ => .string value .start
  | .boolean value _ => .boolean value .start
  | .null _ => .null .start
  | .var name _ => .var name .start
  | .this _ => .this .start
  | .super _ => .super .start

def exprsPlaceless : List Expr → List Expr
  | [] => []
  | first :: rest => first.placeless :: exprsPlaceless rest

def optionPlaceless : Option Expr → Option Expr
  | none => none
  | some expr => some expr.placeless

def linksPlaceless : List (Comparison Expr) → List (Comparison Expr)
  | [] => []
  | ⟨op, right⟩ :: rest => ⟨op, right.placeless⟩ :: linksPlaceless rest

def entriesPlaceless : List (DictEntry Expr) → List (DictEntry Expr)
  | [] => []
  | ⟨.literal text, value⟩ :: rest => ⟨.literal text, value.placeless⟩ :: entriesPlaceless rest
  | ⟨.number text, value⟩ :: rest => ⟨.number text, value.placeless⟩ :: entriesPlaceless rest
  | ⟨.computed key, value⟩ :: rest =>
      ⟨.computed key.placeless, value.placeless⟩ :: entriesPlaceless rest

def segmentsPlaceless : List (Segment Expr) → List (Segment Expr)
  | [] => []
  | .text value :: rest => .text value :: segmentsPlaceless rest
  | .expr value :: rest => .expr value.placeless :: segmentsPlaceless rest

end

instance : Placed Expr := ⟨Expr.placeless⟩

instance : Placed (Comparison Expr) := ⟨fun link => ⟨link.op, placeless link.right⟩⟩

instance : Placed (DictKey Expr) where
  placeless
    | .literal text => .literal text
    | .number text => .number text
    | .computed key => .computed (placeless key)

instance : Placed (DictEntry Expr) := ⟨fun entry => ⟨placeless entry.key, placeless entry.value⟩⟩

instance : Placed (Segment Expr) where
  placeless
    | .text value => .text value
    | .expr value => .expr (placeless value)

theorem placeless_expr (e : Expr) : placeless e = e.placeless := rfl

@[simp]
theorem placeless_entry (key : DictKey Expr) (value : Expr) :
    placeless (⟨key, value⟩ : DictEntry Expr) = ⟨placeless key, placeless value⟩ := rfl

theorem exprsPlaceless_eq (exprs : List Expr) : exprsPlaceless exprs = placeless exprs := by
  induction exprs with
  | nil => rfl
  | cons first rest ih => rw [exprsPlaceless, ih, placeless_cons, placeless_expr]

theorem optionPlaceless_eq (expr : Option Expr) : optionPlaceless expr = placeless expr := by
  cases expr with
  | none => rfl
  | some expr => rfl

theorem linksPlaceless_eq (links : List (Comparison Expr)) :
    linksPlaceless links = placeless links := by
  induction links with
  | nil => rfl
  | cons first rest ih =>
      obtain ⟨op, right⟩ := first
      rw [linksPlaceless, ih, placeless_cons]
      rfl

theorem entriesPlaceless_eq (entries : List (DictEntry Expr)) :
    entriesPlaceless entries = placeless entries := by
  induction entries with
  | nil => rfl
  | cons first rest ih =>
      obtain ⟨key, value⟩ := first
      cases key <;> rw [entriesPlaceless, ih, placeless_cons] <;> rfl

instance : Placed Parameter where
  placeless param := ⟨param.name, param.kind, placeless param.default, .start⟩

instance : Placed Iteration where
  placeless
    | .range start stop step => .range (placeless start) (placeless stop) (placeless step)
    | .each iterable => .each (placeless iterable)

theorem placeless_param (name : String) (kind : ParameterKind) (default : Option Expr) (pos : Pos) :
    placeless (⟨name, kind, default, pos⟩ : Parameter) =
      ⟨name, kind, placeless default, .start⟩ := rfl

mutual

-- A statement without its places.
def Stmt.placeless : Stmt → Stmt
  | .imports module kind _ => .imports module kind .start
  | .classDef name base body _ => .classDef name base (stmtsPlaceless body) .start
  | .functionDef name params body _ =>
      .functionDef name (Placed.placeless params) (stmtsPlaceless body) .start
  | .ifElse condition body elifs orElse _ =>
      .ifElse condition.placeless (stmtsPlaceless body) (elifsPlaceless elifs)
        (bodyPlaceless orElse) .start
  | .forIn target iteration body _ =>
      .forIn target (Placed.placeless iteration) (stmtsPlaceless body) .start
  | .forClauses init test update body _ =>
      .forClauses (clausePlaceless init) (Placed.placeless test) (clausePlaceless update)
        (stmtsPlaceless body) .start
  | .whileDo condition body _ => .whileDo condition.placeless (stmtsPlaceless body) .start
  | .tryCatch body handler cleanup _ =>
      .tryCatch (stmtsPlaceless body) (handlerPlaceless handler) (bodyPlaceless cleanup) .start
  | .returns value _ => .returns (Placed.placeless value) .start
  | .assign targets value declaration _ =>
      .assign (Placed.placeless targets) (Placed.placeless value) declaration .start
  | .augAssign target op value _ => .augAssign target.placeless op value.placeless .start
  | .print args _ => .print (Placed.placeless args) .start
  | .expr value _ => .expr value.placeless .start
  | .pass _ => .pass .start
  | .breaks _ => .breaks .start
  | .continues _ => .continues .start

def stmtsPlaceless : List Stmt → List Stmt
  | [] => []
  | first :: rest => first.placeless :: stmtsPlaceless rest

def bodyPlaceless : Option (List Stmt) → Option (List Stmt)
  | none => none
  | some body => some (stmtsPlaceless body)

def clausePlaceless : Option Stmt → Option Stmt
  | none => none
  | some stmt => some stmt.placeless

def elifsPlaceless : List (ElifClause Stmt) → List (ElifClause Stmt)
  | [] => []
  | ⟨condition, body, _⟩ :: rest =>
      ⟨condition.placeless, stmtsPlaceless body, .start⟩ :: elifsPlaceless rest

def handlerPlaceless : Option (Handler Stmt) → Option (Handler Stmt)
  | none => none
  | some ⟨name, body, _⟩ => some ⟨name, stmtsPlaceless body, .start⟩

end

instance : Placed Stmt := ⟨Stmt.placeless⟩

instance : Placed (ElifClause Stmt) where
  placeless clause := ⟨placeless clause.condition, placeless clause.body, .start⟩

instance : Placed (Handler Stmt) where
  placeless handler := ⟨handler.name, placeless handler.body, .start⟩

instance : Placed Module := ⟨fun module => ⟨placeless module.body, .start⟩⟩

theorem placeless_stmt (stmt : Stmt) : placeless stmt = stmt.placeless := rfl

theorem placeless_module (body : List Stmt) (pos : Pos) :
    placeless (⟨body, pos⟩ : Module) = ⟨placeless body, .start⟩ := rfl

theorem stmtsPlaceless_eq (body : List Stmt) : stmtsPlaceless body = placeless body := by
  induction body with
  | nil => rfl
  | cons first rest ih => rw [stmtsPlaceless, ih, placeless_cons, placeless_stmt]

theorem bodyPlaceless_eq (body : Option (List Stmt)) : bodyPlaceless body = placeless body := by
  cases body with
  | none => rfl
  | some body => rw [bodyPlaceless, stmtsPlaceless_eq, placeless_some]

theorem clausePlaceless_eq (clause : Option Stmt) : clausePlaceless clause = placeless clause := by
  cases clause with
  | none => rfl
  | some stmt => rfl

theorem elifsPlaceless_eq (elifs : List (ElifClause Stmt)) :
    elifsPlaceless elifs = placeless elifs := by
  induction elifs with
  | nil => rfl
  | cons first rest ih =>
      obtain ⟨condition, body, pos⟩ := first
      rw [elifsPlaceless, ih, stmtsPlaceless_eq, placeless_cons]
      rfl

theorem handlerPlaceless_eq (handler : Option (Handler Stmt)) :
    handlerPlaceless handler = placeless handler := by
  cases handler with
  | none => rfl
  | some handler =>
      obtain ⟨name, body, pos⟩ := handler
      rw [handlerPlaceless, stmtsPlaceless_eq, placeless_some]
      rfl

instance : Placed TokenStream where
  placeless stream := ⟨placeless stream.current, placeless stream.upcoming, stream.blocks⟩

theorem placeless_stream_eq_iff {s t : TokenStream} :
    placeless s = placeless t ↔ placeless s.current = placeless t.current ∧
      placeless s.upcoming = placeless t.upcoming ∧ s.blocks = t.blocks := by
  cases s
  cases t
  exact TokenStream.mk.injEq .. ▸ Iff.rfl

end Diglot
