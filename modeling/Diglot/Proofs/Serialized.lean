import Diglot.Proofs.Loosened
import Diglot.Proofs.Shapes

namespace Diglot

open Json

-- Whether line and column of a place have at most 32 bits.
def Pos.fits (pos : Pos) : Bool := pos.line < 4294967296 && pos.column < 4294967296

theorem Json.Near.pos {pos : Pos} {limit : Nat} {loose : Json} (h : Near limit pos.toJson loose)
    (hpos : pos.fits = true) : Pos.ofJson? loose = some pos := by
  simp only [Pos.fits, Bool.and_eq_true, decide_eq_true_eq] at hpos
  refine h.record (by simp) ?_
  rintro _ (_ | ⟨hline, _ | ⟨hcolumn, _ | _⟩⟩)
  simp [hline.word32 hpos.1, hcolumn.word32 hpos.2]

section Expressions

variable {decode : Json → Option Expr} {limit : Nat} {e : Expr} {loose : Json}

theorem Expr.exists_toJson (e : Expr) : ∃ fields, e.toJson = .obj fields := by
  cases e <;> exact ⟨_, rfl⟩

theorem exprsToJson_eq_map (exprs : List Expr) : exprsToJson exprs = exprs.map Expr.toJson := by
  induction exprs with
  | nil => rfl
  | cons first rest ih => rw [exprsToJson, ih, List.map_cons]

theorem decodes_exprs {exprs : List Expr}
    (h : ∀ e ∈ exprs, Decodes decode limit e.toJson e) :
    Decodes (list decode) limit (.arr (exprsToJson exprs)) exprs := by
  rw [exprsToJson_eq_map]
  exact decodes_list h

theorem decodes_expr? {found : Option Expr}
    (h : ∀ e ∈ found.toList, Decodes decode limit e.toJson e) :
    Decodes (optional decode) limit (exprToJson? found) found := by
  have heq : exprToJson? found = found.elim .null Expr.toJson := by cases found <;> rfl
  rw [heq]
  refine decodes_optional (fun e => ?_) fun e he => h e (by simp [he])
  obtain ⟨fields, hobj⟩ := e.exists_toJson
  simp [hobj]

theorem decodes_comparison {link : Comparison Expr}
    (h : Decodes decode limit link.right.toJson link.right) :
    Decodes (Comparison.ofJson? decode) limit
      (.obj [("op", .str link.op.name), ("right", link.right.toJson)]) link := by
  intro loose hloose
  refine hloose.record (by simp) ?_
  rintro _ (_ | ⟨hop, _ | ⟨hright, _ | _⟩⟩)
  simp [hop.unit, h _ hright]

theorem decodes_comparisons {links : List (Comparison Expr)}
    (h : ∀ e ∈ links.map (·.right), Decodes decode limit e.toJson e) :
    Decodes (list (Comparison.ofJson? decode)) limit (.arr (comparisonsToJson links)) links := by
  have heq : comparisonsToJson links =
      links.map fun link => .obj [("op", .str link.op.name), ("right", link.right.toJson)] := by
    clear h
    induction links with
    | nil => rfl
    | cons first rest ih => rw [comparisonsToJson, ih, List.map_cons]
  rw [heq]
  exact decodes_list fun link hlink => decodes_comparison (h _ (List.mem_map_of_mem hlink))

theorem decodes_dictKey {key : DictKey Expr}
    (h : ∀ e, key = .computed e → Decodes decode limit e.toJson e) :
    Decodes (DictKey.ofJson? decode) limit (dictKeyToJson key) key := by
  intro loose hloose
  have hnear := hloose.mono (Nat.le_succ limit)
  cases key with
  | literal text | number text =>
      refine (hnear.kindOf (by simp) _ _).trans (hnear.parts (by simp) ?_)
      rintro _ (_ | ⟨htext, _ | _⟩)
      simp [htext.text]
  | computed e =>
      refine (hnear.kindOf (by simp) _ _).trans (hnear.parts (by simp) ?_)
      rintro _ (_ | ⟨hexpr, _ | _⟩)
      simp [h e rfl _ hexpr]

theorem decodes_entry {entry : DictEntry Expr}
    (h : ∀ e ∈ entry.exprs, Decodes decode limit e.toJson e) :
    Decodes (DictEntry.ofJson? decode) limit
      (.obj [("key", dictKeyToJson entry.key), ("value", entry.value.toJson)]) entry := by
  intro loose hloose
  refine hloose.record (by simp) ?_
  rintro _ (_ | ⟨hkey, _ | ⟨hvalue, _ | _⟩⟩)
  obtain ⟨key, value⟩ := entry
  have hcomputed : ∀ e, key = .computed e → Decodes decode limit e.toJson e :=
    fun e he => h e (by simp [DictEntry.exprs, he])
  have hdecoded := h value (by cases key <;> simp [DictEntry.exprs])
  simp [decodes_dictKey hcomputed _ hkey, hdecoded _ hvalue]

theorem decodes_entries {entries : List (DictEntry Expr)}
    (h : ∀ e ∈ entries.flatMap (·.exprs), Decodes decode limit e.toJson e) :
    Decodes (list (DictEntry.ofJson? decode)) limit (.arr (entriesToJson entries)) entries := by
  have heq : entriesToJson entries = entries.map fun entry =>
      .obj [("key", dictKeyToJson entry.key), ("value", entry.value.toJson)] := by
    clear h
    induction entries with
    | nil => rfl
    | cons first rest ih => rw [entriesToJson, ih, List.map_cons]
  rw [heq]
  exact decodes_list fun entry hentry =>
    decodes_entry fun e he => h e (List.mem_flatMap.mpr ⟨entry, hentry, he⟩)

def Segment.toJson : Segment Expr → Json
  | text value => .tagged "type" "text" [("value", .str value)]
  | expr value => .tagged "type" "expr" [("expr", value.toJson)]

theorem decodes_segment {segment : Segment Expr}
    (h : ∀ e, segment.expr? = some e → Decodes decode limit e.toJson e) :
    Decodes (Segment.ofJson? decode) limit segment.toJson segment := by
  intro loose hloose
  have hnear := hloose.mono (Nat.le_succ limit)
  cases segment with
  | text value =>
      refine (hnear.kindOf (by simp) _ _).trans (hnear.parts (by simp) ?_)
      rintro _ (_ | ⟨htext, _ | _⟩)
      simp [htext.text]
  | expr value =>
      refine (hnear.kindOf (by simp) _ _).trans (hnear.parts (by simp) ?_)
      rintro _ (_ | ⟨hexpr, _ | _⟩)
      simp [h value rfl _ hexpr]

theorem decodes_segments {segments : List (Segment Expr)}
    (h : ∀ e ∈ segments.filterMap (·.expr?), Decodes decode limit e.toJson e) :
    Decodes (list (Segment.ofJson? decode)) limit (.arr (segmentsToJson segments)) segments := by
  have heq : segmentsToJson segments = segments.map Segment.toJson := by
    clear h
    induction segments with
    | nil => rfl
    | cons first rest ih =>
        cases first <;> simp only [segmentsToJson, ih, List.map_cons, Segment.toJson]
  rw [heq]
  exact decodes_list fun segment hsegment =>
    decodes_segment fun e he => h e (List.mem_filterMap.mpr ⟨segment, hsegment, he⟩)

theorem Expr.kind?_of_near (h : Near (limit + 1) e.toJson loose) (kinds : List String) {α : Type}
    (rest : String × Json → Option α) :
    (loose.kind? "type" kinds).bind rest = rest (e.kindName, loose) := by
  cases e <;> exact Near.kindOf h (by simp) kinds rest

-- One case per kind: the fields of the value are those that the decoder of the kind asks for, and
-- each is decoded to the part that it was made of.
theorem Expr.ofFields?_of_near (hpos : e.pos.fits = true)
    (h : ∀ child ∈ e.children, Decodes decode limit child.toJson child)
    (hnear : Near (limit + 1) e.toJson loose) :
    Expr.ofFields? decode e.kindName loose = some e := by
  cases e with
  | binary op left right pos | logical op left right pos =>
      refine hnear.parts (by simp) ?_
      rintro _ (_ | ⟨hop, _ | ⟨hleft, _ | ⟨hright, _ | ⟨hplace, _ | _⟩⟩⟩⟩)
      simp [hop.unit, h left (.head _) _ hleft, h right (.tail _ (.head _)) _ hright,
        hplace.pos hpos]
  | unary op operand pos =>
      refine hnear.parts (by simp) ?_
      rintro _ (_ | ⟨hop, _ | ⟨hoperand, _ | ⟨hplace, _ | _⟩⟩⟩)
      simp [hop.unit, h operand (.head _) _ hoperand, hplace.pos hpos]
  | compare left comparisons pos =>
      refine hnear.parts (by simp) ?_
      rintro _ (_ | ⟨hleft, _ | ⟨hlinks, _ | ⟨hplace, _ | _⟩⟩⟩)
      have hchain := decodes_comparisons fun e he => h e (.tail left he)
      simp [h left (.head _) _ hleft, hchain _ hlinks, hplace.pos hpos]
  | conditional test consequent alternate pos =>
      refine hnear.parts (by simp) ?_
      rintro _ (_ | ⟨htest, _ | ⟨hthen, _ | ⟨helse, _ | ⟨hplace, _ | _⟩⟩⟩⟩)
      simp [h test (.head _) _ htest, h consequent (.tail _ (.head _)) _ hthen,
        h alternate (.tail _ (.tail _ (.head _))) _ helse, hplace.pos hpos]
  | membership element container negated pos =>
      refine hnear.parts (by simp) ?_
      rintro _ (_ | ⟨helement, _ | ⟨hin, _ | ⟨hnegated, _ | ⟨hplace, _ | _⟩⟩⟩⟩)
      simp [h element (.head _) _ helement, h container (.tail _ (.head _)) _ hin,
        hnegated.truth, hplace.pos hpos]
  | index object index pos =>
      refine hnear.parts (by simp) ?_
      rintro _ (_ | ⟨hobject, _ | ⟨hindex, _ | ⟨hplace, _ | _⟩⟩⟩)
      simp [h object (.head _) _ hobject, h index (.tail _ (.head _)) _ hindex,
        hplace.pos hpos]
  | slice object start stop step pos =>
      refine hnear.parts (by simp) ?_
      rintro _ (_ | ⟨hobject, _ | ⟨hstart, _ | ⟨hstop, _ | ⟨hstep, _ | ⟨hplace, _ | _⟩⟩⟩⟩⟩)
      simp only [children, List.forall_mem_cons, List.forall_mem_append] at h
      obtain ⟨hwhole, ⟨hlow, hhigh⟩, hstride⟩ := h
      simp [hwhole _ hobject, decodes_expr? hlow _ hstart, decodes_expr? hhigh _ hstop,
        decodes_expr? hstride _ hstep, hplace.pos hpos]
  | member object name pos =>
      refine hnear.parts (by simp) ?_
      rintro _ (_ | ⟨hobject, _ | ⟨hname, _ | ⟨hplace, _ | _⟩⟩⟩)
      simp [h object (.head _) _ hobject, hname.text, hplace.pos hpos]
  | call callee args pos | construct callee args pos =>
      refine hnear.parts (by simp) ?_
      rintro _ (_ | ⟨hcallee, _ | ⟨hargs, _ | ⟨hplace, _ | _⟩⟩⟩)
      have hlist := decodes_exprs fun e he => h e (.tail callee he)
      simp [h callee (.head _) _ hcallee, hlist _ hargs, hplace.pos hpos]
  | list elements pos =>
      refine hnear.parts (by simp) ?_
      rintro _ (_ | ⟨helements, _ | ⟨hplace, _ | _⟩⟩)
      simp [@decodes_exprs _ _ elements h _ helements, hplace.pos hpos]
  | dict entries pos =>
      refine hnear.parts (by simp) ?_
      rintro _ (_ | ⟨hentries, _ | ⟨hplace, _ | _⟩⟩)
      simp [decodes_entries h _ hentries, hplace.pos hpos]
  | interpolated segments pos =>
      refine hnear.parts (by simp) ?_
      rintro _ (_ | ⟨hsegments, _ | ⟨hplace, _ | _⟩⟩)
      simp [decodes_segments h _ hsegments, hplace.pos hpos]
  | template text pos | number text pos | string text pos | var text pos =>
      refine hnear.parts (by simp) ?_
      rintro _ (_ | ⟨htext, _ | ⟨hplace, _ | _⟩⟩)
      simp [htext.text, hplace.pos hpos]
  | boolean value pos =>
      refine hnear.parts (by simp) ?_
      rintro _ (_ | ⟨hvalue, _ | ⟨hplace, _ | _⟩⟩)
      simp [hvalue.truth, hplace.pos hpos]
  | null pos | this pos | super pos =>
      refine hnear.parts (by simp) ?_
      rintro _ (_ | ⟨hplace, _ | _⟩)
      simp [hplace.pos hpos]

-- Induction on the expression. A decoder that goes down to a depth reads what is no deeper.
theorem Expr.decode_decodes (hfits : e.all (·.pos.fits) = true) :
    ∀ limit, Decodes (Expr.decode limit) limit e.toJson e := by
  induction e using children_induct with
  | step e ih =>
      intro limit loose hnear
      obtain ⟨hpos, hchildren⟩ := all_iff.mp hfits
      obtain ⟨fields, heq⟩ := e.exists_toJson
      obtain ⟨smaller, rfl⟩ := (heq ▸ hnear).exists_succ
      refine (kind?_of_near hnear _ _).trans ?_
      exact ofFields?_of_near hpos (fun child h => ih child h (hchildren child h) smaller) hnear

theorem Expr.ofJson?_decodes (hfits : e.all (·.pos.fits) = true) (limit : Nat) :
    Decodes Expr.ofJson? limit e.toJson e :=
  fun loose hnear => Expr.decode_decodes hfits loose.depth loose ⟨hnear.1, .inr (Nat.le_refl _)⟩

end Expressions

section Statements

variable {decode : Json → Option Stmt} {limit : Nat} {stmt : Stmt} {loose : Json}

theorem decodes_text? (found : Option String) :
    Decodes (optional Json.text) limit (.ofText? found) found := by
  have heq : Json.ofText? found = found.elim .null .str := by cases found <;> rfl
  rw [heq]
  exact decodes_optional (by simp) fun value _ _ h => h.text

theorem decodes_importedName (imported : ImportedName) :
    Decodes ImportedName.ofJson? limit imported.toJson imported := by
  intro loose hloose
  refine hloose.record (by simp) ?_
  rintro _ (_ | ⟨hname, _ | ⟨hother, _ | _⟩⟩)
  simp [hname.text, decodes_text? imported.otherName _ hother]

theorem decodes_importKind (kind : ImportKind) :
    Decodes ImportKind.ofJson? limit kind.toJson kind := by
  intro loose hloose
  have hnear := hloose.mono (Nat.le_succ limit)
  cases kind with
  | whole otherName =>
      refine (hnear.kindOf (by simp) _ _).trans (hnear.parts (by simp) ?_)
      rintro _ (_ | ⟨hother, _ | _⟩)
      simp [decodes_text? otherName _ hother]
  | names imported =>
      refine (hnear.kindOf (by simp) _ _).trans (hnear.parts (by simp) ?_)
      rintro _ (_ | ⟨himported, _ | _⟩)
      have hlist : Decodes (list ImportedName.ofJson?) limit
          (.arr (imported.map ImportedName.toJson)) imported :=
        decodes_list fun name _ => decodes_importedName name
      simp [hlist _ himported]

theorem decodes_parameter {param : Parameter} (hpos : param.pos.fits = true)
    (h : ∀ e ∈ param.default.toList, Decodes Expr.ofJson? limit e.toJson e) :
    Decodes Parameter.ofJson? limit param.toJson param := by
  intro loose hloose
  refine hloose.record (by simp) ?_
  rintro _ (_ | ⟨hname, _ | ⟨hkind, _ | ⟨hdefault, _ | ⟨hplace, _ | _⟩⟩⟩⟩)
  simp [hname.text, hkind.unit, decodes_expr? h _ hdefault, hplace.pos hpos]

theorem decodes_iteration {iteration : Iteration}
    (h : ∀ e ∈ iteration.exprs, Decodes Expr.ofJson? limit e.toJson e) :
    Decodes Iteration.ofJson? limit iteration.toJson iteration := by
  intro loose hloose
  have hnear := hloose.mono (Nat.le_succ limit)
  cases iteration with
  | range start stop step =>
      refine (hnear.kindOf (by simp) _ _).trans (hnear.parts (by simp) ?_)
      rintro _ (_ | ⟨hstart, _ | ⟨hstop, _ | ⟨hstep, _ | _⟩⟩⟩)
      simp only [Iteration.exprs, List.forall_mem_append, List.forall_mem_cons] at h
      obtain ⟨hlow, hhigh, hstride⟩ := h
      simp [decodes_expr? hlow _ hstart, hhigh _ hstop, decodes_expr? hstride _ hstep]
  | each iterable =>
      refine (hnear.kindOf (by simp) _ _).trans (hnear.parts (by simp) ?_)
      rintro _ (_ | ⟨hover, _ | _⟩)
      simp [h iterable (.head _) _ hover]

theorem Stmt.exists_toJson (stmt : Stmt) : ∃ fields, stmt.toJson = .obj fields := by
  cases stmt <;> exact ⟨_, rfl⟩

theorem stmtsToJson_eq_map (body : List Stmt) : stmtsToJson body = body.map Stmt.toJson := by
  induction body with
  | nil => rfl
  | cons first rest ih => rw [stmtsToJson, ih, List.map_cons]

theorem decodes_stmts {body : List Stmt}
    (h : ∀ stmt ∈ body, Decodes decode limit stmt.toJson stmt) :
    Decodes (list decode) limit (.arr (stmtsToJson body)) body := by
  rw [stmtsToJson_eq_map]
  exact decodes_list h

theorem decodes_stmt? {found : Option Stmt}
    (h : ∀ stmt ∈ found.toList, Decodes decode limit stmt.toJson stmt) :
    Decodes (optional decode) limit (stmtToJson? found) found := by
  have heq : stmtToJson? found = found.elim .null Stmt.toJson := by cases found <;> rfl
  rw [heq]
  refine decodes_optional (fun stmt => ?_) fun stmt hstmt => h stmt (by simp [hstmt])
  obtain ⟨fields, hobj⟩ := stmt.exists_toJson
  simp [hobj]

theorem decodes_block? {found : Option (List Stmt)}
    (h : ∀ stmt ∈ found.getD [], Decodes decode limit stmt.toJson stmt) :
    Decodes (optional (·.list decode)) limit (blockToJson? found) found := by
  have heq : blockToJson? found = found.elim .null fun body => .arr (stmtsToJson body) := by
    cases found <;> rfl
  rw [heq]
  refine decodes_optional (by simp) fun body hbody => decodes_stmts fun stmt hstmt => h stmt ?_
  simpa [hbody] using hstmt

theorem decodes_elif {clause : ElifClause Stmt} (hpos : clause.pos.fits = true)
    (hcondition : Decodes Expr.ofJson? limit clause.condition.toJson clause.condition)
    (h : ∀ stmt ∈ clause.body, Decodes decode limit stmt.toJson stmt) :
    Decodes (ElifClause.ofJson? decode) limit
      (.obj [("condition", clause.condition.toJson), ("body", .arr (stmtsToJson clause.body)),
        ("location", clause.pos.toJson)]) clause := by
  intro loose hloose
  refine hloose.record (by simp) ?_
  rintro _ (_ | ⟨htest, _ | ⟨hbody, _ | ⟨hplace, _ | _⟩⟩⟩)
  simp [hcondition _ htest, decodes_stmts h _ hbody, hplace.pos hpos]

theorem decodes_elifs {elifs : List (ElifClause Stmt)}
    (hpos : ∀ pos ∈ elifs.map (·.pos), pos.fits = true)
    (hconditions : ∀ e ∈ elifs.map (·.condition), Decodes Expr.ofJson? limit e.toJson e)
    (h : ∀ stmt ∈ elifs.flatMap (·.body), Decodes decode limit stmt.toJson stmt) :
    Decodes (list (ElifClause.ofJson? decode)) limit (.arr (elifsToJson elifs)) elifs := by
  have heq : elifsToJson elifs = elifs.map fun clause =>
      .obj [("condition", clause.condition.toJson), ("body", .arr (stmtsToJson clause.body)),
        ("location", clause.pos.toJson)] := by
    clear hpos hconditions h
    induction elifs with
    | nil => rfl
    | cons first rest ih => rw [elifsToJson, ih, List.map_cons]
  rw [heq]
  exact decodes_list fun clause hclause =>
    decodes_elif (hpos _ (List.mem_map_of_mem hclause))
      (hconditions _ (List.mem_map_of_mem hclause))
      fun stmt hstmt => h stmt (List.mem_flatMap.mpr ⟨clause, hclause, hstmt⟩)

theorem decodes_handler? {found : Option (Handler Stmt)}
    (hpos : ∀ pos ∈ (found.map (·.pos)).toList, pos.fits = true)
    (h : ∀ stmt ∈ (found.map (·.body)).getD [], Decodes decode limit stmt.toJson stmt) :
    Decodes (optional (Handler.ofJson? decode)) limit (handlerToJson? found) found := by
  have heq : handlerToJson? found = found.elim .null fun handler =>
      .obj [("name", .ofText? handler.name), ("body", .arr (stmtsToJson handler.body)),
        ("location", handler.pos.toJson)] := by
    cases found <;> rfl
  rw [heq]
  refine decodes_optional (by simp) fun handler hhandler loose hloose => ?_
  subst hhandler
  refine hloose.record (by simp) ?_
  rintro _ (_ | ⟨hname, _ | ⟨hbody, _ | ⟨hplace, _ | _⟩⟩⟩)
  simp [decodes_text? handler.name _ hname, decodes_stmts h _ hbody, hplace.pos (hpos _ (.head _))]

theorem decodes_declaration? (found : Option Declaration) :
    Decodes (optional (·.unit.bind Declaration.ofName?)) limit
      (.ofText? (found.map Declaration.name)) found := by
  have heq : Json.ofText? (found.map Declaration.name) =
      found.elim .null fun word => .str word.name := by
    cases found <;> rfl
  rw [heq]
  exact decodes_optional (by simp) fun word _ _ h => by simp [h.unit]

-- The places that a statement gives for itself and its parameters, conditions and handlers.
def Stmt.places : Stmt → List Pos
  | functionDef _ params _ pos => pos :: params.map (·.pos)
  | ifElse _ _ elifs _ pos => pos :: elifs.map (·.pos)
  | tryCatch _ handler _ pos => pos :: (handler.map (·.pos)).toList
  | stmt => [stmt.pos]

-- Whether all places that stand directly in a statement or in its expressions have 32 bits.
def Stmt.fits (stmt : Stmt) : Bool :=
  stmt.places.all (·.fits) && stmt.exprs.all (·.all (·.pos.fits))

-- Whether all places in a program have 32 bits.
def Module.fits (module : Module) : Bool :=
  module.pos.fits && module.body.all (·.all Stmt.fits)

theorem Stmt.kind?_of_near (h : Near (limit + 1) stmt.toJson loose) (kinds : List String) {α : Type}
    (rest : String × Json → Option α) :
    (loose.kind? "type" kinds).bind rest = rest (stmt.kindName, loose) := by
  cases stmt <;> exact Near.kindOf h (by simp) kinds rest

-- One case per kind, as for expressions.
theorem Stmt.ofFields?_of_near (hplaces : ∀ pos ∈ stmt.places, pos.fits = true)
    (hexprs : ∀ e ∈ stmt.exprs, Decodes Expr.ofJson? limit e.toJson e)
    (h : ∀ child ∈ stmt.children, Decodes decode limit child.toJson child)
    (hnear : Near (limit + 1) stmt.toJson loose) :
    Stmt.ofFields? decode stmt.kindName loose = some stmt := by
  have hown : stmt.pos.fits = true := by cases stmt <;> exact hplaces _ (.head _)
  cases stmt with
  | imports module kind pos =>
      refine hnear.parts (by simp) ?_
      rintro _ (_ | ⟨hmodule, _ | ⟨hkind, _ | ⟨hplace, _ | _⟩⟩⟩)
      simp [hmodule.text, decodes_importKind kind _ hkind, hplace.pos hown]
  | classDef name base body pos =>
      refine hnear.parts (by simp) ?_
      rintro _ (_ | ⟨hname, _ | ⟨hbase, _ | ⟨hbody, _ | ⟨hplace, _ | _⟩⟩⟩⟩)
      simp [hname.text, decodes_text? base _ hbase, @decodes_stmts _ _ body h _ hbody,
        hplace.pos hown]
  | functionDef name params body pos =>
      refine hnear.parts (by simp) ?_
      rintro _ (_ | ⟨hname, _ | ⟨hparams, _ | ⟨hbody, _ | ⟨hplace, _ | _⟩⟩⟩⟩)
      have hlist : Decodes (list Parameter.ofJson?) limit
          (.arr (params.map Parameter.toJson)) params := by
        refine decodes_list fun param hparam =>
          decodes_parameter (hplaces _ (.tail _ (List.mem_map_of_mem hparam))) fun e he => ?_
        exact hexprs e (List.mem_filterMap.mpr ⟨param, hparam, Option.mem_toList.mp he⟩)
      simp [hname.text, hlist _ hparams, @decodes_stmts _ _ body h _ hbody, hplace.pos hown]
  | ifElse condition body elifs orElse pos =>
      refine hnear.parts (by simp) ?_
      rintro _ (_ | ⟨htest, _ | ⟨hbody, _ | ⟨hclauses, _ | ⟨helse, _ | ⟨hplace, _ | _⟩⟩⟩⟩⟩)
      simp only [places, exprs, children, List.forall_mem_cons, List.forall_mem_append]
        at hplaces hexprs h
      simp [hexprs.1 _ htest, decodes_stmts h.1.1 _ hbody,
        decodes_elifs hplaces.2 hexprs.2 h.1.2 _ hclauses, decodes_block? h.2 _ helse,
        hplace.pos hplaces.1]
  | forIn target iteration body pos =>
      refine hnear.parts (by simp) ?_
      rintro _ (_ | ⟨htarget, _ | ⟨hover, _ | ⟨hbody, _ | ⟨hplace, _ | _⟩⟩⟩⟩)
      simp [htarget.text, @decodes_iteration _ iteration hexprs _ hover,
        @decodes_stmts _ _ body h _ hbody, hplace.pos hown]
  | forClauses init test update body pos =>
      refine hnear.parts (by simp) ?_
      rintro _ (_ | ⟨hinit, _ | ⟨htest, _ | ⟨hupdate, _ | ⟨hbody, _ | ⟨hplace, _ | _⟩⟩⟩⟩⟩)
      simp only [children, List.forall_mem_append] at h
      simp [decodes_stmt? h.1.1 _ hinit, @decodes_expr? _ _ test hexprs _ htest,
        decodes_stmt? h.1.2 _ hupdate, decodes_stmts h.2 _ hbody, hplace.pos hown]
  | whileDo condition body pos =>
      refine hnear.parts (by simp) ?_
      rintro _ (_ | ⟨htest, _ | ⟨hbody, _ | ⟨hplace, _ | _⟩⟩⟩)
      simp [hexprs condition (.head _) _ htest, @decodes_stmts _ _ body h _ hbody, hplace.pos hown]
  | tryCatch body handler cleanup pos =>
      refine hnear.parts (by simp) ?_
      rintro _ (_ | ⟨hbody, _ | ⟨hhandler, _ | ⟨hcleanup, _ | ⟨hplace, _ | _⟩⟩⟩⟩)
      simp only [places, children, List.forall_mem_cons, List.forall_mem_append] at hplaces h
      simp [decodes_stmts h.1.1 _ hbody, decodes_handler? hplaces.2 h.1.2 _ hhandler,
        decodes_block? h.2 _ hcleanup, hplace.pos hplaces.1]
  | returns value pos =>
      refine hnear.parts (by simp) ?_
      rintro _ (_ | ⟨hvalue, _ | ⟨hplace, _ | _⟩⟩)
      simp [@decodes_expr? _ _ value hexprs _ hvalue, hplace.pos hown]
  | assign targets value declaration pos =>
      refine hnear.parts (by simp) ?_
      rintro _ (_ | ⟨htargets, _ | ⟨hvalue, _ | ⟨hword, _ | ⟨hplace, _ | _⟩⟩⟩⟩)
      simp only [exprs, List.forall_mem_append] at hexprs
      simp [decodes_exprs hexprs.1 _ htargets, decodes_expr? hexprs.2 _ hvalue,
        decodes_declaration? declaration _ hword, hplace.pos hown]
  | augAssign target op value pos =>
      refine hnear.parts (by simp) ?_
      rintro _ (_ | ⟨htarget, _ | ⟨hop, _ | ⟨hvalue, _ | ⟨hplace, _ | _⟩⟩⟩⟩)
      simp [hexprs target (.head _) _ htarget, hop.unit,
        hexprs value (.tail _ (.head _)) _ hvalue, hplace.pos hown]
  | print args pos =>
      refine hnear.parts (by simp) ?_
      rintro _ (_ | ⟨hargs, _ | ⟨hplace, _ | _⟩⟩)
      simp [@decodes_exprs _ _ args hexprs _ hargs, hplace.pos hown]
  | expr value pos =>
      refine hnear.parts (by simp) ?_
      rintro _ (_ | ⟨hvalue, _ | ⟨hplace, _ | _⟩⟩)
      simp [hexprs value (.head _) _ hvalue, hplace.pos hown]
  | pass pos | breaks pos | continues pos =>
      refine hnear.parts (by simp) ?_
      rintro _ (_ | ⟨hplace, _ | _⟩)
      simp [hplace.pos hown]

-- What a statement with places of 32 bits gives for the step above.
theorem Stmt.ofFields?_of_fits (hfits : stmt.fits = true)
    (h : ∀ child ∈ stmt.children, Decodes decode limit child.toJson child)
    (hnear : Near (limit + 1) stmt.toJson loose) :
    Stmt.ofFields? decode stmt.kindName loose = some stmt := by
  simp only [fits, Bool.and_eq_true, List.all_eq_true] at hfits
  exact ofFields?_of_near hfits.1 (fun e he => Expr.ofJson?_decodes (hfits.2 e he) limit) h hnear

-- Induction on the statement, as for expressions.
theorem Stmt.decode_decodes (hfits : stmt.all fits = true) :
    ∀ limit, Decodes (Stmt.decode limit) limit stmt.toJson stmt := by
  induction stmt using children_induct with
  | step stmt ih =>
      intro limit loose hnear
      obtain ⟨hown, hchildren⟩ := all_iff.mp hfits
      obtain ⟨fields, heq⟩ := stmt.exists_toJson
      obtain ⟨smaller, rfl⟩ := (heq ▸ hnear).exists_succ
      refine (kind?_of_near hnear _ _).trans ?_
      exact ofFields?_of_fits hown (fun child h => ih child h (hchildren child h) smaller) hnear

-- The outermost statement is decoded like those in it, except that its kind is never a number.
theorem Stmt.ofJson?_decodes (hfits : stmt.all fits = true) (limit : Nat) :
    Decodes Stmt.ofJson? limit stmt.toJson stmt := by
  rintro loose ⟨hloose, -⟩
  have hnear : Near (loose.depth + 1) stmt.toJson loose := ⟨hloose, .inr (Nat.le_succ _)⟩
  obtain ⟨hown, hchildren⟩ := all_iff.mp hfits
  refine (kind?_of_near hnear _ _).trans ?_
  exact ofFields?_of_fits hown (fun child h => decode_decodes (hchildren child h) _) hnear

end Statements

-- A program is read back from its serialized form, and from every form that leaves out fields that
-- are null or has further ones.
theorem Module.ofJson?_loosened (module : Module) (hfits : module.fits = true) :
    Module.ofJson? module.toJson = some module ∧
      ∀ json, Loosens module.toJson json → Module.ofJson? json = some module := by
  suffices h : ∀ json, Loosens module.toJson json → Module.ofJson? json = some module from
    ⟨h _ (.refl _), h⟩
  intro json hloose
  simp only [fits, Bool.and_eq_true, List.all_eq_true] at hfits
  have hnear : Near (json.depth + 1) module.toJson json := ⟨hloose, .inr (Nat.le_succ _)⟩
  refine hnear.values (by simp) (List.Subset.refl _) ?_
  rintro _ (_ | ⟨hbody, _ | ⟨hplace, _ | _⟩⟩)
  have hblock : Decodes (list Stmt.ofJson?) json.depth (.arr (stmtsToJson module.body))
      module.body :=
    decodes_stmts fun stmt hstmt => Stmt.ofJson?_decodes (hfits.2 stmt hstmt) _
  simp [hblock _ hbody, hplace.pos hfits.1]

-- A program with two statements whose forms have fields that are null.
def Module.bareSlice : Module :=
  ⟨[.imports "os" (.whole none) ⟨1, 1⟩,
      .expr (.slice (.var "a" ⟨2, 1⟩) none none none ⟨2, 1⟩) ⟨2, 1⟩],
    ⟨1, 1⟩⟩

-- Its form without three of these fields, and with fields under names that tell kinds elsewhere.
def Module.bareSliceLoosened : Json :=
  let first : Json := .obj [("line", .nat 1), ("column", .nat 1)]
  let second : Json := .obj [("line", .nat 2), ("column", .nat 1)]
  .obj
    [("type", .str "Pass"),
      ("body", .arr
        [.obj [("type", .str "Import"), ("module", .str "os"),
            ("kind", .obj [("type", .str "If"), ("kind", .str "module")]), ("location", first)],
          .obj [("type", .str "Expression"),
            ("expression", .obj [("type", .str "Slice"),
              ("object", .obj [("type", .str "Variable"), ("name", .str "a"),
                ("location", second), ("kind", .null)]),
              ("stop", .null), ("location", second)]),
            ("location", second)]]),
      ("location", first)]

theorem Module.bareSlice_loosens : Loosens bareSlice.toJson bareSliceLoosened :=
  .obj
    (.add (.keep (.arr (.cons
      (.obj (.keep (.str _) (.keep (.str _) (.keep
        (.obj (.add (.keep (.str _) (.drop .nil))) (by decide))
        (.keep (.refl _) .nil)))) (by decide))
      (.cons
        (.obj (.keep (.str _) (.keep
          (.obj (.keep (.str _) (.keep
            (.obj (.keep (.str _) (.keep (.str _) (.keep (.refl _) (.add .nil)))) (by decide))
            (.drop (.keep .null (.drop (.keep (.refl _) .nil)))))) (by decide))
          (.keep (.refl _) .nil))) (by decide))
        .nil)))
      (.keep (.refl _) .nil)))
    (by decide)

theorem Module.ofJson?_bareSliceLoosened :
    bareSlice.fits = true ∧ Loosens bareSlice.toJson bareSliceLoosened ∧
      Module.ofJson? bareSlice.toJson = some bareSlice ∧
      Module.ofJson? bareSliceLoosened = some bareSlice :=
  have hfits : bareSlice.fits = true := by decide
  ⟨hfits, bareSlice_loosens, (ofJson?_loosened bareSlice hfits).1,
    (ofJson?_loosened bareSlice hfits).2 _ bareSlice_loosens⟩

end Diglot
