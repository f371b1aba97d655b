import Diglot.Proofs.Indented.Declarations
import Diglot.Proofs.Indented.Lowering
import Diglot.Proofs.Indented.Phrases
import Diglot.Proofs.Indented.Quotable

namespace Diglot.Indented

open Diglot.Parser TokenStream
open Token (op kw word)

section Conditions

-- Whether an expression is still one that may be assigned to when it is written: `length` is written
-- as a call.
def isTarget : Expr → Bool
  | .var .. | .index .. | .member (.super _) _ _ => true
  | .member _ name _ => name != "length"
  | _ => false

-- Whether an expression is written with something else than `print` in front.
def isUnprinted (e : Expr) : Bool := !(written e).tokens.head?.any (·.isKeyword "print")

-- The names of a module that is named by a path.
def pathNames (path : String) : List String :=
  ((moduleName path).toList.splitOn '.').map String.ofList

-- Whether a statement is carried over to one that can be read: what it assigns to may be assigned
-- to, it does not start with `print` unless it prints, and it imports something if it imports names,
-- from a module whose path is made of names.
def isCarried : Stmt → Bool
  | .imports path kind _ => (pathNames path).all isName && kind != .names []
  | .assign targets _ _ _ => targets.all isTarget && targets.head?.all isUnprinted
  | .augAssign target _ _ _ => isTarget target && isUnprinted target
  | .expr value _ => isUnprinted value
  | _ => true

-- Whether a statement is written as one that is read again: it is carried over, its names are names,
-- and its templates can be quoted. What stands in its blocks is not looked at.
def isAcceptable (stmt : Stmt) : Bool := stmt.isWorded isName isReadable && isCarried stmt

-- The same of the expressions as they are written, and of the parts that a statement needs.
structure Acceptable (embedded : Embedder) (stmt : Stmt) : Prop where
  words : ∀ text ∈ stmt.words, isName text = true
  exprs : ∀ e ∈ stmt.exprs, Sound embedded (written e)
  formed : stmt.isFormed = true
  carried : isCarried stmt = true

end Conditions

section Parts

variable {embedded : Embedder} {e : Expr}

theorem simple_of_sound (h : Sound embedded (written e)) (hprint : isUnprinted e = true) :
    Simple embedded (written e) :=
  ⟨h, by simpa [isUnprinted] using hprint⟩

theorem isAssignable_written (h : isTarget e = true) : (written e).value.isAssignable = true := by
  cases e with
  | var name pos => rfl
  | index object index pos => rfl
  | member object name pos =>
      have hvalue : ∃ object' name', (written (.member object name pos)).value =
          .member object' name' .start := by
        unfold written
        split
        · exact ⟨_, _, rfl⟩
        · split
          · simp [isTarget] at h
          · exact ⟨_, _, rfl⟩
          · exact ⟨_, _, rfl⟩
      obtain ⟨object', name', hmember⟩ := hvalue
      rw [hmember]
      rfl
  | _ => simp [isTarget] at h

theorem sound_param {param : Parameter} (hname : isName param.name = true)
    (hdefault : ∀ e ∈ param.default, Sound embedded (written e)) :
    (writtenParam param).Sound embedded := by
  obtain ⟨name, kind, default, pos⟩ := param
  cases kind with
  | positional =>
      cases default with
      | none => exact ⟨hname, by simp [writtenParam, WrittenParam.default?]⟩
      | some default =>
          refine ⟨hname, ?_⟩
          rintro w ⟨rfl⟩
          exact hdefault default rfl
  | rest | keywordCollector => exact ⟨hname, by simp [writtenParam, WrittenParam.default?]⟩

theorem text_classHead (name : String) (base : Option String) :
    (Phrase.plain ("class " ++ name ++ (match base with
      | some base => "(" ++ base ++ ")"
      | none => "") ++ ":")).text.toList =
      "class".toList ++ ' ' :: (name.toList ++ baseText base) ++ [':'] := by
  have hclass : "class ".toList = "class".toList ++ [' '] := rfl
  have hopen : "(".toList = ['('] := rfl
  have hclose : ")".toList = [')'] := rfl
  have hcolon : ":".toList = [':'] := rfl
  cases base <;> simp [Phrase.plain, baseText, hclass, hopen, hclose, hcolon]

-- The dotted name of a module.
theorem exists_pathNames (path : String) : ∃ first more, pathNames path = first :: more ∧
    (moduleName path).toList = dottedText first more := by
  have hjoined : ∀ (first : List Char) (more : List (List Char)),
      ['.'].intercalate (first :: more) = first ++ more.flatMap ('.' :: ·) := by
    intro first more
    induction more generalizing first with
    | nil => simp
    | cons second more ih => rw [List.intercalate_cons_cons, ih]; simp
  have htext : ['.'].intercalate ((moduleName path).toList.splitOn '.') = (moduleName path).toList :=
    List.intercalate_splitOn '.'
  cases hnames : (moduleName path).toList.splitOn '.' with
  | nil => exact absurd hnames (List.splitOn_ne_nil _ _)
  | cons first more =>
      refine ⟨String.ofList first, more.map String.ofList, by rw [pathNames, hnames, List.map_cons], ?_⟩
      rw [← htext, hnames, hjoined, dottedText, List.flatMap_map]
      simp

end Parts

section Reread

-- An assignment without a value gives `None`.
def writtenValue : Option Expr → Written
  | some value => written value
  | none => .ofKeyword "None" (.null .start)

-- The kind of an import as it is read back. A module's own name is not repeated.
def rereadKind (path : String) : ImportKind → ImportKind
  | .whole other => .whole (if other = some (moduleName path) then none else other)
  | .names imported => .names imported

mutual

-- The statements that the lines of a statement are read back as. `last` are those that the lines of
-- the update are read back as.
def reread (ctx : Context) (last : Option (Context → List Stmt)) : Stmt → List Stmt
  | .imports path kind _ =>
      [.imports (".".intercalate (pathNames path)) (rereadKind path kind) .start]
  | .classDef name base body _ => [.classDef name base (rereadBlock .classBody last body) .start]
  | .functionDef name params body _ =>
      [.functionDef (writtenName ctx name) ((writtenParams ctx params).map WrittenParam.value)
        (rereadBlock (functionContext ctx) last body) .start]
  | .ifElse condition body elifs orElse _ =>
      [.ifElse (written condition).value (rereadBlock ctx last body) (rereadElifs ctx last elifs)
        (rereadOption ctx last orElse) .start]
  | .forIn target iteration body _ =>
      [.forIn target (iterationOf (writtenIteration iteration).value) (rereadBlock ctx none body)
        .start]
  | .forClauses init test update body pos =>
      let inner := match update with
        | some update => some fun ctx => reread ctx none update
        | none => none
      let ending := match update with
        | some update => reread ctx last update
        | none => if body.isEmpty then [.pass .start] else []
      rereadInit ctx last init ++ [.whileDo (written (test.getD (.boolean true pos))).value
        (rereadAll ctx inner body ++ ending) .start]
  | .whileDo condition body _ =>
      [.whileDo (written condition).value (rereadBlock ctx none body) .start]
  | .tryCatch body handler cleanup _ =>
      [.tryCatch (rereadBlock ctx last body) (rereadHandler ctx last handler)
        (rereadOption ctx last cleanup) .start]
  | .returns value _ => [.returns (value.map fun value => (written value).value) .start]
  | .assign targets value _ _ =>
      [.assign ((targets.map written).map Written.value) (some (writtenValue value).value) none
        .start]
  | .augAssign target op value _ =>
      [.augAssign (written target).value op (written value).value .start]
  | .print args _ => [.print ((args.map written).map Written.value) .start]
  | .expr value _ => [.expr (written value).value .start]
  | .pass _ => [.pass .start]
  | .breaks _ => [.breaks .start]
  | .continues _ =>
      (match last with
        | some last => last ctx
        | none => []) ++ [.continues .start]

def rereadAll (ctx : Context) (last : Option (Context → List Stmt)) : List Stmt → List Stmt
  | [] => []
  | first :: rest => reread ctx last first ++ rereadAll ctx last rest

def rereadBlock (ctx : Context) (last : Option (Context → List Stmt)) : List Stmt → List Stmt
  | [] => [.pass .start]
  | first :: rest => reread ctx last first ++ rereadAll ctx last rest

def rereadInit (ctx : Context) (last : Option (Context → List Stmt)) : Option Stmt → List Stmt
  | none => []
  | some init => reread ctx last init

def rereadElifs (ctx : Context) (last : Option (Context → List Stmt)) :
    List (ElifClause Stmt) → List (ElifClause Stmt)
  | [] => []
  | ⟨condition, body, _⟩ :: rest =>
      ⟨(written condition).value, rereadBlock ctx last body, .start⟩ :: rereadElifs ctx last rest

def rereadHandler (ctx : Context) (last : Option (Context → List Stmt)) :
    Option (Handler Stmt) → Option (Handler Stmt)
  | none => none
  | some ⟨name, body, _⟩ => some ⟨name, rereadBlock ctx last body, .start⟩

def rereadOption (ctx : Context) (last : Option (Context → List Stmt)) :
    Option (List Stmt) → Option (List Stmt)
  | none => none
  | some body => some (rereadBlock ctx last body)

end

variable (ctx : Context) (last : Option (Context → List Stmt))

theorem reread_forClauses (init : Option Stmt) (test : Option Expr) (update : Option Stmt)
    (body : List Stmt) (pos : Pos) : reread ctx last (.forClauses init test update body pos) =
      rereadInit ctx last init ++ [.whileDo (written (test.getD (.boolean true pos))).value
        (rereadAll ctx (update.map fun update ctx => reread ctx none update) body ++
          update.elim (if body.isEmpty then [.pass .start] else []) (reread ctx last)) .start] := by
  rw [reread.eq_def]
  cases update <;> rfl

theorem reread_ne_nil (stmt : Stmt) : reread ctx last stmt ≠ [] := by
  cases stmt <;> simp [reread, reread_forClauses]

end Reread

section Statements

variable {embedded : Embedder} {width : Nat} {ctx : Context}
  {update : Option Update} {last : Option (Context → List Stmt)} {body : List Stmt}

-- The lines of what a loop does at the end of each round say statements wherever they are written.
def SaysUpdate (embedded : Embedder) (width : Nat) :
    Option Update → Option (Context → List Stmt) → Prop :=
  Option.Rel fun lines values => ∀ ctx, Says embedded width (lines ctx) (values ctx)

-- The lines of a statement are read back, wherever and in whatever loop it stands.
def Readable (embedded : Embedder) (width : Nat) (stmt : Stmt) : Prop :=
  ∀ ⦃ctx update last⦄, SaysUpdate embedded width update last →
    Says embedded width (writeStmt ctx update stmt) (reread ctx last stmt)

theorem says_rereadAll (h : ∀ stmt ∈ body, Readable embedded width stmt)
    (hupdate : SaysUpdate embedded width update last) :
    Says embedded width (writeStmts ctx update body) (rereadAll ctx last body) := by
  induction body with
  | nil => exact says_nil
  | cons first rest ih =>
      obtain ⟨hfirst, hrest⟩ := List.forall_mem_cons.mp h
      rw [writeStmts, rereadAll]
      exact (hfirst hupdate).append (ih hrest)

variable [Fact (0 < width)]

theorem says_pass : Says embedded width (.line "pass") [.pass .start] := says_word (by simp)

theorem says_rereadBlock (h : ∀ stmt ∈ body, Readable embedded width stmt)
    (hupdate : SaysUpdate embedded width update last) :
    SaysBlock embedded width (if body.isEmpty then .line "pass" else writeStmts ctx update body)
      (rereadBlock ctx last body) := by
  cases body with
  | nil =>
      rw [rereadBlock]
      exact says_pass.block (by simp)
  | cons first rest =>
      rw [rereadBlock, ← rereadAll]
      exact (says_rereadAll h hupdate).block (by simp [rereadAll, reread_ne_nil])

theorem says_rereadElifs {elifs : List (ElifClause Stmt)}
    (hconditions : ∀ e ∈ elifs.map (·.condition), Sound embedded (written e))
    (h : ∀ stmt ∈ elifs.flatMap (·.body), Readable embedded width stmt)
    (hupdate : SaysUpdate embedded width update last) :
    SaysFurther embedded width "elif" elifReader (writeElifs ctx update elifs)
      (rereadElifs ctx last elifs) := by
  induction elifs with
  | nil => exact says_noElif
  | cons first rest ih =>
      obtain ⟨condition, body, pos⟩ := first
      obtain ⟨hcondition, hconditions⟩ := List.forall_mem_cons.mp hconditions
      rw [List.flatMap_cons, List.forall_mem_append] at h
      rw [rereadElifs]
      exact says_elif hcondition (toList_head rfl condition) (says_rereadBlock h.1 hupdate)
        (ih hconditions h.2)

theorem says_rereadOption {body : Option (List Stmt)} {keyword : String}
    (hkeyword : keyword ∈ ["else", "finally"])
    (h : ∀ stmt ∈ body.getD [], Readable embedded width stmt)
    (hupdate : SaysUpdate embedded width update last) :
    SaysFurther embedded width keyword (optionalReader keyword)
      (writeOption ctx update (keyword ++ ":") body) (rereadOption ctx last body) := by
  cases body with
  | none => exact says_noBlock keyword
  | some body => exact says_someBlock hkeyword (says_rereadBlock h hupdate)

theorem says_rereadHandler {handler : Option (Handler Stmt)}
    (hname : ∀ text ∈ handler.bind (·.name), isName text = true)
    (h : ∀ stmt ∈ (handler.map (·.body)).getD [], Readable embedded width stmt)
    (hupdate : SaysUpdate embedded width update last) :
    SaysFurther embedded width "except" handlerReader (writeHandler ctx update handler)
      (rereadHandler ctx last handler) := by
  cases handler with
  | none => exact says_noHandler
  | some handler =>
      exact says_handler hname (says_rereadBlock h hupdate)

section Compound

variable {condition : Expr} {pos : Pos} {name : String}
  (h : ∀ stmt ∈ body, Readable embedded width stmt)

include h

theorem readable_class {base : Option String}
    (hwords : ∀ text ∈ name :: base.toList, isName text = true) :
    Readable embedded width (.classDef name base body pos) := by
  intro ctx update last hupdate
  obtain ⟨hname, hbase⟩ := List.forall_mem_cons.mp hwords
  exact says_class hname (fun text htext => hbase text (Option.mem_toList.mpr htext))
    (text_classHead name base) (says_rereadBlock h hupdate)

theorem readable_function {params : List Parameter}
    (hwords : ∀ text ∈ name :: params.map (·.name), isName text = true)
    (hdefaults : ∀ e ∈ params.filterMap (·.default), Sound embedded (written e)) :
    Readable embedded width (.functionDef name params body pos) := by
  intro ctx update last hupdate
  obtain ⟨hname, hnames⟩ := List.forall_mem_cons.mp hwords
  have hwritten : isName (writtenName ctx name) = true := by
    unfold writtenName
    split
    · decide
    · exact hname
  have hsound : ∀ param ∈ writtenParams ctx params, param.Sound embedded := by
    intro param hparam
    rcases List.mem_append.mp hparam with hself | hown
    · split at hself
      · obtain rfl := List.mem_singleton.mp hself
        exact ⟨by decide, by simp [WrittenParam.default?]⟩
      · cases hself
    · obtain ⟨own, hmem, rfl⟩ := List.mem_map.mp hown
      exact sound_param (hnames own.name (List.mem_map_of_mem hmem)) fun e he =>
        hdefaults e (List.mem_filterMap.mpr ⟨own, hmem, he⟩)
  exact says_function hwritten hsound (text_functionHead ctx name params)
    (says_rereadBlock h hupdate)

theorem readable_while (hcondition : Sound embedded (written condition)) :
    Readable embedded width (.whileDo condition body pos) := by
  intro ctx update last _
  exact says_while hcondition (toList_head rfl condition) (says_rereadBlock h .none)

theorem readable_for {target : String} {iteration : Iteration} (htarget : isName target = true)
    (hformed : iteration.isFormed = true) (hexprs : ∀ e ∈ iteration.exprs, Sound embedded (written e)) :
    Readable embedded width (.forIn target iteration body pos) := by
  intro ctx update last _
  exact says_for htarget (sound_iterated hexprs)
    (text_forHead target (text_writtenIteration hformed)) (says_rereadBlock h .none)

theorem readable_if {elifs : List (ElifClause Stmt)} {orElse : Option (List Stmt)}
    (hexprs : ∀ e ∈ condition :: elifs.map (·.condition), Sound embedded (written e))
    (hmore : ∀ stmt ∈ elifs.flatMap (·.body), Readable embedded width stmt)
    (hlast : ∀ stmt ∈ orElse.getD [], Readable embedded width stmt) :
    Readable embedded width (.ifElse condition body elifs orElse pos) := by
  intro ctx update last hupdate
  obtain ⟨hcondition, helifs⟩ := List.forall_mem_cons.mp hexprs
  exact says_if hcondition (toList_head rfl condition) (says_rereadBlock h hupdate)
    (says_rereadElifs helifs hmore hupdate) (says_rereadOption (by decide) hlast hupdate)

theorem readable_try {handler : Option (Handler Stmt)} {cleanup : Option (List Stmt)}
    (hsome : (handler.isSome || cleanup.isSome) = true)
    (hname : ∀ text ∈ handler.bind (·.name), isName text = true)
    (hmore : ∀ stmt ∈ (handler.map (·.body)).getD [], Readable embedded width stmt)
    (hlast : ∀ stmt ∈ cleanup.getD [], Readable embedded width stmt) :
    Readable embedded width (.tryCatch body handler cleanup pos) := by
  intro ctx update last hupdate
  have hneeded : ((rereadHandler ctx last handler).isNone &&
      (rereadOption ctx last cleanup).isNone) = false := by
    cases handler <;> cases cleanup <;> simp_all [rereadHandler, rereadOption]
  exact says_try (says_rereadBlock h hupdate) (says_rereadHandler hname hmore hupdate)
    (says_rereadOption (by decide) hlast hupdate) hneeded

-- A loop of three clauses: its start, and a loop at whose end and in front of whose `continue` its
-- update stands.
theorem readable_forClauses {init final : Option Stmt} {test : Option Expr}
    (htest : ∀ e ∈ test, Sound embedded (written e))
    (hinit : ∀ stmt ∈ init, Readable embedded width stmt)
    (hfinal : ∀ stmt ∈ final, Readable embedded width stmt) :
    Readable embedded width (.forClauses init test final body pos) := by
  intro ctx update last hupdate
  have hfirst : Says embedded width (writeInit ctx update init) (rereadInit ctx last init) := by
    cases init with
    | none => exact says_nil
    | some init => exact hinit init rfl hupdate
  have hcondition : Sound embedded (written (test.getD (.boolean true pos))) := by
    cases test with
    | none => exact sound_of_isSpelled rfl
    | some test => exact htest test rfl
  have hhead : (exprPhrase "while " (test.getD (.boolean true pos)) ":").text.toList = _ :=
    toList_head (show "while ".toList = "while".toList ++ [' '] from rfl) _
  rw [writeStmt_forClauses, Fragment.append_assoc, reread_forClauses]
  refine hfirst.append (says_while hcondition hhead (Says.block ?_ ?_))
  · cases final with
    | none =>
        refine (says_rereadAll h .none).append ?_
        cases body with
        | nil => exact says_pass
        | cons => exact says_nil
    | some final =>
        have hinner : SaysUpdate embedded width (updateLines (some final))
            (some fun ctx => reread ctx none final) := .some fun ctx => hfinal final rfl .none
        exact (says_rereadAll h hinner).append (hfinal final rfl hupdate)
  · cases body <;> cases final <;> simp [rereadAll, reread_ne_nil]

end Compound

section Simple

variable {pos : Pos} {value : Option Expr}

theorem readable_import {path : String} {kind : ImportKind}
    (hwords : ∀ text ∈ kind.words, isName text = true)
    (h : isCarried (.imports path kind pos) = true) :
    Readable embedded width (.imports path kind pos) := by
  intro ctx update last _
  obtain ⟨first, more, hnames, hpath⟩ := exists_pathNames path
  have himport : "import ".toList = "import".toList ++ [' '] := rfl
  have has : " as ".toList = ' ' :: ("as".toList ++ [' ']) := rfl
  have hfrom : "from ".toList = "from".toList ++ [' '] := rfl
  have hbetween : " import ".toList = ' ' :: ("import".toList ++ [' ']) := rfl
  have hcomma : ", ".toList = [',', ' '] := rfl
  rw [isCarried, Bool.and_eq_true] at h
  obtain ⟨hpaths, hsome⟩ := h
  rw [hnames, List.all_cons, Bool.and_eq_true, List.all_eq_true] at hpaths
  rw [writeStmt, reread, rereadKind.eq_def, hnames]
  cases kind with
  | whole other =>
      refine says_import (.plain (writeImport path (.whole other))) hpaths.1 hpaths.2 ?_ ?_
      · intro found hfound
        split at hfound
        · cases hfound
        · exact hwords found (Option.mem_toList.mpr hfound)
      · cases other with
        | none => simp [Phrase.plain, writeImport, himport, hpath, otherText]
        | some other =>
            by_cases hsame : other = moduleName path
            · simp [Phrase.plain, writeImport, hsame, himport, hpath, otherText]
            · simp [Phrase.plain, writeImport, hsame, himport, hpath, otherText, has]
  | names imported =>
      cases imported with
      | nil => cases hsome
      | cons imported others =>
          have himported : ∀ found ∈ imported :: others, isImportable found = true := by
            intro found hfound
            have hfound : ∀ text ∈ found.words, isName text = true := fun text htext =>
              hwords text (List.mem_flatMap.mpr ⟨found, hfound, htext⟩)
            simpa [isImportable, ImportedName.words, Option.all_eq_true] using hfound
          refine says_importNames (.plain (writeImport path (.names (imported :: others)))) hpaths.1
            hpaths.2 himported ?_
          simp only [Phrase.plain, writeImport, String.toList_append, String.toList_intercalate,
            hfrom, hpath, hbetween, hcomma, List.map_map, Function.comp_def, commaTexts,
            List.append_assoc, List.cons_append, List.nil_append]

theorem readable_assign {targets : List Expr} {declaration : Option Declaration}
    (hexprs : ∀ e ∈ targets ++ value.toList, Sound embedded (written e)) (hne : targets ≠ [])
    (h : isCarried (.assign targets value declaration pos) = true) :
    Readable embedded width (.assign targets value declaration pos) := by
  intro ctx update last _
  obtain ⟨htargets, hprint⟩ := Bool.and_eq_true_iff.mp h
  rw [List.all_eq_true] at htargets
  obtain ⟨hsound, hvalue⟩ := List.forall_mem_append.mp hexprs
  cases targets with
  | nil => contradiction
  | cons first targets =>
      obtain ⟨hfirst, hothers⟩ := List.forall_mem_cons.mp hsound
      obtain ⟨htarget, htargets⟩ := List.forall_mem_cons.mp htargets
      have hmore : ∀ target ∈ targets.map written,
          Sound embedded target ∧ target.value.isAssignable = true := by
        intro target htarget
        obtain ⟨e, he, rfl⟩ := List.mem_map.mp htarget
        exact ⟨hothers e he, isAssignable_written (htargets e he)⟩
      have hwritten : Sound embedded (writtenValue value) ∧
          (writeValue value).text.toList = (writtenValue value).text := by
        cases value with
        | some value => exact ⟨hvalue value (by simp), text_plain value⟩
        | none => exact ⟨sound_keyword (by simp), rfl⟩
      exact says_assign (simple_of_sound hfirst hprint) (isAssignable_written htarget)
        hmore hwritten.1 (text_assign first targets hwritten.2)

theorem readable_return (h : ∀ e ∈ value, Sound embedded (written e)) :
    Readable embedded width (.returns value pos) := by
  intro ctx update last _
  cases value with
  | none => exact says_return
  | some value => exact says_returned (h value rfl) (text_returned value)

theorem readable_print {args : List Expr} (h : ∀ arg ∈ args, Sound embedded (written arg)) :
    Readable embedded width (.print args pos) := by
  intro ctx update last _
  exact says_print (List.forall_mem_map.mpr h) (text_print args)

theorem readable_continue : Readable embedded width (.continues pos) := by
  intro ctx update last hupdate
  have hcontinue : Says embedded width (.line "continue") [.continues .start] :=
    says_word (by simp)
  rw [writeStmt.eq_def, reread.eq_def]
  cases hupdate with
  | none => exact says_nil.append hcontinue
  | some hlines => exact (hlines ctx).append hcontinue

end Simple

-- The lines of a statement are read back if those of the statements in it are.
theorem readable_step {stmt : Stmt} (hstmt : Acceptable embedded stmt)
    (h : ∀ child ∈ stmt.children, Readable embedded width child) :
    Readable embedded width stmt := by
  obtain ⟨hwords, hexprs, hformed, hcarried⟩ := hstmt
  cases stmt with
  | imports path kind pos => exact readable_import hwords hcarried
  | classDef name base body pos => exact readable_class h hwords
  | functionDef name params body pos => exact readable_function h hwords hexprs
  | ifElse condition body elifs orElse pos =>
      simp only [Stmt.children, List.forall_mem_append] at h
      exact readable_if h.1.1 hexprs h.1.2 h.2
  | forIn target iteration body pos =>
      exact readable_for h (hwords target (.head _)) hformed hexprs
  | forClauses init test last body pos =>
      simp only [Stmt.children, List.forall_mem_append, Option.mem_toList] at h
      exact readable_forClauses h.2 (by simpa [Stmt.exprs] using hexprs) h.1.1 h.1.2
  | whileDo condition body pos => exact readable_while h (hexprs condition (.head _))
  | tryCatch body handler cleanup pos =>
      simp only [Stmt.children, List.forall_mem_append] at h
      exact readable_try h.1.1 hformed (by simpa [Stmt.words] using hwords) h.1.2 h.2
  | returns value pos => exact readable_return (by simpa [Stmt.exprs] using hexprs)
  | assign targets value declaration pos =>
      refine readable_assign hexprs ?_ hcarried
      rintro rfl
      cases hformed
  | augAssign target op value pos =>
      obtain ⟨htarget, hprint⟩ := Bool.and_eq_true_iff.mp hcarried
      intro ctx update last _
      exact says_augmented (simple_of_sound (hexprs target (.head _)) hprint)
        (isAssignable_written htarget) (hexprs value (.tail _ (.head _))) op
        (text_augmented target value op)
  | print args pos => exact readable_print hexprs
  | expr value pos =>
      intro ctx update last _
      exact says_expr (simple_of_sound (hexprs value (.head _)) hcarried) (text_plain value)
  | pass pos =>
      intro ctx update last _
      exact says_pass
  | breaks pos =>
      intro ctx update last _
      exact says_word (by simp)
  | continues pos => exact readable_continue

omit [Fact (0 < width)] in
theorem readable (hwidth : 0 < width) {p : Stmt → Bool}
    (hp : ∀ stmt, p stmt = true → Acceptable embedded stmt) (stmt : Stmt) (h : stmt.all p = true) :
    Readable embedded width stmt := by
  have : Fact (0 < width) := ⟨hwidth⟩
  induction stmt, h using Stmt.all_induct with
  | step stmt hstmt _ hchildren => exact readable_step (hp stmt hstmt) hchildren

end Statements

-- The text of a program of such statements is read as they are written.
theorem parse_render_of_readable (module : Module) {width : Nat} (hwidth : 0 < width)
    (h : ∀ stmt ∈ module.body, Readable readSource width stmt) :
    ∃ found, Diglot.parse .pythonScript ((write .pythonScript module).render width) = .ok found ∧
      placeless found.body = placeless (rereadAll .toplevel none module.body) :=
  parse_of_says hwidth (says_rereadAll h .none)

-- A statement of the braced notation has what it needs.
theorem acceptable_of_parsed {stmt : Stmt} (h : isAcceptable stmt = true)
    (hworded : stmt.isWorded isUnbroken Braced.isProper = true)
    (hshaped : stmt.isShaped .javaScript = true) : Acceptable readSource stmt := by
  simp only [isAcceptable, Stmt.isWorded, Stmt.isShaped, Bool.and_eq_true, List.all_eq_true] at *
  exact ⟨h.1.1, fun e he => sound_of_worded (h.1.2 e he) (hworded.2 e he) (hshaped.2 e he),
    hshaped.1.1, h.2⟩

theorem indent_pos_of_validate {config : Config} (h : config.validate = .ok ()) :
    0 < config.indent .pythonScript := by
  have hchecked : ∀ {field value}, Config.checkIndent field value = .ok () → 1 ≤ value := by
    intro field value hcheck
    unfold Config.checkIndent at hcheck
    split at hcheck
    · rename_i hvalue
      exact hvalue.1
    · cases hcheck
  rw [Config.validate] at h
  cases hfirst : Config.checkIndent "js_indent" config.jsIndent with
  | error error =>
      rw [hfirst] at h
      cases h
  | ok =>
      rw [hfirst] at h
      exact hchecked h

-- What a program of acceptable statements is carried over to is accepted itself.
theorem parse_transpile_of_acceptable {config : Config} {source : String} {module : Module}
    (hconfig : config.validate = .ok ()) (hparse : Diglot.parse .javaScript source = .ok module)
    (h : ∀ stmt ∈ module.body, stmt.all isAcceptable = true) :
    ∃ text found, transpile config .javaScript source = .ok text ∧
      Diglot.parse .pythonScript text = .ok found := by
  obtain ⟨tokens, limits, -, hmodule⟩ := isModule_of_parse hparse
  have hparsed : ∀ stmt ∈ module.body, stmt.all (fun stmt => isAcceptable stmt &&
      (stmt.isWorded isUnbroken Braced.isProper && stmt.isShaped .javaScript)) = true :=
    fun stmt hstmt => Stmt.all_and.mpr ⟨h stmt hstmt, Stmt.all_and.mpr
      ⟨Braced.worded_of_parse hparse stmt hstmt, (hmodule.body.stmts stmt hstmt).shaped⟩⟩
  have hwidth := indent_pos_of_validate hconfig
  have hreadable : ∀ stmt ∈ module.body, Readable readSource (config.indent .pythonScript) stmt := by
    refine fun stmt hstmt => readable hwidth (fun stmt hstmt => ?_) stmt (hparsed stmt hstmt)
    obtain ⟨hacceptable, hrest⟩ := Bool.and_eq_true_iff.mp hstmt
    obtain ⟨hworded, hshaped⟩ := Bool.and_eq_true_iff.mp hrest
    exact acceptable_of_parsed hacceptable hworded hshaped
  obtain ⟨found, hfound, -⟩ := parse_render_of_readable module hwidth hreadable
  refine ⟨_, found, ?_, hfound⟩
  simp [transpile, hconfig, hparse, render, Dialect.target]

-- A class behind an import, a loop of three clauses with a `continue` in it, and a template.
def importingClass : String :=
  "import \x7b a as b \x7d from './lib/m.js';\n" ++
    "class A extends B \x7b constructor(x) \x7b super(x); this.x = x; \x7d \x7d\n" ++
    "for (let i = 0; i <= 3; i++) \x7b if (i) \x7b continue; \x7d xs[i] = xs.length; \x7d\n" ++
    "x = `$\x7bi\x7d of\t$\x7bxs.length\x7d`;"

theorem parse_transpile_of_acceptable_class :
    ∃ text found, transpile .default .javaScript importingClass = .ok text ∧
      Diglot.parse .pythonScript text = .ok found := by
  have hacceptable : (Diglot.parse .javaScript importingClass).toOption.any
      (·.body.all (·.all isAcceptable)) = true := by decide +kernel
  cases hparse : Diglot.parse .javaScript importingClass with
  | error failure =>
      rw [hparse] at hacceptable
      cases hacceptable
  | ok module =>
      rw [hparse] at hacceptable
      exact parse_transpile_of_acceptable rfl hparse (List.all_eq_true.mp hacceptable)

-- The length of a list can be set in the one notation and not in the other.
theorem parse_lengthAssigned :
    (transpile .default .javaScript "xs.length = 0;").toOption = some "len(xs) = 0\n" ∧
      (Diglot.parse .pythonScript "len(xs) = 0\n").toOption.isNone = true := by
  decide +kernel

end Diglot.Indented
