import Diglot.Proofs.Indented.Tidy

namespace Diglot.Indented

section Phrases

variable {opening closing path : String} {e : Expr} {c : Char}

theorem tidy_exprPhrase (hopening : IsTidy opening) (h : e.Worded isUnbroken Braced.isProper)
    (hclosing : IsSmooth closing) : IsTidy (exprPhrase opening e closing).text :=
  (hopening.append (trim_writeExpr h).smooth).append hclosing

-- A phrase that starts with its expression.
theorem tidy_bare (h : e.Worded isUnbroken Braced.isProper) (hclosing : IsSmooth closing) :
    IsTidy (exprPhrase "" e closing).text := by
  rw [exprPhrase, String.empty_append]
  exact (trim_writeExpr h).append hclosing

theorem tidy_listed {phrases : List Phrase} (hopening : IsTidy opening)
    (h : ∀ phrase ∈ phrases, IsSmooth phrase.text) (hclosing : IsSmooth closing) :
    IsTidy (Phrase.listed opening phrases closing).text :=
  (hopening.append (smooth_listed (List.forall_mem_map.mpr h))).append hclosing

theorem mem_of_mem_dropHere {path : List Char} (h : c ∈ dropHere path) : c ∈ path := by
  fun_induction dropHere path with
  | case1 rest ih => exact .tail _ (.tail _ (ih h))
  | case2 => exact h

theorem mem_of_mem_dropEnd? {ending : String} {text found : List Char}
    (hfound : dropEnd? ending text = some found) (h : c ∈ found) : c ∈ text := by
  unfold dropEnd? at hfound
  split at hfound
  · cases hfound
    exact List.mem_of_mem_take h
  · cases hfound

-- A module's name has the characters of its path, and points.
theorem smooth_moduleName (h : ∀ c ∈ path.toList, c ≠ '\n' ∧ c ≠ '\\') :
    Smooth (moduleName path).toList := by
  have hchars : ∀ c ∈ ((dropEnd? ".js" (dropHere path.toList)).or
      (dropEnd? ".pjs" (dropHere path.toList))).getD (dropHere path.toList), c ∈ path.toList := by
    intro c hc
    refine mem_of_mem_dropHere ?_
    cases hjs : dropEnd? ".js" (dropHere path.toList) with
    | some found =>
        rw [hjs] at hc
        exact mem_of_mem_dropEnd? hjs hc
    | none =>
        rw [hjs, Option.none_or] at hc
        cases hpjs : dropEnd? ".pjs" (dropHere path.toList) with
        | some found =>
            rw [hpjs] at hc
            exact mem_of_mem_dropEnd? hpjs hc
        | none =>
            rw [hpjs] at hc
            exact hc
  rw [moduleName, String.toList_ofList]
  refine smooth_of_chars (List.forall_mem_map.mpr fun c hc => ?_)
  split
  · exact ⟨by decide, by decide⟩
  · exact h c (hchars c hc)

theorem smooth_importedText {imported : ImportedName}
    (h : ∀ text ∈ imported.words, isUnbroken text = true) : IsSmooth (importedText imported) := by
  obtain ⟨name, other⟩ := imported
  obtain ⟨hname, hother⟩ := List.forall_mem_cons.mp h
  have hname := (trim_of_isUnbroken hname).smooth
  cases other with
  | none => exact hname
  | some other =>
      have hother := (trim_of_isUnbroken (hother other (by simp))).smooth
      exact (hname.append (by decide)).append hother

theorem tidy_writeImport {kind : ImportKind} (hpath : ∀ c ∈ path.toList, c ≠ '\n' ∧ c ≠ '\\')
    (hkind : ∀ text ∈ kind.words, isUnbroken text = true) :
    Tidy (writeImport path kind).toList := by
  have hopening : ∀ {opening}, IsTidy opening → Tidy (opening ++ moduleName path).toList := by
    intro opening h
    rw [String.toList_append]
    exact h.tidy.append (smooth_moduleName hpath)
  unfold writeImport
  dsimp only
  split
  · rename_i other
    have hother := (trim_of_isUnbroken (hkind other (by simp [ImportKind.words]))).smooth
    split
    · exact hopening (by decide)
    · rw [String.append_assoc, String.toList_append]
      exact (hopening (by decide)).append (IsSmooth.append (by decide) hother).line
  · exact hopening (by decide)
  · rename_i imported
    have hnames : ∀ text ∈ imported.map importedText, IsSmooth text :=
      List.forall_mem_map.mpr fun name hname => smooth_importedText fun text htext =>
        hkind text (List.mem_flatMap.mpr ⟨name, hname, htext⟩)
    rw [String.append_assoc, String.toList_append]
    exact (hopening (by decide)).append (IsSmooth.append (by decide) (smooth_listed hnames)).line

theorem smooth_writeIteration {iteration : Iteration}
    (h : ∀ e ∈ iteration.exprs, e.Worded isUnbroken Braced.isProper) :
    IsSmooth (writeIteration iteration).text := by
  have hpart : ∀ e ∈ iteration.exprs, IsSmooth (exprPhrase "" e "").text := fun e he =>
    (tidy_bare (h e he) (by decide)).smooth
  cases iteration with
  | each iterable => exact hpart iterable (by simp [Iteration.exprs])
  | range start stop step =>
      refine (tidy_listed (by decide) ?_ (by decide)).smooth
      simp only [Iteration.exprs, List.forall_mem_append, List.forall_mem_cons] at hpart ⊢
      refine ⟨?_, hpart.2.1, ?_⟩
      · cases start with
        | some start => simpa using hpart.1
        | none =>
            cases step with
            | some step =>
                refine List.forall_mem_singleton.mpr ?_
                exact (by decide : IsSmooth "0")
            | none => simp
      · cases step with
        | some step => simpa using hpart.2.2
        | none => simp

theorem smooth_writeParam {param : Parameter} (hname : isUnbroken param.name = true)
    (h : ∀ e ∈ param.default, e.Worded isUnbroken Braced.isProper) : IsSmooth (writeParam param).text := by
  have hname := trim_of_isUnbroken hname
  unfold writeParam
  split
  · split
    · rename_i default hdefault
      exact (tidy_exprPhrase (hname.append (by decide)) (h default hdefault) (by decide)).smooth
    · exact hname.smooth
  · exact IsSmooth.append (by decide) hname.smooth
  · exact IsSmooth.append (by decide) hname.smooth

theorem tidy_functionHead (ctx : Context) {name : String} {params : List Parameter}
    (hname : isUnbroken name = true)
    (hparams : ∀ param ∈ params, IsSmooth (writeParam param).text) :
    IsTidy (functionHead ctx name params).text := by
  have hname : IsSmooth (if ctx.inClass && name = "constructor" then "__init__" else name) := by
    split
    · decide
    · exact (trim_of_isUnbroken hname).smooth
  refine tidy_listed ((IsTidy.append (by decide) hname).append (by decide)) ?_ (by decide)
  refine List.forall_mem_append.mpr ⟨?_, List.forall_mem_map.mpr hparams⟩
  split
  · exact List.forall_mem_singleton.mpr (by decide : IsSmooth "self")
  · simp

theorem tidy_assigned {targets : List Expr} {value : Option Expr}
    (htargets : ∀ e ∈ targets, e.Worded isUnbroken Braced.isProper)
    (hvalue : ∀ e ∈ value, e.Worded isUnbroken Braced.isProper) :
    Tidy (Phrase.joined (targets.map (exprPhrase "" · " = ") ++ [writeValue value])).text.toList := by
  have hlast : IsTidy (writeValue value).text := by
    cases value with
    | none => exact (by decide : IsTidy "None")
    | some value => exact tidy_bare (hvalue value rfl) (by decide)
  rw [Phrase.joined, String.toList_join]
  induction targets with
  | nil => simpa using hlast.tidy
  | cons target targets ih =>
      obtain ⟨htarget, htargets⟩ := List.forall_mem_cons.mp htargets
      have hfirst : IsTidy (exprPhrase "" target " = ").text := tidy_bare htarget (by decide)
      exact hfirst.tidy.append (ih htargets).toSmooth

end Phrases

section Statements

-- All lines of a fragment are tidy.
def TidyLines (fragment : Fragment) : Prop := ∀ line ∈ fragment.lines, Tidy line.text.toList

theorem tidyLines_empty : TidyLines .empty := fun _ h => by cases h

theorem TidyLines.append {first second : Fragment} (h : TidyLines first) (h' : TidyLines second) :
    TidyLines (first ++ second) := List.forall_mem_append.mpr ⟨h, h'⟩

theorem TidyLines.indent {fragment : Fragment} (h : TidyLines fragment) :
    TidyLines fragment.indent := List.forall_mem_map.mpr h

theorem tidyLines_line {text : String} (h : IsTidy text) : TidyLines (.line text) :=
  List.forall_mem_singleton.mpr h.tidy

theorem tidyLines_phrase {phrase : Phrase} (h : IsTidy phrase.text) : TidyLines (.phrase phrase) :=
  List.forall_mem_singleton.mpr h.tidy

-- What a loop does at the end of each round is written tidily everywhere.
def TidyUpdate (update : Option Update) : Prop := ∀ last ∈ update, ∀ ctx, TidyLines (last ctx)

theorem tidyUpdate_none : TidyUpdate none := fun _ h => by cases h

theorem tidyUpdate_some {last : Update} (h : ∀ ctx, TidyLines (last ctx)) :
    TidyUpdate (some last) := fun _ hlast => Option.some.inj hlast ▸ h

-- A statement is written tidily wherever it stands.
def TidyStmt (stmt : Stmt) : Prop :=
  ∀ ctx update, TidyUpdate update → TidyLines (writeStmt ctx update stmt)

variable {ctx : Context} {update : Option Update} {body : List Stmt}
  {elifs : List (ElifClause Stmt)} {name : String} {pos : Pos}

theorem tidyLines_writeStmts (h : ∀ stmt ∈ body, TidyStmt stmt) (hupdate : TidyUpdate update) :
    TidyLines (writeStmts ctx update body) := by
  induction body with
  | nil => exact tidyLines_empty
  | cons first rest ih =>
      obtain ⟨hfirst, hrest⟩ := List.forall_mem_cons.mp h
      rw [writeStmts]
      exact (hfirst ctx update hupdate).append (ih hrest)

theorem tidyLines_writeBlock (h : ∀ stmt ∈ body, TidyStmt stmt) (hupdate : TidyUpdate update) :
    TidyLines (writeBlock body (writeStmts ctx update body)) := by
  unfold writeBlock
  split
  · exact (tidyLines_line (by decide)).indent
  · exact (tidyLines_writeStmts h hupdate).indent

theorem tidyLines_writeOption {body : Option (List Stmt)} {head : String} (hhead : IsTidy head)
    (h : ∀ stmt ∈ body.getD [], TidyStmt stmt) (hupdate : TidyUpdate update) :
    TidyLines (writeOption ctx update head body) := by
  cases body with
  | none => exact tidyLines_empty
  | some body =>
      rw [writeOption]
      exact (tidyLines_line hhead).append (tidyLines_writeBlock h hupdate)

theorem tidyLines_writeHandler {handler : Option (Handler Stmt)}
    (hname : ∀ text ∈ handler.bind (·.name), isUnbroken text = true)
    (h : ∀ stmt ∈ (handler.map (·.body)).getD [], TidyStmt stmt) (hupdate : TidyUpdate update) :
    TidyLines (writeHandler ctx update handler) := by
  cases handler with
  | none => exact tidyLines_empty
  | some handler =>
      obtain ⟨name, body, pos⟩ := handler
      rw [writeHandler]
      refine (tidyLines_line ?_).append (tidyLines_writeBlock h hupdate)
      cases name with
      | none => decide
      | some name =>
          have hname := (trim_of_isUnbroken (hname name (by simp))).smooth
          exact (IsTidy.append (by decide) hname).append (by decide)

theorem tidyLines_writeElifs (hconditions : ∀ e ∈ elifs.map (·.condition), e.Worded isUnbroken Braced.isProper)
    (h : ∀ stmt ∈ elifs.flatMap (·.body), TidyStmt stmt) (hupdate : TidyUpdate update) :
    TidyLines (writeElifs ctx update elifs) := by
  induction elifs with
  | nil => exact tidyLines_empty
  | cons first rest ih =>
      obtain ⟨condition, body, pos⟩ := first
      obtain ⟨hcondition, hconditions⟩ := List.forall_mem_cons.mp hconditions
      obtain ⟨hbody, hrest⟩ := List.forall_mem_append.mp h
      have hhead := tidy_exprPhrase (by decide : IsTidy "elif ") hcondition (by decide : IsSmooth ":")
      rw [writeElifs]
      exact ((tidyLines_phrase hhead).append (tidyLines_writeBlock hbody hupdate)).append
        (ih hconditions hrest)

-- Whether a statement, if it is an import, gives a path without line feeds and backslashes.
def hasPlainPath : Stmt → Bool
  | .imports path _ _ => path.toList.all fun c => c != '\n' && c != '\\'
  | _ => true

-- Statements that hold others, whose names stay in their lines.

theorem tidyLines_classDef {base : Option String}
    (hwords : ∀ text ∈ name :: base.toList, isUnbroken text = true)
    (hbody : ∀ stmt ∈ body, TidyStmt stmt) (hupdate : TidyUpdate update) :
    TidyLines (writeStmt ctx update (.classDef name base body pos)) := by
  obtain ⟨hname, hbase⟩ := List.forall_mem_cons.mp hwords
  have hhead := IsTidy.append (by decide : IsTidy "class ") (trim_of_isUnbroken hname).smooth
  have hblock : TidyLines (writeBlock body (writeStmts .classBody update body)) :=
    tidyLines_writeBlock hbody hupdate
  rw [writeStmt.eq_def]
  cases base with
  | none => exact (tidyLines_line ((hhead.append (by decide)).append (by decide))).append hblock
  | some base =>
      have hbase := (trim_of_isUnbroken (hbase base (by simp))).smooth
      have hbases : IsSmooth ("(" ++ base ++ ")") :=
        (IsSmooth.append (by decide) hbase).append (by decide)
      exact (tidyLines_line ((hhead.append hbases).append (by decide))).append hblock

theorem tidyLines_functionDef {params : List Parameter}
    (hwords : ∀ text ∈ name :: params.map (·.name), isUnbroken text = true)
    (hdefaults : ∀ e ∈ params.filterMap (·.default), e.Worded isUnbroken Braced.isProper)
    (hbody : ∀ stmt ∈ body, TidyStmt stmt) (hupdate : TidyUpdate update) :
    TidyLines (writeStmt ctx update (.functionDef name params body pos)) := by
  obtain ⟨hname, hnames⟩ := List.forall_mem_cons.mp hwords
  have hparams : ∀ param ∈ params, IsSmooth (writeParam param).text := fun param hparam =>
    smooth_writeParam (hnames param.name (List.mem_map_of_mem hparam)) fun e he =>
      hdefaults e (List.mem_filterMap.mpr ⟨param, hparam, he⟩)
  rw [writeStmt]
  exact (tidyLines_phrase (tidy_functionHead ctx hname hparams)).append
    (tidyLines_writeBlock hbody hupdate)

theorem tidyLines_ifElse {condition : Expr} {orElse : Option (List Stmt)}
    (hconditions : ∀ e ∈ condition :: elifs.map (·.condition), e.Worded isUnbroken Braced.isProper)
    (hchildren : ∀ stmt ∈ body ++ elifs.flatMap (·.body) ++ orElse.getD [], TidyStmt stmt)
    (hupdate : TidyUpdate update) :
    TidyLines (writeStmt ctx update (.ifElse condition body elifs orElse pos)) := by
  obtain ⟨hcondition, hconditions⟩ := List.forall_mem_cons.mp hconditions
  simp only [List.forall_mem_append] at hchildren
  obtain ⟨⟨hbody, helifs⟩, horElse⟩ := hchildren
  rw [writeStmt]
  have hhead := tidy_exprPhrase (by decide : IsTidy "if ") hcondition (by decide : IsSmooth ":")
  exact (((tidyLines_phrase hhead).append (tidyLines_writeBlock hbody hupdate)).append
    (tidyLines_writeElifs hconditions helifs hupdate)).append
      (tidyLines_writeOption (by decide) horElse hupdate)

theorem tidyLines_forIn {target : String} {iteration : Iteration}
    (htarget : isUnbroken target = true) (hexprs : ∀ e ∈ iteration.exprs, e.Worded isUnbroken Braced.isProper)
    (hbody : ∀ stmt ∈ body, TidyStmt stmt) :
    TidyLines (writeStmt ctx update (.forIn target iteration body pos)) := by
  have htarget := (trim_of_isUnbroken htarget).smooth
  have hhead : IsTidy ("for " ++ target ++ " in " ++ (writeIteration iteration).text ++ ":") :=
    (((IsTidy.append (by decide) htarget).append (by decide)).append
      (smooth_writeIteration hexprs)).append (by decide)
  rw [writeStmt]
  exact (tidyLines_phrase hhead).append (tidyLines_writeBlock hbody tidyUpdate_none)

-- The last clause of a loop is written at the end of its body and in front of each `continue`.
theorem tidyLines_forClauses {init last : Option Stmt} {test : Option Expr}
    (htest : ∀ e ∈ test.toList, e.Worded isUnbroken Braced.isProper)
    (hchildren : ∀ stmt ∈ init.toList ++ last.toList ++ body, TidyStmt stmt)
    (hupdate : TidyUpdate update) :
    TidyLines (writeStmt ctx update (.forClauses init test last body pos)) := by
  simp only [List.forall_mem_append] at hchildren
  obtain ⟨⟨hinit, hlast⟩, hbody⟩ := hchildren
  rw [writeStmt.eq_def]
  refine ((TidyLines.append ?_ (tidyLines_phrase ?_)).append (TidyLines.indent
    (TidyLines.append (tidyLines_writeStmts hbody ?_) ?_)))
  · cases init with
    | none => exact tidyLines_empty
    | some init => exact hinit init (by simp) ctx update hupdate
  · cases test with
    | none => exact (by decide : IsTidy "while True:")
    | some test => exact tidy_exprPhrase (by decide) (htest test (by simp)) (by decide)
  · cases last with
    | none => exact tidyUpdate_none
    | some last => exact tidyUpdate_some fun ctx => hlast last (by simp) ctx none tidyUpdate_none
  · cases last with
    | none =>
        dsimp only
        split
        · exact tidyLines_line (by decide)
        · exact tidyLines_empty
    | some last => exact hlast last (by simp) ctx update hupdate

-- A statement whose names and paths stay in their lines.
theorem tidyStmt_of_worded {stmt : Stmt} (h : stmt.Worded isUnbroken Braced.isProper)
    (hpaths : stmt.all hasPlainPath = true) : TidyStmt stmt := by
  induction stmt using Stmt.children_induct with
  | step stmt ih =>
      obtain ⟨hwords, hexprs, hinner⟩ := Stmt.worded_iff.mp h
      obtain ⟨hpath, hinnerPaths⟩ := Stmt.all_iff.mp hpaths
      have hchildren : ∀ child ∈ stmt.children, TidyStmt child := fun child hchild =>
        ih child hchild (hinner child hchild) (hinnerPaths child hchild)
      intro ctx update hupdate
      cases stmt with
      | imports path kind pos =>
          rw [writeStmt]
          exact List.forall_mem_singleton.mpr
            (tidy_writeImport (by simpa [hasPlainPath] using hpath) hwords)
      | classDef name base body pos => exact tidyLines_classDef hwords hchildren hupdate
      | functionDef name params body pos =>
          exact tidyLines_functionDef hwords hexprs hchildren hupdate
      | ifElse condition body elifs orElse pos => exact tidyLines_ifElse hexprs hchildren hupdate
      | forIn target iteration body pos =>
          exact tidyLines_forIn (hwords target (by simp [Stmt.words])) hexprs hchildren
      | forClauses init test last body pos => exact tidyLines_forClauses hexprs hchildren hupdate
      | whileDo condition body pos =>
          have hcondition := hexprs condition (by simp [Stmt.exprs])
          rw [writeStmt]
          exact (tidyLines_phrase (tidy_exprPhrase (by decide) hcondition (by decide))).append
            (tidyLines_writeBlock hchildren tidyUpdate_none)
      | tryCatch body handler cleanup pos =>
          simp only [Stmt.children, List.forall_mem_append] at hchildren
          obtain ⟨⟨hbody, hhandler⟩, hcleanup⟩ := hchildren
          rw [writeStmt]
          exact (((tidyLines_line (by decide)).append (tidyLines_writeBlock hbody hupdate)).append
            (tidyLines_writeHandler (by simpa [Stmt.words] using hwords) hhandler hupdate)).append
              (tidyLines_writeOption (by decide) hcleanup hupdate)
      | returns value pos =>
          cases value with
          | none =>
              rw [writeStmt]
              exact tidyLines_line (by decide)
          | some value =>
              have hvalue := hexprs value (by simp [Stmt.exprs])
              rw [writeStmt]
              exact tidyLines_phrase (tidy_exprPhrase (by decide) hvalue (by decide))
      | assign targets value declaration pos =>
          simp only [Stmt.exprs, List.forall_mem_append, Option.mem_toList] at hexprs
          rw [writeStmt]
          exact List.forall_mem_singleton.mpr (tidy_assigned hexprs.1 hexprs.2)
      | augAssign target op value pos =>
          have htarget := trim_writeExpr (hexprs target (by simp [Stmt.exprs]))
          have hvalue := trim_writeExpr (hexprs value (by simp [Stmt.exprs]))
          have hfront := (htarget.append (by decide : IsSmooth " ")).append (smooth_binarySymbol op)
          rw [writeStmt]
          exact tidyLines_phrase ((hfront.append (by decide)).append hvalue.smooth)
      | print args pos =>
          have hargs : ∀ phrase ∈ args.map (exprPhrase "" · ""), IsSmooth phrase.text :=
            List.forall_mem_map.mpr fun e he => (tidy_bare (hexprs e he) (by decide)).smooth
          rw [writeStmt]
          exact tidyLines_phrase (tidy_listed (by decide) hargs (by decide))
      | expr value pos =>
          rw [writeStmt]
          exact tidyLines_phrase (tidy_bare (hexprs value (by simp [Stmt.exprs])) (by decide))
      | pass pos | breaks pos =>
          rw [writeStmt]
          exact tidyLines_line (by decide)
      | continues pos =>
          rw [writeStmt.eq_def]
          refine TidyLines.append ?_ (tidyLines_line (by decide))
          cases update with
          | none => exact tidyLines_empty
          | some last => exact hupdate last rfl ctx

end Statements

end Diglot.Indented
