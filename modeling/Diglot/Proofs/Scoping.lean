import Diglot.Proofs.Braced.Scopes

namespace Diglot

open Braced

section Roles

-- The names that a statement brings in, each with whether it may be brought in again: a function
-- may, outside of methods.
def brought (inMethod : Bool) : Stmt → List (String × Bool)
  | .imports module kind _ => (imported module kind).map (·, false)
  | .classDef name _ _ _ => [(name, false)]
  | .functionDef name _ _ _ => [(name, !inMethod)]
  | _ => []

def broughtIn (inMethod : Bool) (body : List Stmt) : List (String × Bool) :=
  body.flatMap (brought inMethod)

-- Whether no name is brought in twice, unless it may be each time.
def isDistinct (names : List (String × Bool)) : Bool :=
  decide (names.Pairwise fun first second =>
    first.1 = second.1 → first.2 = true ∧ second.2 = true)

-- Whether a function, or the whole program, brings in nothing that it assigns, parameters aside.
def isSeparate (inMethod : Bool) (params : List Parameter) (body : List Stmt) : Bool :=
  (assignedIn body).all fun name =>
    params.any (·.name == name) || !((broughtIn inMethod body).map (·.1)).contains name

-- The names that stay free in a block: it fixes what it brings in.
def freeInBlock (inMethod : Bool) (body : List Stmt) (free : List String) : List String :=
  free.filter fun name => !((broughtIn inMethod body).map (·.1)).contains name

-- The names that are free at the top of a function: what it assigns and the parameters that are
-- written, and what is free around it.
def freeInScope (inMethod : Bool) (params : List Parameter) (body : List Stmt)
    (free : List String) : List String :=
  hoisted body params ++ freeInBlock inMethod body (bound params ++ free)

-- The names that are free in a loop, before its block. A counting loop has a variable of its own,
-- and one over elements fixes it.
def freeInLoop (target : String) (iteration : Iteration) (free : List String) : List String :=
  match iteration with
  | .range .. => target :: free
  | .each _ => free.filter (· != target)

-- The names that are free behind a head. A handler has a variable of its own too.
def freeBehind (free : List String) : BlockHead → List String
  | .plain _ => free
  | .loop _ target iteration => freeInLoop target iteration free
  | .catching name => name :: free

-- Whether a target is free, if it is one of the names that `=` assigns.
def isFree (assigned free : List String) (inMethod : Bool) (target : Expr) : Bool :=
  (writtenName? inMethod target).all fun name => !assigned.contains name || free.contains name

def apartBlock (inMethod : Bool) (free : List String) (body : List Stmt)
    (inner : List String → Bool) : Bool :=
  isDistinct (broughtIn inMethod body) && inner (freeInBlock inMethod body free)

def apartScope (inMethod : Bool) (free : List String) (params : List Parameter) (body : List Stmt)
    (inner : List String → List String → Bool) : Bool :=
  isSeparate inMethod params body && isDistinct (broughtIn inMethod body) &&
    inner (assignedIn body) (freeInScope inMethod params body free)

mutual

-- Whether the names that `=` assigns in a function or program are free wherever they are assigned.
def isApart (inMethod : Bool) (assigned free : List String) : Stmt → Bool
  | .assign targets _ none _ => targets.all (isFree assigned free inMethod)
  | .augAssign target _ _ _ => isFree assigned free inMethod target
  | .classDef _ _ body _ => membersApart free body
  | .functionDef _ params body _ =>
      apartScope inMethod free params body fun assigned free => areApart inMethod assigned free body
  | .ifElse _ body elifs orElse _ =>
      apartBlock inMethod free body (fun free => areApart inMethod assigned free body) &&
        elifsApart inMethod assigned free elifs && optionApart inMethod assigned free orElse
  | .forIn target iteration body _ =>
      apartBlock inMethod (freeInLoop target iteration free) body fun free =>
        areApart inMethod assigned free body
  | .whileDo _ body _ =>
      apartBlock inMethod free body fun free => areApart inMethod assigned free body
  | .tryCatch body handler cleanup _ =>
      apartBlock inMethod free body (fun free => areApart inMethod assigned free body) &&
        handlerApart inMethod assigned free handler && optionApart inMethod assigned free cleanup
  | _ => true

def areApart (inMethod : Bool) (assigned free : List String) : List Stmt → Bool
  | [] => true
  | first :: rest =>
      isApart inMethod assigned free first && areApart inMethod assigned free rest

def membersApart (free : List String) : List Stmt → Bool
  | [] => true
  | .functionDef _ params body _ :: rest =>
      (apartScope true free (methodParams params) body fun assigned free =>
        areApart true assigned free body) && membersApart free rest
  | _ :: rest => membersApart free rest

def elifsApart (inMethod : Bool) (assigned free : List String) : List (ElifClause Stmt) → Bool
  | [] => true
  | ⟨_, body, _⟩ :: rest =>
      apartBlock inMethod free body (fun free => areApart inMethod assigned free body) &&
        elifsApart inMethod assigned free rest

def optionApart (inMethod : Bool) (assigned free : List String) : Option (List Stmt) → Bool
  | none => true
  | some body => apartBlock inMethod free body fun free => areApart inMethod assigned free body

def handlerApart (inMethod : Bool) (assigned free : List String) : Option (Handler Stmt) → Bool
  | none => true
  | some ⟨name, body, _⟩ =>
      apartBlock inMethod (name.getD "e" :: free) body fun free =>
        areApart inMethod assigned free body

end

-- Whether every scope of a program keeps what it assigns apart from what is fixed there.
def rolesApart (module : Module) : Bool :=
  apartScope false [] [] module.body fun assigned free => areApart false assigned free module.body

end Roles

section Blocks

variable {inMethod : Bool} {body : List Stmt} {binding : Binding}

-- Behind its `let`, a block declares exactly what it brings in.
theorem declared_outline (inMethod : Bool) (stmt : Stmt) :
    ((outline ⟨inMethod, false⟩ stmt).declared.map fun declaration =>
      (declaration.1, !declaration.2.isLexical)) = brought inMethod stmt := by
  cases stmt with
  | imports module kind pos => simp [outline, Outline.declared, brought, Binding.isLexical]
  | functionDef name params body pos =>
      cases inMethod <;>
        simp [outline, outlineFunction, Outline.declared, brought, Binding.isLexical]
  | assign targets value declaration pos => cases declaration <;> rfl
  | _ => rfl

theorem declaredIn_outlineAll (inMethod : Bool) (body : List Stmt) :
    ((declaredIn (outlineAll ⟨inMethod, false⟩ body)).map fun declaration =>
      (declaration.1, !declaration.2.isLexical)) = broughtIn inMethod body := by
  induction body with
  | nil => rfl
  | cons first rest ih =>
      simp only [outlineAll, declaredIn, broughtIn, List.flatMap_cons, List.map_append,
        declared_outline] at ih ⊢
      rw [ih]

theorem names_outlineAll (inMethod : Bool) (body : List Stmt) :
    (declaredIn (outlineAll ⟨inMethod, false⟩ body)).map (·.1) =
      (broughtIn inMethod body).map (·.1) := by
  rw [← declaredIn_outlineAll, List.map_map]
  rfl

theorem isUnambiguous_outlineAll (inMethod : Bool) (body : List Stmt) :
    isUnambiguous (declaredIn (outlineAll ⟨inMethod, false⟩ body)) =
      isDistinct (broughtIn inMethod body) := by
  unfold isUnambiguous isDistinct
  rw [← declaredIn_outlineAll, decide_eq_decide, List.pairwise_map]
  simp

theorem isAssignable_of_mem {declaration : String × Binding}
    (h : declaration ∈ declaredIn (outlineAll ⟨inMethod, false⟩ body)) :
    declaration.2.isAssignable = false := by
  induction body with
  | nil => cases h
  | cons first rest ih =>
      simp only [outlineAll, declaredIn, List.flatMap_cons, List.mem_append] at h ih
      rcases h with h | h
      · cases first with
        | imports module kind pos =>
            obtain ⟨name, -, rfl⟩ := List.mem_map.mp h
            rfl
        | classDef name base members pos =>
            rw [List.mem_singleton.mp h]
            rfl
        | functionDef name params inner pos =>
            cases inMethod <;>
            · rw [List.mem_singleton.mp h]
              rfl
        | assign targets value declaration pos => cases declaration <;> cases h
        | _ => cases h
      · exact ih h

-- The names that resolve to what can be assigned are those that are free.
def Keeps (free : List String) (env : Bindings) : Prop :=
  ∀ name, (env.lookup name).any Binding.isAssignable = free.contains name

variable {free : List String} {env : Bindings}

theorem isResolved_eq_isFree (h : Keeps free env) (assigned : List String) (inMethod : Bool)
    (target : Expr) :
    isResolved assigned env inMethod target = isFree assigned free inMethod target := by
  simp only [isResolved, isFree, h _]

-- A variable of its own frees a name in a block, and a fixed one fixes it.
theorem Keeps.own (h : Keeps free env) (name : String) (hbinding : binding.isAssignable = true) :
    Keeps (name :: free) ((name, binding) :: env) := by
  intro other
  rw [List.lookup_cons, List.contains_cons]
  cases other == name with
  | true => simpa using hbinding
  | false => simpa using h other

theorem Keeps.fix (h : Keeps free env) (name : String) (hbinding : binding.isAssignable = false) :
    Keeps (free.filter (· != name)) ((name, binding) :: env) := by
  intro other
  rw [List.lookup_cons]
  by_cases hname : other = name
  · subst hname
    simp [hbinding]
  · have hbeq : (other == name) = false := by simpa using hname
    rw [hbeq, h other]
    simp [hname]

theorem Keeps.head (h : Keeps free env) (head : BlockHead) :
    Keeps (freeBehind free head) (head.declared ++ env) := by
  cases head with
  | plain text => exact h
  | loop inMethod target iteration =>
      cases iteration with
      | range start stop step => exact h.own target rfl
      | each iterable => exact h.fix target rfl
  | catching name => exact h.own name rfl

-- The same for many names at once.
theorem Keeps.ownAll (h : Keeps free env) (names : List String)
    (hbinding : binding.isAssignable = true) :
    Keeps (names ++ free) (names.map (·, binding) ++ env) := by
  induction names with
  | nil => exact h
  | cons first rest ih => exact ih.own first hbinding

theorem Keeps.fixAll (h : Keeps free env) {declarations : Bindings}
    (hfixed : ∀ declaration ∈ declarations, declaration.2.isAssignable = false) :
    Keeps (free.filter fun name => !(declarations.map (·.1)).contains name)
      (declarations ++ env) := by
  induction declarations with
  | nil => rwa [List.filter_eq_self.mpr (by simp)]
  | cons first rest ih =>
      obtain ⟨hfirst, hrest⟩ := List.forall_mem_cons.mp hfixed
      have hkeeps := (ih hrest).fix first.1 hfirst
      rw [List.filter_filter] at hkeeps
      simpa [bne, Bool.not_or] using hkeeps

theorem Keeps.block (h : Keeps free env) (inMethod : Bool) (body : List Stmt) :
    Keeps (freeInBlock inMethod body free)
      (declaredIn (outlineAll ⟨inMethod, false⟩ body) ++ env) := by
  rw [freeInBlock, ← names_outlineAll]
  exact h.fixAll fun _ => isAssignable_of_mem

end Blocks

section Hoisting

variable {ctx : Context} {stmt : Stmt} {body : List Stmt}

-- A statement whose outline assigns what it does.
def Recorded (stmt : Stmt) : Prop := ∀ ctx, (outline ctx stmt).assigned = assigned stmt

theorem assignedInOutlines_outlineAll (h : ∀ stmt ∈ body, Recorded stmt) (ctx : Context) :
    assignedInOutlines (outlineAll ctx body) = assignedIn body := by
  induction body with
  | nil => rfl
  | cons first rest ih =>
      obtain ⟨hfirst, hrest⟩ := List.forall_mem_cons.mp h
      rw [outlineAll, assignedInOutlines, assignedIn, hfirst ctx, ih hrest]

theorem assignedInElifs_eq (elifs : List (ElifClause Stmt)) :
    assignedInElifs elifs = elifs.flatMap fun clause => assignedIn clause.body := by
  induction elifs with
  | nil => rfl
  | cons clause rest ih => rw [assignedInElifs, ih, List.flatMap_cons]

theorem assigned_of_parts (h : parts ctx stmt ≠ []) :
    assigned stmt = (parts ctx stmt).flatMap fun part => assignedIn part.2 := by
  cases stmt with
  | ifElse condition body elifs orElse pos =>
      cases orElse <;>
        simp [assigned, parts, assignedInElifs_eq, assignedInOption, List.flatMap_map]
  | tryCatch body handler cleanup pos =>
      cases handler <;> cases cleanup <;>
        simp [assigned, parts, assignedInHandler, assignedInOption]
  | forIn target iteration body pos => simp [assigned, parts]
  | whileDo condition body pos => simp [assigned, parts]
  | _ => exact absurd rfl h

theorem assignedInParts_map {list : List (BlockHead × List Stmt)}
    (h : ∀ part ∈ list, ∀ stmt ∈ part.2, Recorded stmt) :
    assignedInParts (list.map (outlinePart ctx)) = list.flatMap fun part => assignedIn part.2 := by
  induction list with
  | nil => rfl
  | cons part rest ih =>
      obtain ⟨hpart, hrest⟩ := List.forall_mem_cons.mp h
      rw [List.map_cons, outlinePart, assignedInParts, assignedInOutlines_outlineAll hpart,
        ih hrest, List.flatMap_cons]

theorem recorded_of_common (h : Common stmt) : Recorded stmt := by
  induction stmt, h using Stmt.all_induct with
  | step stmt hcommon _ hinner =>
      intro ctx
      by_cases hparts : parts ctx stmt = []
      · cases stmt with
        | functionDef name params body pos =>
            simp only [outline, outlineFunction, assigned]
            split
            · rfl
            split <;> rfl
        | ifElse | forIn | whileDo | tryCatch => cases hparts
        | forClauses => cases hcommon
        | assign targets value declaration pos =>
            cases declaration with
            | none => rfl
            | some word => cases hcommon
        | _ => rfl
      · rw [outline_of_parts hparts, assigned_of_parts hparts, Outline.assigned,
          assignedInParts_map]
        intro part hpart child hchild
        exact hinner child (mem_children_of_mem_parts hpart hchild)

theorem mem_hoisted {params : List Parameter} {name : String} :
    name ∈ hoisted body params ↔ name ∈ assignedIn body ∧ params.any (·.name == name) = false := by
  simp [hoisted, List.mem_eraseDups]

theorem nodup_eraseDups (names : List String) : names.eraseDups.Nodup := by
  induction hlength : names.length using Nat.strongRecOn generalizing names with
  | ind length ih =>
      cases names with
      | nil => simp
      | cons first rest =>
          have hshorter := List.length_filter_le (fun other => !other == first) rest
          rw [List.length_cons] at hlength
          rw [List.eraseDups_cons, List.nodup_cons]
          refine ⟨?_, ih _ (by omega) _ rfl⟩
          simp [List.mem_eraseDups]

theorem nodup_hoisted (body : List Stmt) (params : List Parameter) :
    (hoisted body params).Nodup :=
  (nodup_eraseDups _).sublist List.filter_sublist

variable (inMethod : Bool) (params : List Parameter) (body : List Stmt)

-- The lines of a function, or of the whole program.
def scopeLines : List Outline :=
  .lets (hoisted body params) :: outlineAll ⟨inMethod, false⟩ body

theorem declaredIn_scopeLines :
    declaredIn (scopeLines inMethod params body) =
      (hoisted body params).map (·, .letWord) ++
        declaredIn (outlineAll ⟨inMethod, false⟩ body) := rfl

-- A scope is ambiguous only by what it brings in.
theorem isUnambiguous_scopeLines :
    isUnambiguous (declaredIn (scopeLines inMethod params body)) =
      (isSeparate inMethod params body && isDistinct (broughtIn inMethod body)) := by
  rw [declaredIn_scopeLines, ← isUnambiguous_outlineAll, Bool.eq_iff_iff, Bool.and_eq_true]
  unfold isUnambiguous
  rw [decide_eq_true_iff, decide_eq_true_iff, List.pairwise_append]
  constructor
  · rintro ⟨-, hbrought, hcross⟩
    refine ⟨List.all_eq_true.mpr fun name hname => ?_, hbrought⟩
    cases hparam : params.any (·.name == name) with
    | true => rfl
    | false =>
        have hlet : (name, Binding.letWord) ∈ (hoisted body params).map (·, .letWord) :=
          List.mem_map.mpr ⟨name, mem_hoisted.mpr ⟨hname, hparam⟩, rfl⟩
        rw [Bool.false_or, ← names_outlineAll, Bool.not_eq_true', List.contains_eq_mem,
          decide_eq_false_iff_not, List.mem_map]
        rintro ⟨declaration, hdeclaration, heq⟩
        have hlexical := (hcross _ hlet declaration hdeclaration heq.symm).1
        cases hlexical
  · rintro ⟨hseparate, hbrought⟩
    refine ⟨?_, hbrought, ?_⟩
    · rw [List.pairwise_map]
      exact (nodup_hoisted body params).imp fun hne heq => absurd heq hne
    · intro first hfirst second hsecond heq
      obtain ⟨name, hname, rfl⟩ := List.mem_map.mp hfirst
      obtain ⟨hassigned, hparam⟩ := mem_hoisted.mp hname
      have hname := List.all_eq_true.mp hseparate name hassigned
      rw [hparam, Bool.false_or, ← names_outlineAll, Bool.not_eq_true', List.contains_eq_mem,
        decide_eq_false_iff_not] at hname
      exact absurd (List.mem_map.mpr ⟨second, hsecond, heq.symm⟩) hname

-- At the top of a scope, what it assigns is declared, and hides what is around it.
theorem keeps_scopeLines {free : List String} {env : Bindings} (h : Keeps free env) :
    Keeps (freeInScope inMethod params body free)
      (declaredIn (scopeLines inMethod params body) ++
        ((bound params).map (·, .parameter) ++ env)) := by
  rw [declaredIn_scopeLines, List.append_assoc]
  exact ((h.ownAll (bound params) rfl).block inMethod body).ownAll (hoisted body params) rfl

end Hoisting

section Agreement

variable {stmt : Stmt} {body : List Stmt} {assigned free : List String} {env : Bindings}

-- A statement that is well scoped as it is written if and only if it keeps its roles apart.
def Agrees (stmt : Stmt) : Prop :=
  ∀ inMethod assigned free env, Keeps free env →
    (outline ⟨inMethod, false⟩ stmt).isScoped assigned env = isApart inMethod assigned free stmt

theorem areScoped_outlineAll (h : ∀ stmt ∈ body, Agrees stmt) (inMethod : Bool)
    (hkeeps : Keeps free env) :
    areScoped assigned env (outlineAll ⟨inMethod, false⟩ body) =
      areApart inMethod assigned free body := by
  induction body with
  | nil => rfl
  | cons first rest ih =>
      obtain ⟨hfirst, hrest⟩ := List.forall_mem_cons.mp h
      rw [outlineAll, areScoped, areApart, hfirst inMethod assigned free env hkeeps, ih hrest]

-- A block agrees if what stands in it does.
theorem scoped_block (h : ∀ stmt ∈ body, Agrees stmt) (hkeeps : Keeps free env) (inMethod : Bool)
    (assigned : List String) :
    (isUnambiguous (declaredIn (outlineAll ⟨inMethod, false⟩ body)) &&
        areScoped assigned (declaredIn (outlineAll ⟨inMethod, false⟩ body) ++ env)
          (outlineAll ⟨inMethod, false⟩ body)) =
      apartBlock inMethod free body fun free => areApart inMethod assigned free body := by
  rw [isUnambiguous_outlineAll, areScoped_outlineAll h inMethod (hkeeps.block inMethod body)]
  rfl

-- A whole scope agrees if what stands in it does.
theorem scoped_scope (h : ∀ stmt ∈ body, Agrees stmt) (hcommon : ∀ stmt ∈ body, Common stmt)
    (hkeeps : Keeps free env) (inMethod : Bool) (params : List Parameter) :
    (isUnambiguous (declaredIn (scopeLines inMethod params body)) &&
        areScoped (assignedInOutlines (scopeLines inMethod params body))
          (declaredIn (scopeLines inMethod params body) ++
            (bound params).map (·, .parameter) ++ env)
          (scopeLines inMethod params body)) =
      apartScope inMethod free params body fun assigned free =>
        areApart inMethod assigned free body := by
  have hassigned : assignedInOutlines (scopeLines inMethod params body) = assignedIn body :=
    assignedInOutlines_outlineAll (fun stmt hstmt => recorded_of_common (hcommon stmt hstmt)) _
  have hscope := keeps_scopeLines inMethod params body hkeeps
  rw [isUnambiguous_scopeLines, hassigned, apartScope, ← areScoped_outlineAll h inMethod hscope,
    List.append_assoc]
  rfl

theorem isScoped_outlineFunction (h : ∀ stmt ∈ body, Agrees stmt)
    (hcommon : ∀ stmt ∈ body, Common stmt) (hkeeps : Keeps free env) (inMethod : Bool)
    (name : String) (params : List Parameter) :
    (outlineFunction ⟨inMethod, false⟩ name params body fun inner => outlineAll inner body).isScoped
        assigned env =
      apartScope inMethod free params body fun assigned free =>
        areApart inMethod assigned free body := by
  rw [← scoped_scope h hcommon hkeeps]
  cases inMethod <;> rfl

theorem areScoped_outlineMembers {members : List Stmt}
    (h : ∀ member ∈ members, ∀ stmt ∈ member.children, Agrees stmt)
    (hcommon : ∀ member ∈ members, Common member) (hkeeps : Keeps free env) (ctx : Context) :
    areScoped assigned env (outlineMembers ctx members) = membersApart free members := by
  induction members with
  | nil => rfl
  | cons member rest ih =>
      obtain ⟨hmember, hrest⟩ := List.forall_mem_cons.mp h
      obtain ⟨hfirst, hothers⟩ := List.forall_mem_cons.mp hcommon
      cases member with
      | functionDef name params body pos =>
          have hbody : ∀ stmt ∈ body, Common stmt := (Stmt.all_iff.mp hfirst).2
          have hagrees : ∀ stmt ∈ body, Agrees stmt := hmember
          rw [outlineMembers, areScoped, membersApart, ih hrest hothers,
            ← scoped_scope hagrees hbody hkeeps]
          rfl
      | _ => simp [outlineMembers, areScoped, membersApart, ih hrest hothers, Outline.isScoped]

-- The blocks of a statement, each behind its head.
def partsApart (inMethod : Bool) (assigned free : List String)
    (list : List (BlockHead × List Stmt)) : Bool :=
  list.all fun part => apartBlock inMethod (freeBehind free part.1) part.2 fun free =>
    areApart inMethod assigned free part.2

theorem elifsApart_eq (inMethod : Bool) (assigned free : List String)
    (elifs : List (ElifClause Stmt)) :
    elifsApart inMethod assigned free elifs = elifs.all fun clause =>
      apartBlock inMethod free clause.body fun free =>
        areApart inMethod assigned free clause.body := by
  induction elifs with
  | nil => rfl
  | cons clause rest ih => rw [elifsApart, ih, List.all_cons]

theorem isApart_of_parts {inMethod : Bool} (h : parts ⟨inMethod, false⟩ stmt ≠ []) :
    isApart inMethod assigned free stmt =
      partsApart inMethod assigned free (parts ⟨inMethod, false⟩ stmt) := by
  cases stmt with
  | ifElse condition body elifs orElse pos =>
      cases orElse <;>
        simp [isApart, parts, partsApart, elifsApart_eq, optionApart, freeBehind, List.all_map,
          Function.comp_def, Bool.and_assoc]
  | tryCatch body handler cleanup pos =>
      cases handler <;> cases cleanup <;>
        simp [isApart, parts, partsApart, handlerApart, optionApart, freeBehind, Bool.and_assoc]
  | forIn target iteration body pos => simp [isApart, parts, partsApart, freeBehind]
  | whileDo condition body pos => simp [isApart, parts, partsApart, freeBehind]
  | _ => exact absurd rfl h

theorem partsScoped_map {list : List (BlockHead × List Stmt)}
    (h : ∀ part ∈ list, ∀ stmt ∈ part.2, Agrees stmt) (inMethod : Bool)
    (hkeeps : Keeps free env) :
    partsScoped assigned env (list.map (outlinePart ⟨inMethod, false⟩)) =
      partsApart inMethod assigned free list := by
  induction list with
  | nil => rfl
  | cons part rest ih =>
      obtain ⟨hpart, hrest⟩ := List.forall_mem_cons.mp h
      have hblock := scoped_block hpart (hkeeps.head part.1) inMethod assigned
      rw [← List.append_assoc] at hblock
      rw [List.map_cons, outlinePart, partsScoped, hblock, ih hrest]
      rfl

-- A statement agrees if all that stands in it does. In the methods of a class, that is one level
-- further in.
theorem agrees_of_children (h : Common stmt) (hinner : ∀ child ∈ stmt.children, Agrees child)
    (hdeeper : ∀ child ∈ stmt.children, ∀ inner ∈ child.children, Agrees inner) : Agrees stmt := by
  obtain ⟨hcommon, hchildren⟩ := Stmt.all_iff.mp h
  intro inMethod assigned free env hkeeps
  by_cases hparts : parts ⟨inMethod, false⟩ stmt = []
  · cases stmt with
    | classDef name base body pos => exact areScoped_outlineMembers hdeeper hchildren hkeeps _
    | functionDef name params body pos =>
        exact isScoped_outlineFunction hinner hchildren hkeeps inMethod name params
    | ifElse | forIn | whileDo | tryCatch => cases hparts
    | forClauses => cases hcommon
    | assign targets value declaration pos =>
        cases declaration with
        | none =>
            have htargets := funext (isResolved_eq_isFree hkeeps assigned inMethod)
            rw [outline, Outline.isScoped, isApart, htargets]
        | some word => cases hcommon
    | augAssign target op value pos => exact isResolved_eq_isFree hkeeps assigned inMethod target
    | _ => rfl
  · rw [outline_of_parts hparts, isApart_of_parts hparts, Outline.isScoped, partsScoped_map]
    · intro part hpart child hchild
      exact hinner child (mem_children_of_mem_parts hpart hchild)
    · exact hkeeps

theorem agrees_of_common (h : Common stmt) : Agrees stmt := by
  have hboth : Agrees stmt ∧ ∀ child ∈ stmt.children, Agrees child := by
    induction stmt, h using Stmt.all_induct with
    | step stmt hcommon hchildren hinner =>
        exact ⟨agrees_of_children (Stmt.all_iff.mpr ⟨hcommon, hchildren⟩)
          (fun child hchild => (hinner child hchild).1)
          fun child hchild => (hinner child hchild).2, fun child hchild => (hinner child hchild).1⟩
  exact hboth.1

end Agreement

-- The lines of a program in the indented notation, written in the braced one, are well scoped if
-- and only if the program keeps its roles apart.
theorem wellScoped_iff_rolesApart {source : String} {module : Module}
    (h : parse .pythonScript source = .ok module) :
    write .javaScript module = renderAll (outlineModule module) ∧
      (isWellScoped (outlineModule module) = true ↔ rolesApart module = true) := by
  obtain ⟨tokens, -, hread⟩ := exists_of_bind_eq_ok h
  have hcommon := common_of_parseTokens hread
  have hagrees := fun stmt hstmt => agrees_of_common (hcommon stmt hstmt)
  have hkeeps : Keeps [] [] := fun _ => rfl
  have hscope := scoped_scope hagrees hcommon hkeeps false []
  refine ⟨(renderAll_outlineModule hcommon).symm, ?_⟩
  have hlines : scopeLines false [] module.body = outlineModule module := rfl
  rw [hlines, bound, List.filter_nil, List.map_nil, List.map_nil, List.append_nil,
    List.append_nil] at hscope
  rw [isWellScoped, hscope, rolesApart]

-- Names in many roles, each in a scope or block of its own.
def workshop : String :=
  "from m import a as b\ndef f(x, **o):\n    for i in x:\n        for t in range(3):\n" ++
  "            t = b(i)\n    try:\n        x = t\n    except E as p:\n        p = 1\n" ++
  "class C:\n    def n(self, x):\n        def f(t):\n            x = t\n        x = f(2)\n"

theorem wellScoped_iff_rolesApart_workshop :
    ∃ module, parse .pythonScript workshop = .ok module ∧ rolesApart module = true ∧
      write .javaScript module = renderAll (outlineModule module) ∧
      isWellScoped (outlineModule module) = true := by
  have hapart : (parse .pythonScript workshop).toOption.map rolesApart = some true := by
    decide +kernel
  cases hparse : parse .pythonScript workshop with
  | error failure =>
      rw [hparse] at hapart
      cases hapart
  | ok module =>
      rw [hparse] at hapart
      have hroles : rolesApart module = true := Option.some.inj hapart
      obtain ⟨hwritten, hscoped⟩ := wellScoped_iff_rolesApart hparse
      exact ⟨module, rfl, hroles, hwritten, hscoped.mpr hroles⟩

-- A name that is both imported and assigned.
def importedAssigned : String := "import m\nm = 1\n"

-- A name that is both an element of a loop and assigned in it.
def elementAssigned : String := "for x in xs:\n    x = 1\n"

-- The first is declared twice, and the second is assigned where it is fixed.
theorem not_wellScoped_assigned :
    (transpile .default .pythonScript importedAssigned).toOption =
        some "let m;\nconst m = require(\"m\");\nm = 1;\n" ∧
      (parse .pythonScript importedAssigned).toOption.map (isWellScoped ∘ outlineModule) =
        some false ∧
      (transpile .default .pythonScript elementAssigned).toOption =
        some "let x;\nfor (const x of xs) \x7b\n  x = 1;\n\x7d\n" ∧
      (parse .pythonScript elementAssigned).toOption.map (isWellScoped ∘ outlineModule) =
        some false := by
  decide +kernel

end Diglot
