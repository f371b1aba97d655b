import Diglot.Proofs.Braced.Outline

namespace Diglot.Braced

-- How a name is bound.
inductive Binding where
  | letWord
  | constWord
  | classWord
  | functionWord
  -- By the parameter of a function or of a handler.
  | parameter
  deriving DecidableEq

-- Whether a block may bind a name in this way only once, and not in another way besides.
def Binding.isLexical : Binding → Bool
  | letWord | constWord | classWord => true
  | functionWord | parameter => false

def Binding.isAssignable : Binding → Bool
  | letWord | parameter => true
  | constWord | classWord | functionWord => false

-- Names with how they are bound, from the innermost block outwards.
abbrev Bindings := List (String × Binding)

-- Whether no name is declared twice in a block, unless all its declarations are functions.
def isUnambiguous (declarations : Bindings) : Bool :=
  decide (declarations.Pairwise fun first second =>
    first.1 = second.1 → first.2.isLexical = false ∧ second.2.isLexical = false)

-- The names that an import brings in.
def imported (module : String) : ImportKind → List String
  | .whole otherName => [otherName.getD (lastName module)]
  | .names names => names.map fun found => found.otherName.getD found.name

-- The names that parameters bind. One that collects keywords is not written.
def bound (params : List Parameter) : List String :=
  (params.filter (·.kind != .keywordCollector)).map (·.name)

-- The plain name that is written as a target. The receiver of a method is none.
def writtenName? (inMethod : Bool) (target : Expr) : Option String :=
  target.var?.filter fun name => !(inMethod && name == "self")

-- What lines declare in the block that they stand in.
def Outline.declared : Outline → Bindings
  | .lets names => names.map (·, .letWord)
  | .requires module kind => (imported module kind).map (·, .constWord)
  | .classOf name _ _ => [(name, .classWord)]
  | .function .declared _ name _ _ => [(name, .functionWord)]
  | .function .arrow _ name _ _ => [(name, .constWord)]
  | _ => []

-- What a head declares for its block.
def BlockHead.declared : BlockHead → Bindings
  | .plain _ => []
  | .loop _ target (.range ..) => [(target, .letWord)]
  | .loop _ target (.each _) => [(target, .constWord)]
  | .catching name => [(name, .parameter)]

def declaredIn (body : List Outline) : Bindings := body.flatMap Outline.declared

mutual

-- The plain names that lines assign to with `=`. Functions inside are scopes of their own.
def Outline.assigned : Outline → List String
  | .assigns _ targets _ => targets.filterMap Expr.var?
  | .blocks parts => assignedInParts parts
  | _ => []

def assignedInOutlines : List Outline → List String
  | [] => []
  | first :: rest => first.assigned ++ assignedInOutlines rest

def assignedInParts : List (BlockHead × List Outline) → List String
  | [] => []
  | (_, body) :: rest => assignedInOutlines body ++ assignedInParts rest

end

-- Whether a target is bound by `let` or by a parameter, if it is one of the given names.
def isResolved (assigned : List String) (env : Bindings) (inMethod : Bool) (target : Expr) : Bool :=
  (writtenName? inMethod target).all fun name =>
    !assigned.contains name || (env.lookup name).any Binding.isAssignable

mutual

-- Whether all blocks are unambiguous, and all assignments to names that `=` assigns in the same
-- function are to what is bound by `let` or as a parameter, from the innermost block outwards.
def Outline.isScoped (assigned : List String) (env : Bindings) : Outline → Bool
  | .assigns inMethod targets _ => targets.all (isResolved assigned env inMethod)
  | .updates inMethod target _ _ => isResolved assigned env inMethod target
  | .classOf _ _ members => areScoped assigned env members
  | .function _ _ _ params body =>
      isUnambiguous (declaredIn body) &&
        areScoped (assignedInOutlines body)
          (declaredIn body ++ (bound params).map (·, .parameter) ++ env) body
  | .blocks parts => partsScoped assigned env parts
  | .plain _ | .lets _ | .requires _ _ => true

def areScoped (assigned : List String) (env : Bindings) : List Outline → Bool
  | [] => true
  | first :: rest => first.isScoped assigned env && areScoped assigned env rest

def partsScoped (assigned : List String) (env : Bindings) : List (BlockHead × List Outline) → Bool
  | [] => true
  | (head, body) :: rest =>
      isUnambiguous (declaredIn body) &&
        areScoped assigned (declaredIn body ++ head.declared ++ env) body &&
        partsScoped assigned env rest

end

-- Whether a whole program is well scoped.
def isWellScoped (program : List Outline) : Bool :=
  isUnambiguous (declaredIn program) &&
    areScoped (assignedInOutlines program) (declaredIn program) program

end Diglot.Braced
