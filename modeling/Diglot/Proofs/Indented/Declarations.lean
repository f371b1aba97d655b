import Diglot.Proofs.Indented.Forms

namespace Diglot.Indented

open Diglot.Parser TokenStream
open Token (op kw word)

variable {embedded : Embedder} {width : Nat} [Fact (0 < width)]

section Marked

variable {π : Type}

-- The tokens of parts that each stand behind a mark.
def marked {π : Type} (mark : String) (spelled : π → List Token) (parts : List π) : List Token :=
  parts.flatMap fun part => op mark :: spelled part

theorem length_le_length_marked (mark : String) (spelled : π → List Token) (parts : List π) :
    parts.length ≤ (marked mark spelled parts).length := by
  induction parts with
  | nil => exact Nat.le_refl 0
  | cons first rest ih =>
      rw [marked, List.flatMap_cons, List.length_append, List.length_cons, List.length_cons, ← marked]
      omega

theorem commas_eq_marked (spelled : π → List Token) (first : π) (more : List π) :
    commas ((first :: more).map spelled) = spelled first ++ marked "," spelled more := by
  induction more generalizing first with
  | nil => rw [List.map_singleton, commas_singleton, marked, List.flatMap_nil, List.append_nil]
  | cons second more ih =>
      have hrest := ih second
      rw [List.map_cons] at hrest
      rw [List.map_cons, List.map_cons, commas_cons_cons, hrest]
      rfl

-- Parts are read as long as each stands behind its mark.
theorem whilst_marked {α : Type} {mark : String} {spelled : π → List Token} {value : π → α}
    {item : Parser α} {blocks : Blocks} {next : Token} {parts : List π} {limit : Nat}
    (hnext : next.isOperator mark = false)
    (hitem : ∀ part ∈ parts, ∀ token, token = op mark ∨ token = next → ∀ rest,
      item (ahead (spelled part ++ token :: rest) blocks) =
        .ok (value part, ahead (token :: rest) blocks)) (hlimit : parts.length < limit)
    (rest : List Token) :
    whilst (do if ← eatOperator mark then return some () else return none) (fun _ => item) limit
        (ahead (marked mark spelled parts ++ next :: rest) blocks) =
      .ok (parts.map value, ahead (next :: rest) blocks) := by
  induction parts generalizing limit with
  | nil =>
      refine whilst_stop ?_ hlimit
      rw [marked, List.flatMap_nil, List.nil_append, bind_of_ok (eatOperator_miss hnext)]
      rfl
  | cons first parts ih =>
      obtain ⟨hfirst, hparts⟩ := List.forall_mem_cons.mp hitem
      obtain ⟨limit, rfl⟩ : ∃ less, limit = less + 1 := ⟨limit - 1, by simp at hlimit; omega⟩
      have hrest := ih hparts (show parts.length < limit by simpa using hlimit)
      have hread : item (ahead (spelled first ++ (marked mark spelled parts ++ next :: rest)) blocks) =
          .ok (value first, ahead (marked mark spelled parts ++ next :: rest) blocks) := by
        cases parts with
        | nil => exact hfirst next (.inr rfl) rest
        | cons second parts => exact hfirst (op mark) (.inl rfl) _
      have htokens : marked mark spelled (first :: parts) ++ next :: rest =
          op mark :: (spelled first ++ (marked mark spelled parts ++ next :: rest)) := by
        simp [marked]
      have hmark : (do if ← eatOperator mark then return some () else return none :
          Parser (Option Unit)) (ahead (op mark ::
            (spelled first ++ (marked mark spelled parts ++ next :: rest))) blocks) =
          .ok (some (), _) := bind_of_ok (eatOperator_op mark)
      rw [htokens]
      exact whilst_step hmark hread hrest

end Marked

section Classes

variable {name : String} {base : Option String}

-- The base of a class in its brackets.
def baseText : Option String → List Char
  | none => []
  | some base => '(' :: (base.toList ++ [')'])

def baseTokens : Option String → List Token
  | none => []
  | some base => [op "(", word base, op ")"]

theorem lexesAs_based (hname : isName name = true) (hbase : ∀ found ∈ base, isName found = true) :
    scanner.LexesAs (name.toList ++ baseText base) (word name :: baseTokens base) := by
  cases base with
  | none =>
      rw [baseText, List.append_nil]
      exact lexesAs_name hname
  | some base =>
      have henclosed := (lexesAs_name (hbase base rfl)).enclosed '(' ')' (by decide) (by decide)
      exact (lexesAs_name hname).append henclosed fun _ _ => ends_cons (by decide) _

theorem baseClass_run (base : Option String) (rest : List Token) (blocks : Blocks) :
    baseClass (ahead (baseTokens base ++ op ":" :: rest) blocks) =
      .ok (base, ahead (op ":" :: rest) blocks) := by
  cases base with
  | none =>
      rw [baseClass, baseTokens, List.nil_append, bind_of_ok (eatOperator_miss rfl)]
      rfl
  | some base =>
      have hclose : checkOperator ")" (ahead (word base :: op ")" :: op ":" :: rest) blocks) =
          .ok (false, _) := checkOperator_run ")"
      rw [baseClass, baseTokens, List.cons_append, List.cons_append, List.singleton_append,
        bind_of_ok (eatOperator_op "("), if_pos rfl, test_of_false hclose,
        bind_of_ok (identifier_word base), pure_bind]
      exact bind_of_ok (expectOperator_op ")")

theorem says_class {phrase : Phrase} {body : Fragment} {values : List Stmt}
    (hname : isName name = true) (hbase : ∀ found ∈ base, isName found = true)
    (htext : phrase.text.toList = "class".toList ++ ' ' :: (name.toList ++ baseText base) ++ [':'])
    (hbody : SaysBlock embedded width body values) :
    Says embedded width (.phrase phrase ++ body.indent) [.classDef name base values .start] := by
  have hlexes := lexesAs_behind "class" (by decide) (lexesAs_based hname hbase)
  apply says_block rfl hlexes htext rfl hbody
  intro size limit inner rest blocks hlength hsize hblock
  change classDef _ (limit + 1)
    (ahead (kw "class" :: word name :: (baseTokens base ++ op ":" :: (inner ++ rest))) blocks) = _
  rw [classDef, bind_of_ok position_run, bind_of_ok (expectKeyword_kw "class"),
    bind_of_ok (identifier_word name), bind_of_ok (baseClass_run base _ blocks),
    bind_of_ok (hblock rest)]
  rfl

end Classes

section Names

variable {next : Token} {more : List String}

-- Another name that something is given.
def otherText : Option String → List Char
  | none => []
  | some name => ' ' :: ("as".toList ++ ' ' :: name.toList)

def otherTokens : Option String → List Token
  | none => []
  | some name => [kw "as", word name]

theorem lexesAs_other {text : List Char} {tokens : List Token} {other : Option String}
    (h : scanner.LexesAs text tokens) (hother : ∀ found ∈ other, isName found = true) :
    scanner.LexesAs (text ++ otherText other) (tokens ++ otherTokens other) := by
  cases other with
  | none =>
      rw [otherText, otherTokens, List.append_nil, List.append_nil]
      exact h
  | some name => exact h.join (lexesAs_name (hother name rfl)) (joins_keyword "as" (by decide) (by decide))

theorem otherName?_run (other : Option String) (hnext : next.isKeyword "as" = false)
    (rest : List Token) (blocks : Blocks) :
    otherName? (ahead (otherTokens other ++ next :: rest) blocks) =
      .ok (other, ahead (next :: rest) blocks) := by
  cases other with
  | none => exact otherName?_miss hnext
  | some name => exact otherName?_as name (next :: rest) blocks

-- Names with points between them.
def dottedText (first : String) (more : List String) : List Char :=
  first.toList ++ more.flatMap ('.' :: ·.toList)

def dottedTokens (first : String) (more : List String) : List Token :=
  word first :: marked "." ([word ·]) more

theorem ends_points (h : ∀ name ∈ more, isName name = true) {rest : List Char} (hrest : Ends rest) :
    Ends (more.flatMap ('.' :: ·.toList) ++ rest) := by
  cases more with
  | nil => exact hrest
  | cons second more =>
      rw [List.flatMap_cons, List.append_assoc]
      exact ends_point (h second List.mem_cons_self) _

theorem lexesAs_points (h : ∀ name ∈ more, isName name = true) :
    scanner.LexesAs (more.flatMap ('.' :: ·.toList)) (marked "." ([word ·]) more) := by
  induction more with
  | nil => exact Scanner.lexesAs_nil
  | cons name more ih =>
      obtain ⟨hname, hmore⟩ := List.forall_mem_cons.mp h
      exact (lexesAs_member hname).append (ih hmore) fun _ => ends_points hmore

theorem lexesAs_dotted {first : String} (hfirst : isName first = true)
    (hmore : ∀ name ∈ more, isName name = true) :
    scanner.LexesAs (dottedText first more) (dottedTokens first more) :=
  (lexesAs_name hfirst).append (lexesAs_points hmore) fun _ => ends_points hmore

theorem dottedName_run (first : String) (more : List String) (hnext : next.isOperator "." = false)
    {limit : Nat} (hlimit : more.length < limit) (rest : List Token) (blocks : Blocks) :
    dottedName limit (ahead (dottedTokens first more ++ next :: rest) blocks) =
      .ok (".".intercalate (first :: more), ahead (next :: rest) blocks) := by
  have hname : ∀ name ∈ more, ∀ token, token = op "." ∨ token = next → ∀ rest,
      identifier (ahead ([word name] ++ token :: rest) blocks) =
        .ok (id name, ahead (token :: rest) blocks) := fun name _ _ _ _ => identifier_word name
  have hmore := whilst_marked hnext hname hlimit rest
  rw [List.map_id] at hmore
  rw [dottedName, dottedTokens, List.cons_append, bind_of_ok (identifier_word first),
    bind_of_ok hmore]
  rfl

end Names

section Imports

variable {imported : ImportedName} {first : String} {more : List String}

def importedTokens (imported : ImportedName) : List Token :=
  word imported.name :: otherTokens imported.otherName

-- Whether an imported name and the other name that it is given, if any, are names.
def isImportable (imported : ImportedName) : Bool :=
  isName imported.name && imported.otherName.all isName

theorem toList_importedText (imported : ImportedName) :
    (importedText imported).toList = imported.name.toList ++ otherText imported.otherName := by
  obtain ⟨name, other⟩ := imported
  cases other with
  | none => exact (List.append_nil _).symm
  | some other =>
      have has : " as ".toList = ' ' :: ("as".toList ++ [' ']) := rfl
      simp only [importedText, otherText, String.toList_append, has, List.append_assoc,
        List.cons_append, List.nil_append]

theorem lexesAs_imported (h : isImportable imported = true) :
    scanner.LexesAs (importedText imported).toList (importedTokens imported) := by
  obtain ⟨hname, hother⟩ := Bool.and_eq_true_iff.mp h
  rw [toList_importedText]
  exact lexesAs_other (lexesAs_name hname) ((Option.all_eq_true _ _).mp hother)

theorem importedName_run (imported : ImportedName) {next : Token}
    (hnext : next.isKeyword "as" = false) (rest : List Token) (blocks : Blocks) :
    importedName (ahead (importedTokens imported ++ next :: rest) blocks) =
      .ok (imported, ahead (next :: rest) blocks) := by
  rw [importedName, importedTokens, List.cons_append, bind_of_ok (identifier_word imported.name),
    bind_of_ok (otherName?_run _ hnext rest blocks)]
  rfl

-- An import of a module.
theorem says_import (phrase : Phrase) {other : Option String} (hfirst : isName first = true)
    (hmore : ∀ name ∈ more, isName name = true) (hother : ∀ found ∈ other, isName found = true)
    (htext : phrase.text.toList =
      "import".toList ++ ' ' :: (dottedText first more ++ otherText other)) :
    Says embedded width (.phrase phrase)
      [.imports (".".intercalate (first :: more)) (.whole other) .start] := by
  have hlexes := lexesAs_behind "import" (by decide)
    (lexesAs_other (lexesAs_dotted hfirst hmore) hother)
  rw [← htext] at hlexes
  apply says_line phrase (by rw [htext]; rfl) hlexes rfl
  intro size limit inner rest blocks hlength hsize
  have hrounds := length_le_length_marked "." ([word ·]) more
  simp only [List.length_cons, List.length_append, dottedTokens] at hlength
  have hpath : dottedName (limit + 1) (ahead (dottedTokens first more ++
      (otherTokens other ++ .newline :: rest)) blocks) =
        .ok (".".intercalate (first :: more), ahead (otherTokens other ++ .newline :: rest) blocks) := by
    cases other with
    | none => exact dottedName_run first more rfl (by omega) rest blocks
    | some other => exact dottedName_run first more rfl (by omega) (word other :: .newline :: rest) blocks
  have hname : otherName? (ahead (otherTokens other ++ .newline :: rest) blocks) = .ok (other, _) :=
    otherName?_run other rfl rest blocks
  have himport : importStatement (limit + 1) (ahead (kw "import" :: (dottedTokens first more ++
      (otherTokens other ++ .newline :: rest))) blocks) =
        .ok (.imports (".".intercalate (first :: more)) (.whole other) .start,
          ahead (.newline :: rest) blocks) := by
    rw [importStatement, bind_of_ok position_run, bind_of_ok (eatKeyword_kw "import"), if_pos rfl,
      bind_of_ok hpath, bind_of_ok hname]
    rfl
  rw [List.cons_append, List.append_assoc]
  change (importStatement (limit + 1) >>= fun found => endOfStatement >>= fun _ => pure found) _ = _
  rw [bind_of_ok himport, bind_of_ok endOfStatement_newline, pure_run]

-- An import of names from a module.
theorem says_importNames (phrase : Phrase) {others : List ImportedName}
    (hfirst : isName first = true) (hmore : ∀ name ∈ more, isName name = true)
    (himported : ∀ found ∈ imported :: others, isImportable found = true)
    (htext : phrase.text.toList = "from".toList ++ ' ' :: (dottedText first more ++ ' ' ::
      ("import".toList ++ ' ' ::
        commaTexts ((imported :: others).map fun found => (importedText found).toList)))) :
    Says embedded width (.phrase phrase)
      [.imports (".".intercalate (first :: more)) (.names (imported :: others)) .start] := by
  have hnames : scanner.LexesAs (commaTexts ((imported :: others).map fun found =>
      (importedText found).toList)) (commas ((imported :: others).map importedTokens)) :=
    Scanner.lexesAs_commas fun found hfound => lexesAs_imported (himported found hfound)
  have hlexes := lexesAs_behind "from" (by decide)
    ((lexesAs_dotted hfirst hmore).join hnames (joins_keyword "import" (by decide) (by decide)))
  rw [← htext] at hlexes
  apply says_line phrase (by rw [htext]; rfl) hlexes rfl
  intro size limit inner rest blocks hlength hsize
  rw [commas_eq_marked] at hlength ⊢
  have hrounds := length_le_length_marked "." ([word ·]) more
  have hcommas := length_le_length_marked "," importedTokens others
  simp only [List.length_cons, List.length_append, dottedTokens] at hlength
  have hpath := dottedName_run first more (show (kw "import").isOperator "." = false from rfl)
    (show more.length < limit + 1 by omega)
    (importedTokens imported ++ (marked "," importedTokens others ++ .newline :: rest)) blocks
  have hread : ∀ found token, token = op "," ∨ token = .newline → ∀ rest,
      importedName (ahead (importedTokens found ++ token :: rest) blocks) =
        .ok (id found, ahead (token :: rest) blocks) := by
    rintro found token (rfl | rfl) rest <;> exact importedName_run found rfl rest blocks
  have hone : importedName (ahead (importedTokens imported ++ (marked "," importedTokens others ++
      .newline :: rest)) blocks) = .ok (imported, ahead (marked "," importedTokens others ++
        .newline :: rest) blocks) := by
    cases others with
    | nil => exact hread imported .newline (.inr rfl) rest
    | cons second others => exact hread imported (op ",") (.inl rfl) _
  have hothers := whilst_marked (show Token.newline.isOperator "," = false from rfl)
    (fun found (_ : found ∈ others) => hread found) (show others.length < limit + 1 by omega) rest
  rw [List.map_id] at hothers
  have himport : importStatement (limit + 1) (ahead (kw "from" :: (dottedTokens first more ++
      kw "import" :: (importedTokens imported ++ (marked "," importedTokens others ++
        .newline :: rest)))) blocks) =
        .ok (.imports (".".intercalate (first :: more)) (.names (imported :: others)) .start,
          ahead (.newline :: rest) blocks) := by
    rw [importStatement, bind_of_ok position_run, test_of_false (eatKeyword_miss rfl),
      bind_of_ok (expectKeyword_kw "from"), bind_of_ok hpath,
      bind_of_ok (expectKeyword_kw "import"), bind_of_ok hone, bind_of_ok hothers]
    rfl
  simp only [List.cons_append, List.append_assoc]
  change (importStatement (limit + 1) >>= fun found => endOfStatement >>= fun _ => pure found) _ = _
  rw [bind_of_ok himport, bind_of_ok endOfStatement_newline, pure_run]

end Imports

end Diglot.Indented
