import Diglot.Proofs.Embedding
import Diglot.Proofs.Indented.Embedded
import Diglot.Proofs.Indented.Written
import Diglot.Proofs.Parser.Statements

namespace Diglot.Indented

open Token (op kw word)
open Written (text_enclose)

abbrev enclose : Nat → Expr → Written → Written := Written.enclose precedence

-- The levels that the operands of an arithmetic operator need.

def leftLevel : BinaryOp → Nat
  | .power => Level.atom
  | op => binaryLevel op

def rightLevel : BinaryOp → Nat
  | .power => Level.unary
  | op => binaryLevel op + 1

-- The call of a name without arguments.
def nullary (name : String) : Written := .call (.ofName name) []

-- A quoted text.
def quoted (value : String) : Written := .ofString value (Quoted.readBack value)

theorem quoted_of_isPlain {value : String} (h : value.toList.all Quoted.isPlain = true) :
    quoted value = .ofString value value := by rw [quoted, Quoted.readBack_of_isPlain h]

-- A brace of the text of an interpolated string stands twice in its value.
def doubled (c : Char) : List Char := if c == '{' || c == '}' then [c, c] else [c]

-- What a segment is in the value of an interpolated string.
def segmentValue : Segment String → List Char
  | .text value => value.toList.flatMap doubled
  | .expr text => '{' :: (text.toList ++ ['}'])

-- The segments of a template with its expressions as they are written.
def templateTexts (raw : String) : List (Segment String) :=
  writeSegmentsWith writeTemplate (Braced.templateSegments raw.toList).1

-- A template is written as a plain or as an interpolated string.
def writtenTemplate (raw : String) : Written :=
  match onlyText? (templateTexts raw) with
  | some text =>
      let lexeme := Quoted.readBack text
      .leaf (writeTemplate raw).toList (.string lexeme) (.string lexeme .start)
  | none =>
      let lexeme := (templateTexts raw).flatMap segmentValue
      .leaf (writeTemplate raw).toList ⟨.interpolated, String.ofList lexeme, .start⟩
        (.interpolated ((segments readSource lexeme).toOption.getD []) .start)

mutual

-- How an expression is written.
def written : Expr → Written
  | .binary op left right _ =>
      binary op (enclose (leftLevel op) left (written left))
        (enclose (rightLevel op) right (written right))
  | .unary .negate operand _ =>
      withSign .negate (enclose Level.unary operand (written operand))
  | .unary .plus operand _ => withSign .plus (enclose Level.unary operand (written operand))
  | .unary .not operand _ =>
      let negation := prefixed .not (enclose Level.negation operand (written operand))
      match operand with
      | .call (.member container name _) [element] _ =>
          if name = "includes" then
            compare (enclose (Level.comparison + 1) element (written element))
              [⟨.notIn, enclose (Level.comparison + 1) container (written container)⟩]
          else negation
      | _ => negation
  | .logical op left right _ =>
      logical op (enclose (logicalRank op) left (written left))
        (enclose (logicalRank op + 1) right (written right))
  | .compare left comparisons _ =>
      compare (enclose (Level.comparison + 1) left (written left)) (writtenLinks comparisons)
  | .conditional test consequent alternate _ =>
      ternary (enclose (Level.conditional + 1) consequent (written consequent))
        (enclose (Level.conditional + 1) test (written test))
        (enclose Level.conditional alternate (written alternate))
  | .membership element container negated _ =>
      compare (enclose (Level.comparison + 1) element (written element))
        [⟨if negated then .notIn else .isIn,
          enclose (Level.comparison + 1) container (written container)⟩]
  | .index object index _ =>
      .index (enclose Level.atom object (written object)) (written index)
  | .slice object start stop step _ =>
      slice (enclose Level.atom object (written object)) (writtenOption start)
        (writtenOption stop) (writtenOption step)
  | .member object name _ =>
      let objectWritten := written object
      match object with
      | .super _ => .member (nullary "super") name (word name)
      | object =>
          match name with
          | "length" => .call (.ofName "len") [objectWritten]
          | "push" => .member (enclose Level.atom object objectWritten) "append" (word "append")
          | name => .member (enclose Level.atom object objectWritten) name (word name)
  | .call callee args _ =>
      let argsWritten := writtenAll args
      let called := Written.call (enclose Level.atom callee (written callee)) argsWritten
      match callee with
      | .super _ => .call (.member (nullary "super") "__init__" (word "__init__")) argsWritten
      | .member object name _ =>
          match name, args with
          | "includes", [element] =>
              compare (enclose (Level.comparison + 1) element (written element))
                [⟨.isIn, enclose (Level.comparison + 1) object (written object)⟩]
          | "at", [index] => .index (enclose Level.atom object (written object)) (written index)
          | "slice", [] => slice (enclose Level.atom object (written object)) none none none
          | "slice", [start] =>
              slice (enclose Level.atom object (written object)) (some (written start)) none none
          | "slice", [start, stop] =>
              slice (enclose Level.atom object (written object)) (some (written start))
                (some (written stop)) none
          | "floor", [.binary .divide left right _] =>
              if object.var? = some "Math" then
                binary .floorDivide (enclose Level.multiplicative left (written left))
                  (enclose (Level.multiplicative + 1) right (written right))
              else called
          | "log", _ =>
              if object.var? = some "console" then
                .call (.ofKeyword "print" (.var "print" .start)) argsWritten
              else called
          | _, _ => called
      | _ => called
  | .construct callee args _ =>
      .call (enclose Level.atom callee (written callee)) (writtenAll args)
  | .list elements _ => .list (writtenAll elements)
  | .dict entries _ => dict (writtenEntries entries)
  | .interpolated segments _ =>
      .sealed (interpolatedText (writeSegmentsWith writeTemplate segments))
  | .template raw _ => writtenTemplate raw
  | .number literal _ => .ofNumber literal
  | .string value _ => quoted value
  | .boolean value _ =>
      .ofKeyword (if value then "True" else "False") (.boolean value .start)
  | .null _ => .ofKeyword "None" (.null .start)
  | .var name _ => .ofName name
  | .this _ => .ofName "self"
  | .super _ => nullary "super"

def writtenAll : List Expr → List Written
  | [] => []
  | first :: rest => written first :: writtenAll rest

def writtenOption : Option Expr → Option Written
  | none => none
  | some expr => some (written expr)

def writtenLinks : List (Comparison Expr) → List (Comparison Written)
  | [] => []
  | ⟨op, right⟩ :: rest =>
      ⟨op, enclose (Level.comparison + 1) right (written right)⟩ :: writtenLinks rest

def writtenEntries : List (DictEntry Expr) → List (Written × Written)
  | [] => []
  | ⟨.literal text, value⟩ :: rest => (quoted text, written value) :: writtenEntries rest
  | ⟨.number text, value⟩ :: rest => (.ofNumber text, written value) :: writtenEntries rest
  | ⟨.computed key, value⟩ :: rest => (written key, written value) :: writtenEntries rest

end

section Text

mutual

-- The text of what is written is the text of the expression.
theorem text_written : ∀ e : Expr, (written e).text = (writeExprWith writeTemplate e).toList
  | .binary op left right _ => by
      have hleft := text_written left
      have hright := text_written right
      cases op <;>
        simp [written, writeExprWith, binary, Written.infixed, leftLevel, rightLevel,
          text_enclose hleft, text_enclose hright, binarySymbol]
  | .unary op operand _ => by
      have hoperand := text_written operand
      cases op with
      | negate | plus =>
          simp [written, writeExprWith, text_withSign, text_enclose hoperand, unaryText]
      | not =>
          rw [written.eq_def, writeExprWith.eq_def]
          dsimp only
          split
          · rename_i container name _ element _
            by_cases hname : name = "includes"
            · simp [hname, compare, linksText, text_enclose (text_written element),
                text_enclose (text_written container), compareSymbol]
            · simp [hname, prefixed, unaryText, text_enclose hoperand]
          · simp [prefixed, unaryText, text_enclose hoperand]
  | .logical op left right _ => by
      have hleft := text_written left
      have hright := text_written right
      cases op <;>
        simp [written, writeExprWith, logical, Written.infixed, logicalRank, text_enclose hleft,
          text_enclose hright, logicalWord, Level.conjunction, Level.disjunction]
  | .compare left comparisons _ => by
      have hleft := text_written left
      have hlinks := text_writtenLinks comparisons
      simp [written, writeExprWith, compare, text_enclose hleft, hlinks]
  | .conditional test consequent alternate _ => by
      have htest := text_written test
      have hconsequent := text_written consequent
      have halternate := text_written alternate
      simp [written, writeExprWith, ternary, text_enclose htest, text_enclose hconsequent,
        text_enclose halternate]
  | .membership element container negated _ => by
      have helement := text_written element
      have hcontainer := text_written container
      cases negated <;>
        simp [written, writeExprWith, compare, linksText, text_enclose helement,
          text_enclose hcontainer, compareSymbol]
  | .index object index _ => by
      simp [written, writeExprWith, Written.index, text_enclose (text_written object),
        text_written index]
  | .slice object start stop step _ => by
      have hobject := text_written object
      have hstart := text_writtenOption start
      have hstop := text_writtenOption stop
      have hstep := text_writtenOption step
      cases step with
      | none =>
          simp [written, writeExprWith, slice, writtenOption, text_enclose hobject, hstart, hstop]
      | some step =>
          simp only [writtenOption, Option.elim_some, writeOptionWith] at hstep
          simp [written, writeExprWith, slice, writtenOption, text_enclose hobject, hstart, hstop,
            hstep]
  | .member object name _ => by
      have hobject := text_written object
      rw [written.eq_def, writeExprWith.eq_def]
      dsimp only
      split
      · simp [Written.member, Written.call, nullary, Written.ofName, Written.leaf, commaTexts]
      · split <;>
          simp [Written.member, Written.call, Written.ofName, Written.leaf, commaTexts,
            text_enclose hobject, hobject]
  | .call callee args _ => by
      have hcallee := text_written callee
      have hargs := text_writtenAll args
      rw [written.eq_def, writeExprWith.eq_def]
      dsimp only
      split
      · simp [Written.call, Written.member, nullary, Written.ofName, Written.leaf, commaTexts, hargs]
      · rename_i object name pos
        have hobject := text_written object
        split
        · rename_i element
          simp [compare, linksText, text_enclose (text_written element), text_enclose hobject,
            compareSymbol]
        · rename_i index
          simp [Written.index, text_enclose hobject, text_written index]
        · simp [slice, text_enclose hobject]
        · rename_i start
          simp [slice, text_enclose hobject, text_written start]
        · rename_i start stop
          simp [slice, text_enclose hobject, text_written start, text_written stop]
        · rename_i left right _
          by_cases hmath : object.var? = some "Math"
          · simp [hmath, binary, Written.infixed, text_enclose (text_written left),
              text_enclose (text_written right), binarySymbol]
          · simp [hmath, Written.call, text_enclose hcallee, commaTexts, hargs]
        · by_cases hconsole : object.var? = some "console"
          · simp [hconsole, Written.call, Written.ofKeyword, Written.leaf, commaTexts, hargs]
          · simp [hconsole, Written.call, text_enclose hcallee, commaTexts, hargs]
        · simp [Written.call, text_enclose hcallee, commaTexts, hargs]
      · simp [Written.call, text_enclose hcallee, commaTexts, hargs]
  | .construct callee args _ => by
      simp [written, writeExprWith, Written.call, commaTexts, text_enclose (text_written callee),
        text_writtenAll args]
  | .list elements _ => by
      simp [written, writeExprWith, Written.list, commaTexts, text_writtenAll elements]
  | .dict entries _ => by
      simp [written, writeExprWith, dict, commaTexts, text_writtenEntries entries]
  | .interpolated segments _ => by simp [written, writeExprWith, Written.sealed, Written.leaf]
  | .template raw _ => by
      rw [written, writeExprWith, writtenTemplate]
      split <;> rfl
  | .number literal _ => by simp [written, writeExprWith, Written.ofNumber, Written.leaf]
  | .string value _ => by simp [written, writeExprWith, quoted, Written.ofString, Written.leaf]
  | .boolean value _ => by
      cases value <;> simp [written, writeExprWith, Written.ofKeyword, Written.leaf]
  | .null _ => by simp [written, writeExprWith, Written.ofKeyword, Written.leaf]
  | .var name _ => by simp [written, writeExprWith, Written.ofName, Written.leaf]
  | .this _ => by simp [written, writeExprWith, Written.ofName, Written.leaf]
  | .super _ => by
      simp [written, writeExprWith, nullary, Written.call, Written.ofName, Written.leaf, commaTexts]

theorem text_writtenAll : ∀ exprs : List Expr,
    (writtenAll exprs).map Written.text = (writeExprsWith writeTemplate exprs).map String.toList
  | [] => rfl
  | first :: rest => by
      simp [writtenAll, writeExprsWith, text_written first, text_writtenAll rest]

theorem text_writtenOption : ∀ expr : Option Expr,
    (writtenOption expr).elim [] Written.text = (writeOptionWith writeTemplate expr).toList
  | none => rfl
  | some expr => text_written expr

theorem text_writtenLinks : ∀ links : List (Comparison Expr),
    linksText (writtenLinks links) = (String.join (writeLinksWith writeTemplate links)).toList
  | [] => rfl
  | ⟨op, right⟩ :: rest => by
      have hright := text_written right
      have hrest := text_writtenLinks rest
      rw [linksText] at hrest
      simp [writtenLinks, writeLinksWith, linksText, text_enclose hright, hrest]

theorem text_writtenEntries : ∀ entries : List (DictEntry Expr),
    (writtenEntries entries).map (fun entry => entry.1.text ++ ':' :: ' ' :: entry.2.text) =
      (writeEntriesWith writeTemplate entries).map String.toList
  | [] => rfl
  | ⟨.literal text, value⟩ :: rest => by
      simp [writtenEntries, writeEntriesWith, quoted, Written.ofString, Written.leaf, text_written value,
        text_writtenEntries rest]
  | ⟨.number text, value⟩ :: rest => by
      simp [writtenEntries, writeEntriesWith, Written.ofNumber, Written.leaf, text_written value,
        text_writtenEntries rest]
  | ⟨.computed key, value⟩ :: rest => by
      simp [writtenEntries, writeEntriesWith, text_written key, text_written value,
        text_writtenEntries rest]

end

end Text

-- Whether the words and numbers of an expression are written as the lexer wants them, and the
-- templates in a way that it can read. Interpolated strings are left out.
def isSpelledWith (template : String → Bool) : Expr → Bool
  | .member _ name _ | .var name _ => isName name
  | .dict entries _ => entries.all (·.key.number?.all (Number.isLiteral ·.toList))
  | .interpolated .. => false
  | .template raw _ => template raw
  | .number literal _ => Number.isLiteral literal.toList
  | _ => true

-- The same without templates.
abbrev isSpelled : Expr → Bool := isSpelledWith fun _ => false

variable {embedded : Embedder}

section Leaves

open Diglot.Parser

variable {text : List Char} {name : String}

theorem opens_of_isWord (h : isWord text = true) : text.head?.any opensText = true := by
  cases text with
  | nil => simp [isWord] at h
  | cons c more =>
      simp only [isWord, List.head?_cons, Option.any_some, Bool.and_eq_true] at h
      have hne : ∀ d, isLetter d = false → c ≠ d := fun d hd => ne_of_test h.1 hd
      simp [opensText, hne '=' rfl, hne ' ' rfl, hne '\t' rfl, hne '\n' rfl, hne '\r' rfl,
        hne '#' rfl]

theorem opens_of_isLiteral (h : Number.isLiteral text = true) :
    text.head?.any opensText = true := by
  cases text with
  | nil => simp [Number.isLiteral] at h
  | cons c more =>
      simp only [Number.isLiteral, Bool.and_eq_true] at h
      have hne : ∀ d, isDigit d = false → c ≠ d := fun d hd => ne_of_test h.1 hd
      simp [opensText, hne '=' rfl, hne ' ' rfl, hne '\t' rfl, hne '\n' rfl, hne '\r' rfl,
        hne '#' rfl]

theorem sound_name (h : isName name = true) : Sound embedded (.ofName name) :=
  .leaf (lexesAs_name h) (opens_of_isWord (Bool.and_eq_true_iff.mp h).1) (.name name)

theorem sound_number {literal : String} (h : Number.isLiteral literal.toList = true) :
    Sound embedded (.ofNumber literal) :=
  .leaf (lexesAs_number h) (opens_of_isLiteral h) (.number literal)

theorem sound_quoted (value : String) : Sound embedded (quoted value) :=
  .leaf (lexesAs_string value) (by simp [quote, opensText])
    (.leaf rfl rfl fun _ _ _ _ => by simp [primary, bind_run, map_run])

-- The keywords that say a value.
theorem sound_keyword {keyword : String} {value : Expr}
    (h : (keyword, value) ∈ [("True", Expr.boolean true .start), ("False", .boolean false .start),
      ("None", .null .start), ("print", .var "print" .start)]) :
    Sound embedded (.ofKeyword keyword value) := by
  simp only [List.mem_cons, Prod.mk.injEq, List.not_mem_nil, or_false] at h
  have hword : isWord keyword.toList = true ∧ keyword ∈ keywords ∧
      grammar.begins 14 .keyword keyword = true := by
    rcases h with ⟨rfl, -⟩ | ⟨rfl, -⟩ | ⟨rfl, -⟩ | ⟨rfl, -⟩ <;> decide
  have hlexes := lexesAs_keyword keyword hword.1 hword.2.1
  refine .leaf hlexes (opens_of_isWord hword.1) (.leaf rfl hword.2.2 ?_)
  intro expression limit rest blocks
  rcases h with ⟨rfl, rfl⟩ | ⟨rfl, rfl⟩ | ⟨rfl, rfl⟩ | ⟨rfl, rfl⟩ <;>
    simp [primary, bind_run, map_run]

theorem sound_nullary (h : isName name = true) : Sound embedded (nullary name) :=
  (sound_name h).call (Nat.le_refl 14) (by simp)

end Leaves

section Ranks

variable {e : Expr} {w : Written} {needed : Nat}

-- What is written is sound, and of the level at which its expression binds, but for powers and
-- signs, which change places.
structure Fits (embedded : Embedder) (e : Expr) (w : Written) : Prop where
  sound : Sound embedded w
  rank : min (precedence e) 12 ≤ w.rank
  atom : 14 ≤ precedence e → 14 ≤ w.rank
  power : w.rank = 12 → IsPower embedded w

theorem Fits.of_rank (h : Sound embedded w) (hrank : w.rank = 14) : Fits embedded e w :=
  ⟨h, by omega, fun _ => by omega, fun _ => by omega⟩

-- What is looser than signs and powers.
theorem Fits.of_loose {level : Nat} (h : Sound embedded w) (hlevel : precedence e = level)
    (hloose : level ≤ w.rank ∧ w.rank ≤ 11) : Fits embedded e w :=
  ⟨h, by omega, fun _ => by omega, fun _ => by omega⟩

theorem Fits.enclose (h : Fits embedded e w) (hneeded : needed ≤ 12) :
    Sound embedded (enclose needed e w) ∧ needed ≤ (Indented.enclose needed e w).rank := by
  have hrank := h.rank
  unfold Indented.enclose Written.enclose
  split
  · exact ⟨h.sound.group, Nat.le_trans hneeded (by decide : 12 ≤ 14)⟩
  · exact ⟨h.sound, by omega⟩

theorem Fits.enclose_atom (h : Fits embedded e w) :
    Sound embedded (Indented.enclose Level.atom e w) ∧
      14 ≤ (Indented.enclose Level.atom e w).rank := by
  unfold Indented.enclose Written.enclose
  split
  · exact ⟨h.sound.group, Nat.le_refl 14⟩
  · rename_i hlevel
    exact ⟨h.sound, h.atom (Nat.le_of_not_lt hlevel)⟩

theorem Fits.power_of_enclose (h : Fits embedded e w)
    (hrank : (Indented.enclose needed e w).rank = 12) :
    IsPower embedded (Indented.enclose needed e w) := by
  unfold Indented.enclose Written.enclose at hrank ⊢
  split at hrank
  · cases hrank
  · rename_i hlevel
    rw [if_neg hlevel]
    exact h.power hrank

theorem fits_withSign {sign : UnaryOp} (hsign : sign ≠ .not) {operand : Expr} {pos : Pos}
    (h : Fits embedded operand w) :
    Fits embedded (.unary sign operand pos)
      (withSign sign (Indented.enclose Level.unary operand w)) := by
  obtain ⟨hsound, hrank⟩ := h.enclose (by decide : Level.unary ≤ 12)
  have hlevel : precedence (.unary sign operand pos) = 12 := by
    cases sign <;> first | rfl | contradiction
  have htight : unaryRank sign = 13 := by cases sign <;> first | rfl | contradiction
  rcases Nat.lt_or_eq_of_le hrank with hlt | heq
  · have hrank : (prefixed sign (Indented.enclose Level.unary operand w)).rank = 13 := htight
    rw [withSign_of_lt sign hlt]
    exact ⟨hsound.prefixed (by rw [htight]; exact hlt), by omega, fun _ => by omega,
      fun _ => by omega⟩
  · have hpower := (h.power_of_enclose heq.symm).withSign hsign
    have hrank : (withSign sign (Indented.enclose Level.unary operand w)).rank = 12 := by
      obtain ⟨base, exponent, heq, -⟩ := hpower
      rw [heq]
      rfl
    exact ⟨hpower.sound, by omega, fun _ => by omega, fun _ => hpower⟩

theorem sound_membership (op : CompareOp) {element container : Expr} {left right : Written}
    (hleft : Fits embedded element left) (hright : Fits embedded container right) :
    Sound embedded (compare (Indented.enclose (Level.comparison + 1) element left)
      [⟨op, Indented.enclose (Level.comparison + 1) container right⟩]) := by
  obtain ⟨helement, helementrank⟩ := hleft.enclose (by decide : Level.comparison + 1 ≤ 12)
  obtain ⟨hcontainer, hrank⟩ := hright.enclose (by decide : Level.comparison + 1 ≤ 12)
  exact helement.compare (List.forall_mem_singleton.mpr hcontainer) helementrank
    (List.forall_mem_singleton.mpr hrank)

end Ranks

section Nodes

variable {left right operand test consequent alternate object callee : Expr} {args : List Expr}
  {pos : Pos}

theorem fits_binary (op : BinaryOp) (h : ∀ e ∈ [left, right], Fits embedded e (written e)) :
    Fits embedded (.binary op left right pos) (written (.binary op left right pos)) := by
  have hleft := h left (by simp)
  have hright := h right (by simp)
  by_cases hop : op = .power
  · subst hop
    obtain ⟨hbase, hbaserank⟩ := hleft.enclose_atom
    obtain ⟨hexponent, hrank⟩ := hright.enclose (by decide : Level.unary ≤ 12)
    have hpower : IsPower embedded (written (.binary .power left right pos)) :=
      ⟨_, _, rfl, hbase, hexponent, Nat.le_of_succ_le hbaserank, hrank⟩
    exact ⟨hpower.sound, Nat.le_refl 12, fun h => absurd h (by decide : ¬ 14 ≤ 13),
      fun _ => hpower⟩
  · have hlevel : binaryLevel op = binaryRank op ∧ leftLevel op = binaryRank op ∧
        rightLevel op = binaryRank op + 1 ∧ binaryRank op ≤ 11 := by
      cases op <;> first | decide | contradiction
    obtain ⟨hleft, hleftrank⟩ := hleft.enclose (by omega : leftLevel op ≤ 12)
    obtain ⟨hright, hrightrank⟩ := hright.enclose (by omega : rightLevel op ≤ 12)
    exact .of_loose (.binary hop hleft hright (by omega) (by omega)) hlevel.1
      ⟨Nat.le_refl _, hlevel.2.2.2⟩

-- A question that is negated is written as one operator.
theorem fits_not (h : Fits embedded operand (written operand))
    (hasked : ∀ container name element inner outer,
      operand = .call (.member container name inner) [element] outer →
        Fits embedded element (written element) ∧ Fits embedded container (written container)) :
    Fits embedded (.unary .not operand pos) (written (.unary .not operand pos)) := by
  obtain ⟨hsound, hrank⟩ := h.enclose (by decide : Level.negation ≤ 12)
  have hnegation : Fits embedded (.unary .not operand pos)
      (prefixed .not (enclose Level.negation operand (written operand))) :=
    .of_loose (hsound.prefixed hrank) rfl (by decide : 4 ≤ 4 ∧ 4 ≤ 11)
  rw [written.eq_def]
  dsimp only
  split
  · split
    · obtain ⟨helement, hcontainer⟩ := hasked _ _ _ _ _ rfl
      exact .of_loose (sound_membership .notIn helement hcontainer) rfl
        (by decide : 4 ≤ 5 ∧ 5 ≤ 11)
    · exact hnegation
  · exact hnegation

theorem fits_logical (op : BoolOp) (h : ∀ e ∈ [left, right], Fits embedded e (written e)) :
    Fits embedded (.logical op left right pos) (written (.logical op left right pos)) := by
  have hloose : logicalRank op ≤ 3 := by cases op <;> decide
  obtain ⟨hleft, hleftrank⟩ := (h left (by simp)).enclose (by omega : logicalRank op ≤ 12)
  obtain ⟨hright, hrightrank⟩ := (h right (by simp)).enclose (by omega : logicalRank op + 1 ≤ 12)
  exact .of_loose (.logical hleft hright hleftrank hrightrank) (by cases op <;> rfl)
    ⟨Nat.le_refl (logicalRank op), Nat.le_trans hloose (by decide)⟩

theorem fits_conditional
    (h : ∀ e ∈ [test, consequent, alternate], Fits embedded e (written e)) :
    Fits embedded (.conditional test consequent alternate pos)
      (written (.conditional test consequent alternate pos)) := by
  have hlevel : Level.conditional + 1 ≤ 12 := by decide
  obtain ⟨htest, htestrank⟩ := (h test (by simp)).enclose hlevel
  obtain ⟨hconsequent, hrank⟩ := (h consequent (by simp)).enclose hlevel
  obtain ⟨halternate, -⟩ := (h alternate (by simp)).enclose (by decide : Level.conditional ≤ 12)
  exact .of_loose (.ternary hconsequent htest halternate hrank htestrank) rfl
    (by decide : 1 ≤ 1 ∧ 1 ≤ 11)

theorem fits_member (h : Fits embedded object (written object)) {name : String}
    (hname : isName name = true) :
    Fits embedded (.member object name pos) (written (.member object name pos)) := by
  obtain ⟨hobject, hrank⟩ := h.enclose_atom
  rw [written.eq_def]
  dsimp only
  split
  · exact .of_rank ((sound_nullary (by decide)).member (Nat.le_refl 14) hname) rfl
  · split
    · exact .of_rank ((sound_name (by decide)).call (Nat.le_refl 14)
        (List.forall_mem_singleton.mpr h.sound)) rfl
    · exact .of_rank (hobject.member hrank (by decide)) rfl
    · exact .of_rank (hobject.member hrank hname) rfl

theorem sound_of_mem_writtenAll (h : ∀ arg ∈ args, Fits embedded arg (written arg)) :
    ∀ w ∈ writtenAll args, Sound embedded w := by
  induction args with
  | nil => simp [writtenAll]
  | cons first rest ih =>
      obtain ⟨hfirst, hrest⟩ := List.forall_mem_cons.mp h
      exact List.forall_mem_cons.mpr ⟨hfirst.sound, ih hrest⟩

-- Some calls of members are written as operators, and a floor looks into its argument.
theorem fits_call (h : Fits embedded callee (written callee))
    (hargs : ∀ arg ∈ args, Fits embedded arg (written arg))
    (hobject : ∀ object name inner, callee = .member object name inner →
      Fits embedded object (written object))
    (hfloor : ∀ left right inner, args = [.binary .divide left right inner] →
      Fits embedded left (written left) ∧ Fits embedded right (written right)) :
    Fits embedded (.call callee args pos) (written (.call callee args pos)) := by
  have hsounds := sound_of_mem_writtenAll hargs
  obtain ⟨hcallee, hcalleerank⟩ := h.enclose_atom
  have hcalled := hcallee.call hcalleerank hsounds
  rw [written.eq_def]
  dsimp only
  split
  · exact .of_rank (((sound_nullary (by decide)).member (Nat.le_refl 14) (by decide)).call
      (Nat.le_refl 14) hsounds) rfl
  · have hfits := hobject _ _ _ rfl
    obtain ⟨hinner, hrank⟩ := hfits.enclose_atom
    have hnone : ∀ w ∈ (none : Option Written), Sound embedded w := by simp
    have hsome : ∀ {arg}, arg ∈ args → ∀ w ∈ some (written arg), Sound embedded w := by
      rintro arg harg w hw
      cases hw
      exact (hargs arg harg).sound
    split
    · exact .of_loose (sound_membership .isIn (hargs _ (by simp)) hfits) rfl
        (by decide : 5 ≤ 5 ∧ 5 ≤ 11)
    · exact .of_rank (hinner.index hrank (hargs _ (by simp)).sound) rfl
    · exact .of_rank (hinner.slice hrank hnone hnone hnone) rfl
    · exact .of_rank (hinner.slice hrank (hsome (by simp)) hnone hnone) rfl
    · exact .of_rank (hinner.slice hrank (hsome (by simp)) (hsome (by simp)) hnone) rfl
    · split
      · rename_i hmath
        obtain ⟨hleft, hright⟩ := hfloor _ _ _ rfl
        obtain ⟨hleft, hleftrank⟩ := hleft.enclose (by decide : Level.multiplicative ≤ 12)
        obtain ⟨hright, hrightrank⟩ := hright.enclose
          (by decide : Level.multiplicative + 1 ≤ 12)
        exact .of_loose (.binary (by decide) hleft hright hleftrank hrightrank) (if_pos hmath)
          (by decide : 11 ≤ 11 ∧ 11 ≤ 11)
      · exact .of_rank hcalled rfl
    · split
      · exact .of_rank ((sound_keyword (by simp)).call (Nat.le_refl 14) hsounds) rfl
      · exact .of_rank hcalled rfl
    · exact .of_rank hcalled rfl
  · exact .of_rank hcalled rfl

end Nodes

theorem rank_writtenTemplate (raw : String) : (writtenTemplate raw).rank = 14 := by
  unfold writtenTemplate
  split <;> rfl

section Parts

theorem sound_of_mem_writtenOption {expr : Option Expr}
    (h : ∀ e ∈ expr.toList, Fits embedded e (written e)) :
    ∀ w ∈ writtenOption expr, Sound embedded w := by
  cases expr with
  | none => simp [writtenOption]
  | some expr => simpa [writtenOption] using (h expr (by simp)).sound

theorem sound_of_mem_writtenLinks {links : List (Comparison Expr)}
    (h : ∀ e ∈ links.map (·.right), Fits embedded e (written e)) :
    ∀ link ∈ writtenLinks links, Sound embedded link.right ∧ 5 < link.right.rank := by
  induction links with
  | nil => simp [writtenLinks]
  | cons first rest ih =>
      obtain ⟨hfirst, hrest⟩ := List.forall_mem_cons.mp h
      exact List.forall_mem_cons.mpr
        ⟨hfirst.enclose (by decide : Level.comparison + 1 ≤ 12), ih hrest⟩

theorem sound_of_mem_writtenEntries {entries : List (DictEntry Expr)}
    (hkeys : ∀ entry ∈ entries, entry.key.number?.all (Number.isLiteral ·.toList) = true)
    (h : ∀ e ∈ entries.flatMap (·.exprs), Fits embedded e (written e)) :
    ∀ entry ∈ writtenEntries entries, Sound embedded entry.1 ∧ Sound embedded entry.2 := by
  induction entries with
  | nil => simp [writtenEntries]
  | cons first rest ih =>
      rw [List.flatMap_cons, List.forall_mem_append] at h
      obtain ⟨hkey, hmore⟩ := List.forall_mem_cons.mp hkeys
      obtain ⟨key, value⟩ := first
      have hvalue : Sound embedded (written value) := by
        cases key <;> exact (h.1 value (by simp [DictEntry.exprs])).sound
      have hrest := ih hmore h.2
      cases key with
      | literal text => exact List.forall_mem_cons.mpr ⟨⟨sound_quoted text, hvalue⟩, hrest⟩
      | number text => exact List.forall_mem_cons.mpr ⟨⟨sound_number hkey, hvalue⟩, hrest⟩
      | computed key =>
          exact List.forall_mem_cons.mpr ⟨⟨(h.1 key (.head _)).sound, hvalue⟩, hrest⟩

end Parts

-- What is written for an expression is sound, and binds as tightly as the writer thinks. The same of
-- the expressions in it and of those in these, which calls and negations are written from.
theorem fits_written {template : String → Bool}
    (htemplate : ∀ raw, template raw = true → Sound embedded (writtenTemplate raw)) {e : Expr}
    (h : e.all (isSpelledWith template) = true) :
    Fits embedded e (written e) ∧ ∀ child ∈ e.children, Fits embedded child (written child) ∧
      ∀ inner ∈ child.children, Fits embedded inner (written inner) := by
  induction e using Expr.children_induct with
  | step e ih =>
      obtain ⟨hnode, hrest⟩ := Expr.all_iff.mp h
      have hinner := fun child hchild => ih child hchild (hrest child hchild)
      have hfits : ∀ child ∈ e.children, Fits embedded child (written child) :=
        fun child hchild => (hinner child hchild).1
      refine ⟨?_, fun child hchild =>
        ⟨hfits child hchild, fun inner h => ((hinner child hchild).2 inner h).1⟩⟩
      cases e with
      | binary op left right pos => exact fits_binary op hfits
      | unary op operand pos =>
          have hoperand := hfits operand (.head _)
          cases op with
          | negate | plus => exact fits_withSign (by simp) hoperand
          | not =>
              refine fits_not hoperand ?_
              rintro container name element inner outer rfl
              obtain ⟨hmember, helement⟩ := List.forall_mem_cons.mp (hinner _ (.head _)).2
              exact ⟨(helement element (.head _)).1, hmember.2 container (.head _)⟩
      | logical op left right pos => exact fits_logical op hfits
      | compare left comparisons pos =>
          obtain ⟨hleft, hlinks⟩ := List.forall_mem_cons.mp hfits
          obtain ⟨hleft, hrank⟩ := hleft.enclose (by decide : Level.comparison + 1 ≤ 12)
          have hlinks := sound_of_mem_writtenLinks hlinks
          exact .of_loose (.compare hleft (fun link hlink => (hlinks link hlink).1) hrank
            fun link hlink => (hlinks link hlink).2) rfl (by decide : 5 ≤ 5 ∧ 5 ≤ 11)
      | conditional test consequent alternate pos => exact fits_conditional hfits
      | membership element container negated pos =>
          exact .of_loose (sound_membership _ (hfits element (.head _))
            (hfits container (.tail _ (.head _)))) rfl (by decide : 5 ≤ 5 ∧ 5 ≤ 11)
      | index object index pos =>
          obtain ⟨hobject, hrank⟩ := (hfits object (.head _)).enclose_atom
          exact .of_rank (hobject.index hrank (hfits index (.tail _ (.head _))).sound) rfl
      | slice object start stop step pos =>
          simp only [Expr.children, List.forall_mem_cons, List.forall_mem_append] at hfits
          obtain ⟨hobject, ⟨hstart, hstop⟩, hstep⟩ := hfits
          obtain ⟨hobject, hrank⟩ := hobject.enclose_atom
          exact .of_rank (hobject.slice hrank (sound_of_mem_writtenOption hstart)
            (sound_of_mem_writtenOption hstop) (sound_of_mem_writtenOption hstep)) rfl
      | member object name pos => exact fits_member (hfits object (.head _)) hnode
      | call callee args pos =>
          obtain ⟨hcallee, hargs⟩ := List.forall_mem_cons.mp hfits
          refine fits_call hcallee hargs ?_ ?_
          · rintro object name inner rfl
            exact ((hinner _ (.head _)).2 object (.head _)).1
          · rintro left right inner rfl
            have hquotient := (hinner _ (.tail _ (.head _))).2
            exact ⟨(hquotient left (.head _)).1, (hquotient right (.tail _ (.head _))).1⟩
      | construct callee args pos =>
          obtain ⟨hcallee, hargs⟩ := List.forall_mem_cons.mp hfits
          obtain ⟨hcallee, hrank⟩ := hcallee.enclose_atom
          exact .of_rank (hcallee.call hrank (sound_of_mem_writtenAll hargs)) rfl
      | list elements pos => exact .of_rank (.list (sound_of_mem_writtenAll hfits)) rfl
      | dict entries pos =>
          exact .of_rank (.dict (sound_of_mem_writtenEntries (List.all_eq_true.mp hnode) hfits)) rfl
      | interpolated segments pos => cases hnode
      | template raw pos => exact .of_rank (htemplate raw hnode) (rank_writtenTemplate raw)
      | number literal pos => exact .of_rank (sound_number hnode) rfl
      | string value pos => exact .of_rank (sound_quoted value) rfl
      | boolean value pos => exact .of_rank (sound_keyword (by cases value <;> simp)) rfl
      | null pos => exact .of_rank (sound_keyword (by simp)) rfl
      | var name pos => exact .of_rank (sound_name hnode) rfl
      | this pos => exact .of_rank (sound_name (by decide)) rfl
      | super pos => exact .of_rank (sound_nullary (by decide)) rfl

section Whole

variable {e : Expr} {w : Written}

-- What is written is read to its end, as its value.
theorem parseWhole_of_sound (h : Sound readSource w) :
    ∃ found, parseWhole .pythonScript (String.ofList w.text) = .ok (found, true) ∧
      placeless found = placeless w.value := by
  obtain ⟨tokens, found, rest, htokenize, hread, hend, hfound⟩ := tokenize_written h
  have hembeds : Embeds (TokenStream.withLayout tokens).tokens readSource _ :=
    embeds_readSource fun _ hmem _ => length_le_longestLexeme hmem
  rw [(expression_meets hembeds).same] at hread
  exact ⟨found, parseWhole_of_read htokenize hread hend, hfound⟩

-- So is what is embedded in an interpolated string.
theorem readSource_of_sound (h : Sound readSource w) (hcompact : Embedding.Compact w.text) :
    ∃ found, readSource w.text = .ok found ∧ placeless found = placeless w.value := by
  obtain ⟨tokens, found, rest, htokenize, hread, hend, hfound⟩ := tokenize_written h
  have hembeds : Embeds (TokenStream.withLayout tokens).tokens readSource
      (embeddedExpr w.text.length) := by
    refine embeds_readSource fun token hmem hkind => ?_
    have hlength := length_interpolated_lt htokenize hmem hkind
    rw [String.length_ofList] at hlength
    exact Nat.le_of_lt hlength
  rw [(expression_meets hembeds).same] at hread
  have hne : w.text ≠ [] := by
    intro hnil
    have hopens := hcompact.opens
    simp [hnil] at hopens
  have hlast : rest.current.kind = .eof := by simpa [TokenStream.isAtEnd] using hend
  have hnone : rest.dropWhile (·.kind == .newline) = rest :=
    Parser.dropWhile_of_current (by simp [hlast])
  refine ⟨found, ?_, hfound⟩
  simp [readSource, embeddedExpr, hcompact.trimBlanks, hne, htokenize, hread, hnone, hlast]

theorem sound_of_isSpelled (h : e.all isSpelled = true) : Sound embedded (written e) :=
  (fits_written (fun _ h => Bool.noConfusion h) h).1.sound

-- The text of an expression is read to its end, as the value of what is written.
theorem parseWhole_writeExpr (h : e.all isSpelled = true) :
    ∃ found, parseWhole .pythonScript (writeExpr e) = .ok (found, true) ∧
      placeless found = placeless (written e).value := by
  have hwhole := parseWhole_of_sound (sound_of_isSpelled h)
  rwa [text_written, String.ofList_toList] at hwhole

end Whole

end Diglot.Indented
