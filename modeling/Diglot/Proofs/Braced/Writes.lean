import Diglot.Proofs.Braced.Written
import Diglot.Proofs.Shapes

namespace Diglot.Braced

open Token (op kw word)
open Written (text_enclose)

section Forms

abbrev enclose : Nat → Expr → Written → Written := Written.enclose precedence

-- The method of an object, called.
def ask (object : Written) (name : String) (args : List Written) : Written :=
  .call (.member object name (wordToken name)) args

def comparing (op : CompareOp) (left right : Written) : Written :=
  match op with
  | .isIn => ask right "includes" [left]
  | .notIn => prefixed .not (ask right "includes" [left])
  | op => compare op left right

-- Comparisons that all hold. Several stand in brackets.
def conjoined : List Written → Written
  | [] => .sealed ""
  | [pair] => pair
  | pair :: next :: pairs =>
      (next :: pairs).foldl (fun left right => logical .and left right.group) pair.group

def unaryLevel : UnaryOp → Nat
  | .not => Level.unary
  | _ => Level.unary + 1

def logicalLevel : BoolOp → Nat
  | .and => Level.conjunction
  | .or => Level.disjunction

mutual

-- How an expression is written outside methods.
def written : Expr → Written
  | .binary op left right _ =>
      let tight := enclose (Level.unary + 1) left (written left)
      let leftWritten := enclose Level.unary left (written left)
      let rightWritten := enclose Level.unary right (written right)
      match op with
      | .floorDivide => ask (.ofName "Math") "floor" [binary .divide leftWritten rightWritten]
      | .power => (binary .power tight rightWritten).group
      | op => (binary op leftWritten rightWritten).group
  | .unary op operand _ => prefixed op (enclose (unaryLevel op) operand (written operand))
  | .logical op left right _ =>
      logical op (enclose (logicalLevel op) left (written left))
        (enclose (logicalLevel op + 1) right (written right))
  | .compare left comparisons _ =>
      conjoined (writtenPairs (enclose (Level.comparison + 1) left (written left)) comparisons)
  | .conditional test consequent alternate _ =>
      ternary (enclose Level.disjunction test (written test))
        (enclose Level.conditional consequent (written consequent))
        (enclose Level.conditional alternate (written alternate))
  | .membership element container negated _ =>
      let asked := ask (enclose Level.atom container (written container)) "includes"
        [written element]
      if negated then prefixed .not asked else asked
  | .index object index _ =>
      let objectWritten := enclose Level.atom object (written object)
      let indexWritten := written index
      match negatedLiteral? index with
      | some literal => ask objectWritten "at" [prefixed .negate (.ofNumber literal)]
      | none => .index objectWritten indexWritten
  | .member object name _ =>
      let objectWritten :=
        if isSuper object then .ofKeyword "super" (.super .start)
        else enclose Level.atom object (written object)
      .member objectWritten (memberName name) (wordToken (memberName name))
  | .call callee args _ =>
      let calleeWritten := enclose Level.atom callee (written callee)
      let argsWritten := writtenAll args
      match callee with
      | .var name _ =>
          if name = "print" then ask (.ofName "console") "log" argsWritten
          else if startsUpper name then construct name argsWritten
          else .call calleeWritten argsWritten
      | .member object name _ =>
          if name = "__init__" && isSuper object then
            .call (.ofKeyword "super" (.super .start)) argsWritten
          else .call calleeWritten argsWritten
      | _ => .call calleeWritten argsWritten
  | .list elements _ => .list (writtenAll elements)
  | .dict entries _ => dict (writtenEntries entries)
  | .number literal _ => .ofNumber literal
  | .string value _ => .ofString value value
  | .boolean value _ => .ofKeyword (if value then "true" else "false") (.boolean value .start)
  | .null _ => .ofKeyword "null" (.null .start)
  | .var name _ => .ofName name
  | .this _ => .ofKeyword "this" (.this .start)
  | .super _ => .ofKeyword "super" (.super .start)
  | e => .sealed (writeExpr false e)

def writtenAll : List Expr → List Written
  | [] => []
  | first :: rest => written first :: writtenAll rest

def writtenPairs (left : Written) : List (Comparison Expr) → List Written
  | [] => []
  | ⟨op, right⟩ :: rest =>
      let rightWritten := enclose (Level.comparison + 1) right (written right)
      comparing op left rightWritten :: writtenPairs rightWritten rest

def writtenEntries : List (DictEntry Expr) → List (DictEntry Written)
  | [] => []
  | ⟨.literal text, value⟩ :: rest => ⟨.literal text, written value⟩ :: writtenEntries rest
  | ⟨.number text, value⟩ :: rest => ⟨.number text, written value⟩ :: writtenEntries rest
  | ⟨.computed key, value⟩ :: rest =>
      ⟨.computed (written key), written value⟩ :: writtenEntries rest

end

end Forms

section Text

theorem text_comparing {op : CompareOp} {left right : Written} {leftText rightText : String}
    (hleft : left.text = leftText.toList) (hright : right.text = rightText.toList) :
    (comparing op left right).text = (comparisonText op leftText rightText).toList := by
  cases op <;>
    simp [comparing, comparisonText, ask, prefixed, unarySymbol, compare, Written.infixed, Written.call,
      Written.member, commaTexts, hleft, hright]

theorem text_foldl_logical (pairs : List Written) (first : Written) :
    (pairs.foldl (fun left right => logical .and left right.group) first).text =
      [' ', '&', '&', ' '].intercalate (first.text :: pairs.map (·.group.text)) := by
  induction pairs generalizing first with
  | nil => simp
  | cons pair pairs ih =>
      rw [List.foldl_cons, ih]
      cases pairs with
      | nil => simp [logical, Written.infixed, logicalSymbol]
      | cons next pairs => simp [logical, Written.infixed, logicalSymbol]

theorem text_conjoined {pairs : List Written} {texts : List String}
    (h : pairs.map Written.text = texts.map String.toList) :
    (conjoined pairs).text = (chainText texts).toList := by
  match pairs, texts with
  | [], [] => rfl
  | [], _ :: _ | _ :: _, [] => simp at h
  | [pair], [text] => simpa [conjoined, chainText] using h
  | [_], _ :: _ :: _ | _ :: _ :: _, [_] => simp at h
  | pair :: next :: pairs, text :: other :: texts =>
      have hgroups : (pair :: next :: pairs).map (·.group.text) =
          (text :: other :: texts).map fun pair => ("(" ++ pair ++ ")").toList := by
        have := congrArg (List.map fun text => '(' :: (text ++ [')'])) h
        simpa [Written.group, Function.comp_def] using this
      rw [List.map_cons] at hgroups
      have hchain : chainText (text :: other :: texts) =
        " && ".intercalate ((text :: other :: texts).map fun pair => "(" ++ pair ++ ")") := rfl
      rw [conjoined, text_foldl_logical, hgroups, hchain, String.toList_intercalate, List.map_map]
      rfl

mutual

-- The text of what is written is the text of the expression.
theorem text_written : ∀ e : Expr, (written e).text = (writeExpr false e).toList
  | .binary op left right _ => by
      have hleft := text_written left
      have hright := text_written right
      cases op <;>
        simp [written, writeExpr, ask, Written.ofName, Written.leaf, Written.call, Written.member, Written.group,
          binary, Written.infixed, binarySymbol, commaTexts, text_enclose hleft, text_enclose hright]
  | .unary op operand _ => by
      have hoperand := text_written operand
      cases op <;>
        simp [written, writeExpr, prefixed, unarySymbol, unaryLevel, text_enclose hoperand]
  | .logical op left right _ => by
      have hleft := text_written left
      have hright := text_written right
      cases op <;>
        simp [written, writeExpr, logical, Written.infixed, logicalSymbol, logicalLevel,
          text_enclose hleft, text_enclose hright]
  | .compare left comparisons _ => by
      have hleft : (enclose (Level.comparison + 1) left (written left)).text = _ :=
        text_enclose (text_written left)
      rw [written, writeExpr]
      exact text_conjoined (text_writtenPairs hleft comparisons)
  | .conditional test consequent alternate _ => by
      simp [written, writeExpr, ternary, text_enclose (text_written test),
        text_enclose (text_written consequent), text_enclose (text_written alternate)]
  | .membership element container negated _ => by
      have helement := text_written element
      have hcontainer := text_written container
      cases negated <;>
        simp [written, writeExpr, ask, prefixed, unarySymbol, Written.call, Written.member,
          commaTexts, helement, text_enclose hcontainer]
  | .index object index _ => by
      have hobject := text_written object
      have hindex := text_written index
      cases hliteral : negatedLiteral? index with
      | none =>
          simp [written, writeExpr, hliteral, Written.index, hindex, text_enclose hobject]
      | some literal =>
          simp [written, writeExpr, hliteral, ask, prefixed, unarySymbol, Written.ofNumber, Written.leaf,
            Written.call, Written.member, commaTexts, text_enclose hobject]
  | .member object name _ => by
      have hobject := text_written object
      rw [written, writeExpr]
      split <;> simp [*, Written.member, Written.ofKeyword, Written.leaf, text_enclose hobject]
  | .call callee args _ => by
      have hcallee := text_written callee
      have hargs := text_writtenAll args
      have hcalled : (Written.call (enclose Level.atom callee (written callee))
          (writtenAll args)).text =
            (wrap Level.atom callee (writeExpr false callee) ++
              ("(" ++ ", ".intercalate (writeExprs false args) ++ ")")).toList := by
        simp [Written.call, commaTexts, text_enclose hcallee, hargs]
      cases callee with
      | var name pos =>
          rw [written, writeExpr]
          by_cases hprint : name = "print"
          · simp [hprint, ask, Written.ofName, Written.leaf, Written.call, Written.member, commaTexts, hargs]
          · by_cases hupper : startsUpper name = true
            · simp [hprint, hupper, construct, commaTexts, hargs]
            · simp only [hprint, hupper, if_false]
              exact hcalled
      | member object name pos =>
          rw [written, writeExpr]
          by_cases hinit : (name = "__init__" && isSuper object) = true
          · simp [hinit, Written.ofKeyword, Written.leaf, Written.call, commaTexts, hargs]
          · simp only [hinit]
            exact hcalled
      | _ =>
          rw [written.eq_def, writeExpr.eq_def]
          exact hcalled
  | .list elements _ => by
      simp [written, writeExpr, Written.list, commaTexts, text_writtenAll elements]
  | .dict entries _ => by
      have hentries := text_writtenEntries entries
      cases entries with
      | nil => simp [written, writeExpr, dict, writtenEntries]
      | cons first rest =>
          have hne : (writtenEntries (first :: rest)).isEmpty = false := by
            obtain ⟨key, value⟩ := first
            cases key <;> rfl
          simp [written, writeExpr, dict, commaTexts, hne, hentries]
  | .number literal _ => by simp [written, writeExpr, Written.ofNumber, Written.leaf]
  | .string value _ => by simp [written, writeExpr, Written.ofString, Written.leaf]
  | .boolean value _ => by cases value <;> simp [written, writeExpr, Written.ofKeyword, Written.leaf]
  | .null _ => by simp [written, writeExpr, Written.ofKeyword, Written.leaf]
  | .var name _ => by simp [written, writeExpr, Written.ofName, Written.leaf]
  | .this _ => by simp [written, writeExpr, Written.ofKeyword, Written.leaf]
  | .super _ => by simp [written, writeExpr, Written.ofKeyword, Written.leaf]
  | .slice .. | .construct .. | .interpolated .. | .template .. => by
      simp [written, Written.sealed, Written.leaf]

theorem text_writtenAll : ∀ exprs : List Expr,
    (writtenAll exprs).map Written.text = (writeExprs false exprs).map String.toList
  | [] => rfl
  | first :: rest => by
      simp [writtenAll, writeExprs, text_written first, text_writtenAll rest]

theorem text_writtenPairs {left : Written} {leftText : String} (hleft : left.text = leftText.toList) :
    ∀ links : List (Comparison Expr), (writtenPairs left links).map Written.text =
      (writePairs false leftText links).map String.toList
  | [] => rfl
  | ⟨op, right⟩ :: rest => by
      have hright : (enclose (Level.comparison + 1) right (written right)).text = _ :=
        text_enclose (text_written right)
      simp [writtenPairs, writePairs, text_comparing hleft hright, text_writtenPairs hright rest]

theorem text_writtenEntries : ∀ entries : List (DictEntry Expr),
    (writtenEntries entries).map (fun entry =>
      keyText entry.key ++ ':' :: ' ' :: entry.value.text) =
        (writeEntries false entries).map String.toList
  | [] => rfl
  | ⟨.literal text, value⟩ :: rest => by
      rw [writtenEntries, writeEntries, List.map_cons, List.map_cons, text_writtenEntries rest]
      simp [keyText, text_written value]
  | ⟨.number text, value⟩ :: rest => by
      rw [writtenEntries, writeEntries, List.map_cons, List.map_cons, text_writtenEntries rest]
      simp [keyText, text_written value]
  | ⟨.computed key, value⟩ :: rest => by
      rw [writtenEntries, writeEntries, List.map_cons, List.map_cons, text_writtenEntries rest]
      simp [keyText, text_written key, text_written value]

end

end Text

-- Whether the words and literals of an expression are written as the lexer wants them, and the
-- expression is written in a form that is looked into.
def isSpelled : Expr → Bool
  | .compare _ comparisons _ => !comparisons.isEmpty && comparisons.all (·.op.isOrder)
  | .member _ name _ => isWord name.toList
  | .dict entries _ => entries.all fun entry =>
      match entry.key with
      | .literal text => text.toList.all Quoted.isPlain
      | .number text => Number.isLiteral text.toList
      | .computed _ => true
  | .slice .. | .construct .. | .interpolated .. | .template .. => false
  | .number literal _ => Number.isLiteral literal.toList
  | .string value _ => value.toList.all Quoted.isPlain
  | .var name _ => isName name
  | _ => true

section Leaves

open Diglot.Parser

variable {text : List Char}

theorem opens_of_isWord (h : isWord text = true) (rank : Nat) :
    text.head?.any (opensText rank) = true := by
  cases text with
  | nil => simp [isWord] at h
  | cons c more =>
      simp only [isWord, List.all_cons, Bool.and_eq_true] at h
      have hne : ∀ d, isWordPart d = false → c ≠ d := fun d hd => ne_of_test h.2.1 hd
      simp [opensText, hne '=' rfl, hne '+' rfl, hne '-' rfl]

theorem opens_of_isLiteral (h : Number.isLiteral text = true) (rank : Nat) :
    text.head?.any (opensText rank) = true := by
  cases text with
  | nil => simp [Number.isLiteral] at h
  | cons c more =>
      simp only [Number.isLiteral, Bool.and_eq_true] at h
      have hne : ∀ d, isDigit d = false → c ≠ d := fun d hd => ne_of_test h.1 hd
      simp [opensText, hne '=' rfl, hne '+' rfl, hne '-' rfl]

theorem sound_name {name : String} (h : isName name = true) : Sound (Written.ofName name) :=
  .leaf (lexesAs_name h) (opens_of_isWord (Bool.and_eq_true_iff.mp h).1 14) (.name name)

theorem sound_number {literal : String} (h : Number.isLiteral literal.toList = true) :
    Sound (Written.ofNumber literal) :=
  .leaf (lexesAs_number h) (opens_of_isLiteral h 14) (.number literal)

theorem sound_string {value : String} (h : value.toList.all Quoted.isPlain = true) :
    Sound (.ofString value value) :=
  .leaf (lexesAs_string h) (by simp [quote, opensText])
    (.leaf rfl rfl fun _ _ _ _ => by simp [primary, bind_run, map_run])

-- The keywords that say a value.
theorem sound_keyword {keyword : String} {value : Expr}
    (h : (keyword, value) ∈ [("true", Expr.boolean true .start), ("false", .boolean false .start),
      ("null", .null .start), ("this", .this .start), ("super", .super .start)]) :
    Sound (Written.ofKeyword keyword value) := by
  have hword : isWord keyword.toList = true ∧ wordToken keyword = kw keyword ∧
      grammar.begins 14 .keyword keyword = true := by
    simp only [List.mem_cons, Prod.mk.injEq, List.not_mem_nil, or_false] at h
    rcases h with ⟨rfl, -⟩ | ⟨rfl, -⟩ | ⟨rfl, -⟩ | ⟨rfl, -⟩ | ⟨rfl, -⟩ <;>
      exact ⟨by decide, rfl, by decide⟩
  refine .leaf (hword.2.1 ▸ lexesAs_word hword.1) (opens_of_isWord hword.1 14)
    (.leaf rfl hword.2.2 ?_)
  intro expression limit rest blocks
  simp only [List.mem_cons, Prod.mk.injEq, List.not_mem_nil, or_false] at h
  rcases h with ⟨rfl, rfl⟩ | ⟨rfl, rfl⟩ | ⟨rfl, rfl⟩ | ⟨rfl, rfl⟩ | ⟨rfl, rfl⟩ <;>
    simp [primary, bind_run, map_run]

end Leaves

section Ranks

variable {e : Expr} {w : Written}

-- The loosest level of the grammar that is as tight as a level of the writer.
def levelRank (level : Nat) : Nat :=
  if level ≤ Level.conditional then 1
  else if level ≤ Level.disjunction then 2
  else if level ≤ Level.conjunction then 3
  else if level ≤ Level.comparison then 4
  else if level ≤ Level.unary then 13
  else 14

theorem levelRank_le (level : Nat) : levelRank level ≤ 14 := by
  unfold levelRank
  repeat' split
  all_goals omega

theorem levelRank_mono {looser level : Nat} (h : looser ≤ level) :
    levelRank looser ≤ levelRank level := by
  unfold levelRank
  repeat' split
  all_goals omega

-- What is written is sound, and binds as tightly as the writer thinks.
structure Fits (e : Expr) (w : Written) : Prop where
  sound : Sound w
  rank : levelRank (precedence e) ≤ w.rank

theorem Fits.of_rank (h : Sound w) (hrank : w.rank = 14) : Fits e w :=
  ⟨h, hrank ▸ levelRank_le _⟩

theorem Fits.enclose (h : Fits e w) (needed : Nat) :
    Sound (enclose needed e w) ∧ levelRank needed ≤ (Braced.enclose needed e w).rank := by
  unfold Braced.enclose Written.enclose
  split
  · exact ⟨h.sound.group, levelRank_le needed⟩
  · exact ⟨h.sound, Nat.le_trans (levelRank_mono (by omega)) h.rank⟩

end Ranks

section Soundness

variable {object : Written} {args pairs : List Written}

theorem sound_ask (h : Sound object) (hrank : 14 ≤ object.rank) {name : String}
    (hname : isWord name.toList = true) (hargs : ∀ arg ∈ args, Sound arg) :
    Sound (ask object name args) :=
  (h.member hrank hname).call (Nat.le_refl 14) hargs

theorem isLiteral_of_negatedLiteral {index : Expr} {literal : String}
    (hliteral : negatedLiteral? index = some literal) (h : index.all isSpelled = true) :
    Number.isLiteral literal.toList = true := by
  unfold negatedLiteral? at hliteral
  split at hliteral
  · cases hliteral
    simpa [Expr.all, isSpelled] using h
  · cases hliteral

-- A conjunction of things in brackets, one by one.
theorem sound_foldl_logical {first : Written} (hfirst : Sound first) (hrank : 3 ≤ first.rank)
    (h : ∀ pair ∈ pairs, Sound pair) :
    Sound (pairs.foldl (fun left right => logical .and left right.group) first) ∧
      3 ≤ (pairs.foldl (fun left right => logical .and left right.group) first).rank := by
  induction pairs generalizing first with
  | nil => exact ⟨hfirst, hrank⟩
  | cons pair pairs ih =>
      obtain ⟨hpair, hpairs⟩ := List.forall_mem_cons.mp h
      exact ih (hfirst.logical hpair.group hrank (by decide : 3 < 14)) (Nat.le_refl 3) hpairs

theorem length_writtenPairs (links : List (Comparison Expr)) (left : Written) :
    (writtenPairs left links).length = links.length := by
  induction links generalizing left with
  | nil => rfl
  | cons link links ih => simp [writtenPairs, ih]

-- A single comparison binds as comparisons do, and several bind as a conjunction does.
theorem fits_conjoined {left : Expr} {comparisons : List (Comparison Expr)} {pos : Pos}
    (hlength : pairs.length = comparisons.length) (hne : comparisons ≠ [])
    (h : ∀ pair ∈ pairs, Sound pair ∧ 4 ≤ pair.rank)
    (horder : comparisons.all (·.op.isOrder) = true) :
    Fits (.compare left comparisons pos) (conjoined pairs) := by
  match pairs, comparisons with
  | _, [] => contradiction
  | [], _ :: _ | _ :: _ :: _, [_] | [_], _ :: _ :: _ => simp at hlength
  | [pair], [⟨op, right⟩] =>
      have hlevel : precedence (.compare left [⟨op, right⟩] pos) = Level.comparison := by
        cases op <;> first | rfl | simp [CompareOp.isOrder] at horder
      obtain ⟨hpair, hrank⟩ := h pair (List.mem_singleton_self pair)
      exact ⟨hpair, by rw [hlevel]; exact hrank⟩
  | pair :: next :: pairs, ⟨op, right⟩ :: second :: rest =>
      have hlevel : precedence (.compare left (⟨op, right⟩ :: second :: rest) pos) =
          Level.conjunction := by cases op <;> rfl
      obtain ⟨hpair, hpairs⟩ := List.forall_mem_cons.mp h
      obtain ⟨hsound, hrank⟩ := sound_foldl_logical hpair.1.group (by decide : 3 ≤ 14)
        fun pair hmem => (hpairs pair hmem).1
      exact ⟨hsound, by rw [hlevel]; exact hrank⟩

theorem sound_writtenAll {exprs : List Expr} (h : ∀ e ∈ exprs, Fits e (written e)) :
    ∀ w ∈ writtenAll exprs, Sound w := by
  induction exprs with
  | nil => simp [writtenAll]
  | cons first rest ih =>
      obtain ⟨hfirst, hrest⟩ := List.forall_mem_cons.mp h
      exact List.forall_mem_cons.mpr ⟨hfirst.sound, ih hrest⟩

-- The comparisons of a chain, each with the operand on its left.
theorem sound_writtenPairs {links : List (Comparison Expr)} {left : Written} (hleft : Sound left)
    (hrank : 13 ≤ left.rank) (h : ∀ e ∈ links.map (·.right), Fits e (written e))
    (horder : links.all (·.op.isOrder) = true) :
    ∀ pair ∈ writtenPairs left links, Sound pair ∧ 4 ≤ pair.rank := by
  induction links generalizing left with
  | nil => simp [writtenPairs]
  | cons link rest ih =>
      obtain ⟨op, right⟩ := link
      simp only [List.map_cons, List.forall_mem_cons, List.all_cons, Bool.and_eq_true] at h horder
      obtain ⟨hright, hrightrank⟩ := h.1.enclose (Level.comparison + 1)
      have hop : op ∉ [.isIn, .notIn] := by
        rintro hop
        rcases mem_pair.mp hop with rfl | rfl <;> simp [CompareOp.isOrder] at horder
      have hcompare : comparing op left (enclose (Level.comparison + 1) right (written right)) =
          compare op left (enclose (Level.comparison + 1) right (written right)) := by
        cases op <;> first | rfl | simp at hop
      have hlevel : levelRank (Level.comparison + 1) = 13 := rfl
      have hlow : 4 ≤ compareRank op ∧ compareRank op ≤ 5 := by cases op <;> decide
      rw [writtenPairs, hcompare]
      refine List.forall_mem_cons.mpr ⟨⟨?_, hlow.1⟩, ih hright hrightrank h.2 horder.2⟩
      exact .compare hop hleft hright (by omega) (by omega)

theorem sound_writtenEntries {entries : List (DictEntry Expr)} {pos : Pos}
    (hkeys : isSpelled (.dict entries pos) = true)
    (h : ∀ e ∈ entries.flatMap (·.exprs), Fits e (written e)) :
    ∀ entry ∈ writtenEntries entries, KeySound entry.key ∧ Sound entry.value := by
  induction entries with
  | nil => simp [writtenEntries]
  | cons entry rest ih =>
      obtain ⟨key, value⟩ := entry
      obtain ⟨hentry, hrest⟩ := List.forall_mem_append.mp h
      simp only [isSpelled, List.all_cons, Bool.and_eq_true] at hkeys
      cases key with
      | literal | number =>
          exact List.forall_mem_cons.mpr
            ⟨⟨hkeys.1, (hentry value (.head _)).sound⟩, ih hkeys.2 hrest⟩
      | computed key =>
          have hvalue := (hentry value (.tail _ (.head _))).sound
          exact List.forall_mem_cons.mpr
            ⟨⟨(hentry key (.head _)).sound, hvalue⟩, ih hkeys.2 hrest⟩

theorem fits_written (e : Expr) (h : e.all isSpelled = true) : Fits e (written e) := by
  induction e using Expr.children_induct with
  | step e ih =>
    obtain ⟨hself, hchildren⟩ := Expr.all_iff.mp h
    replace ih := fun child hchild => ih child hchild (hchildren child hchild)
    cases e with
    | binary op left right _ =>
        obtain ⟨htight, htightrank⟩ := (ih left (.head _)).enclose (Level.unary + 1)
        obtain ⟨hleft, hleftrank⟩ := (ih left (.head _)).enclose Level.unary
        obtain ⟨hright, hrightrank⟩ := (ih right (.tail _ (.head _))).enclose Level.unary
        have hunary : levelRank Level.unary = 13 := rfl
        have hatom : levelRank (Level.unary + 1) = 14 := rfl
        rw [hunary] at hleftrank hrightrank
        rw [hatom] at htightrank
        have harithmetic : ∀ op ∉ [BinaryOp.power, .floorDivide], Sound (binary op
            (enclose Level.unary left (written left))
            (enclose Level.unary right (written right))) := by
          intro op hop
          have hrank : binaryRank op ≤ 12 := by cases op <;> decide
          exact .binary hop hleft hright (by omega) (by omega)
        cases op with
        | floorDivide =>
            refine .of_rank (sound_ask (sound_name (by decide)) (Nat.le_refl 14) (by decide) ?_) rfl
            simpa using harithmetic .divide (by decide)
        | power =>
            exact .of_rank (Sound.power htight hright (by omega) (by omega)).group rfl
        | add | subtract | multiply | divide | modulo =>
            exact .of_rank (harithmetic _ (by decide)).group rfl
    | unary op operand _ =>
        obtain ⟨hoperand, hrank⟩ := (ih operand (.head _)).enclose (unaryLevel op)
        have hunary : 13 ≤ levelRank (unaryLevel op) := by cases op <;> decide
        have hsign : op ≠ .not → levelRank (unaryLevel op) = 14 := by cases op <;> simp <;> rfl
        exact ⟨hoperand.prefixed (by omega) fun hop => by rw [← hsign hop]; exact hrank,
          Nat.le_refl 13⟩
    | logical op left right _ =>
        obtain ⟨hleft, hleftrank⟩ := (ih left (.head _)).enclose (logicalLevel op)
        obtain ⟨hright, hrightrank⟩ := (ih right (.tail _ (.head _))).enclose (logicalLevel op + 1)
        have hloose : logicalRank op ≤ levelRank (logicalLevel op) := by cases op <;> decide
        have htight : logicalRank op < levelRank (logicalLevel op + 1) := by cases op <;> decide
        exact ⟨hleft.logical hright (by omega) (by omega), by cases op <;> exact Nat.le_refl _⟩
    | compare left comparisons _ =>
        simp only [isSpelled, Bool.and_eq_true, Bool.not_eq_true',
          List.isEmpty_eq_false_iff] at hself
        obtain ⟨hleft, hrank⟩ := (ih left (.head _)).enclose (Level.comparison + 1)
        have hpairs := sound_writtenPairs hleft hrank (fun e he => ih e (.tail _ he)) hself.2
        exact fits_conjoined (length_writtenPairs comparisons _) hself.1 hpairs hself.2
    | conditional test consequent alternate _ =>
        obtain ⟨htest, hrank⟩ := (ih test (.head _)).enclose Level.disjunction
        obtain ⟨hconsequent, -⟩ := (ih consequent (.tail _ (.head _))).enclose Level.conditional
        obtain ⟨halternate, -⟩ :=
          (ih alternate (.tail _ (.tail _ (.head _)))).enclose Level.conditional
        exact ⟨htest.ternary hconsequent halternate hrank, Nat.le_refl 1⟩
    | membership element container negated _ =>
        obtain ⟨hcontainer, hrank⟩ := (ih container (.tail _ (.head _))).enclose Level.atom
        have helement := (ih element (.head _)).sound
        have hasked := sound_ask hcontainer hrank (by decide : isWord "includes".toList = true)
          (List.forall_mem_singleton.mpr helement)
        cases negated with
        | true => exact ⟨hasked.prefixed (by decide : 13 ≤ 14) (by simp), Nat.le_refl 13⟩
        | false => exact .of_rank hasked rfl
    | index object index _ =>
        obtain ⟨hobject, hrank⟩ := (ih object (.head _)).enclose Level.atom
        have hindex := (ih index (.tail _ (.head _))).sound
        rw [written]
        split
        · rename_i literal hliteral
          have hnumber := isLiteral_of_negatedLiteral hliteral (hchildren index (.tail _ (.head _)))
          refine .of_rank (sound_ask hobject hrank (by decide) (List.forall_mem_singleton.mpr ?_)) rfl
          exact (sound_number hnumber).prefixed (by decide : 13 ≤ 14) fun _ => Nat.le_refl 14
        · exact .of_rank (hobject.index hrank hindex) rfl
    | member object name _ =>
        obtain ⟨hobject, hrank⟩ := (ih object (.head _)).enclose Level.atom
        have hname : isWord (memberName name).toList = true := by
          unfold memberName
          split
          · decide
          · exact hself
        rw [written]
        by_cases hsuper : isSuper object = true
        · simp only [hsuper, if_true]
          exact .of_rank ((sound_keyword (by simp)).member (Nat.le_refl 14) hname) rfl
        · simp only [hsuper]
          exact .of_rank (hobject.member hrank hname) rfl
    | call callee args _ =>
        obtain ⟨hcallee, hrank⟩ := (ih callee (.head _)).enclose Level.atom
        have hargs := sound_writtenAll fun e he => ih e (.tail _ he)
        have hcalled := hcallee.call hrank hargs
        cases callee with
        | var name pos =>
            rw [written]
            split
            · exact .of_rank (sound_ask (sound_name (by decide)) (Nat.le_refl 14) (by decide) hargs)
                rfl
            · split
              · exact .of_rank (.construct hargs (hchildren (.var name pos) (.head _))) rfl
              · exact .of_rank hcalled rfl
        | member object name pos =>
            rw [written]
            split
            · exact .of_rank ((sound_keyword (by simp)).call (Nat.le_refl 14) hargs) rfl
            · exact .of_rank hcalled rfl
        | _ => exact .of_rank hcalled rfl
    | list => exact .of_rank (.list (sound_writtenAll ih)) rfl
    | dict => exact .of_rank (.dict (sound_writtenEntries hself ih)) rfl
    | number => exact .of_rank (sound_number hself) rfl
    | string => exact .of_rank (sound_string hself) rfl
    | boolean value _ => exact .of_rank (sound_keyword (by cases value <;> simp)) rfl
    | null | this | super => exact .of_rank (sound_keyword (by simp)) rfl
    | var => exact .of_rank (sound_name hself) rfl
    | _ => cases hself

-- The text of an expression is read to its end, as the value of what is written.
theorem parseWhole_writeExpr {e : Expr} (h : e.all isSpelled = true) :
    ∃ found, parseWhole .javaScript (writeExpr false e) = .ok (found, true) ∧
      placeless found = placeless (written e).value := by
  obtain ⟨tokens, found, rest, htokenize, hread, hend, hfound⟩ :=
    tokenize_written (fits_written e h).sound
  rw [text_written, String.ofList_toList] at htokenize
  exact ⟨found, parseWhole_of_read htokenize hread hend, hfound⟩

end Soundness

end Diglot.Braced
