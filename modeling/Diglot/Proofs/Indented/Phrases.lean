import Diglot.Proofs.Indented.Forms
import Diglot.Proofs.Indented.Operators
import Diglot.Proofs.Statements

namespace Diglot.Indented

open Phrase (toList_listed)

theorem toList_exprPhrase (opening closing : String) (e : Expr) :
    (exprPhrase opening e closing).text.toList =
      opening.toList ++ ((written e).text ++ closing.toList) := by
  rw [exprPhrase, String.toList_append, String.toList_append, List.append_assoc, text_written,
    writeExpr]

section Parts

variable {embedded : Embedder} {iteration : Iteration}

-- How a parameter is written.
def writtenParam (param : Parameter) : WrittenParam :=
  match param.kind, param.default with
  | .positional, some default => .defaulted param.name (written default)
  | .positional, none => .plain param.name
  | .rest, _ => .rest param.name
  | .keywordCollector, _ => .collector param.name

theorem text_writtenParam (param : Parameter) :
    (writeParam param).text.toList = (writtenParam param).text := by
  obtain ⟨name, kind, default, pos⟩ := param
  cases kind with
  | positional =>
      cases default with
      | none => rfl
      | some default =>
          have hequals : "=".toList = ['='] := rfl
          have hnone : "".toList = [] := rfl
          simp only [writeParam, writtenParam, WrittenParam.text, toList_exprPhrase,
            String.toList_append, hequals, hnone, List.append_nil, List.append_assoc,
            List.singleton_append]
  | rest => exact String.toList_append
  | keywordCollector => exact String.toList_append

-- How what a loop runs over is written.
def writtenIteration : Iteration → Written
  | .range start stop step =>
      .call (.ofName "range") ((Iteration.range start stop step).exprs.map written)
  | .each iterable => written iterable

theorem text_writtenIteration (h : iteration.isFormed = true) :
    (writeIteration iteration).text.toList = (writtenIteration iteration).text := by
  cases iteration with
  | each iterable =>
      have hnone : "".toList = [] := rfl
      rw [writeIteration, toList_exprPhrase, hnone, List.append_nil]
      rfl
  | range start stop step =>
      have hopen : "range(".toList = "range".toList ++ ['('] := rfl
      have hclose : ")".toList = [')'] := rfl
      have hnone : "".toList = [] := rfl
      cases start with
      | none =>
          obtain rfl : step = none := by simpa [Iteration.isFormed] using h
          simp [writeIteration, writtenIteration, Iteration.exprs, toList_listed, Written.call,
            Written.ofName, Written.leaf, toList_exprPhrase, hopen, hclose, hnone]
      | some start =>
          cases step <;>
            simp [writeIteration, writtenIteration, Iteration.exprs, toList_listed, Written.call,
              Written.ofName, Written.leaf, toList_exprPhrase, hopen, hclose, hnone]

-- A loop runs over what is read back.
theorem sound_iterated (h : ∀ e ∈ iteration.exprs, Sound embedded (written e)) :
    Sound embedded (writtenIteration iteration) := by
  cases iteration with
  | each iterable => exact h iterable (List.mem_singleton_self iterable)
  | range start stop step =>
      refine (sound_name (by decide)).call (Nat.le_refl 14) fun w hw => ?_
      obtain ⟨e, he, rfl⟩ := List.mem_map.mp hw
      exact h e he

end Parts

section Phrases

-- How the lines of statements are spelled.

theorem text_plain (e : Expr) : (exprPhrase "" e "").text.toList = (written e).text := by
  have hnone : "".toList = [] := rfl
  rw [toList_exprPhrase, hnone, List.append_nil, List.nil_append]

theorem text_returned (e : Expr) :
    (exprPhrase "return " e "").text.toList = "return".toList ++ ' ' :: (written e).text := by
  have hhead : "return ".toList = "return".toList ++ [' '] := rfl
  have hnone : "".toList = [] := rfl
  rw [toList_exprPhrase, hhead, hnone, List.append_nil, List.append_assoc, List.singleton_append]

theorem toList_head {keyword opening : String} (hopening : opening.toList = keyword.toList ++ [' '])
    (e : Expr) : (exprPhrase opening e ":").text.toList =
      keyword.toList ++ ' ' :: (written e).text ++ [':'] := by
  have hcolon : ":".toList = [':'] := rfl
  rw [toList_exprPhrase, hopening, hcolon]
  simp only [List.append_assoc, List.cons_append, List.nil_append]

theorem text_forHead (target : String) {iterated : String} {w : Written}
    (h : iterated.toList = w.text) :
    ("for " ++ target ++ " in " ++ iterated ++ ":").toList =
      "for".toList ++ ' ' :: (target.toList ++ ' ' :: ("in".toList ++ ' ' :: w.text)) ++ [':'] := by
  have hfor : "for ".toList = "for".toList ++ [' '] := rfl
  have hin : " in ".toList = ' ' :: ("in".toList ++ [' ']) := rfl
  have hcolon : ":".toList = [':'] := rfl
  simp only [String.toList_append, h, hfor, hin, hcolon, List.append_assoc, List.cons_append,
    List.nil_append]

-- The parameters of a function with the receiver that a method is given, and its name.
def writtenParams (ctx : Context) (params : List Parameter) : List WrittenParam :=
  (if ctx.inClass && (params.head?.map (·.name)) != some "self" then [.plain "self"] else []) ++
    params.map writtenParam

def writtenName (ctx : Context) (name : String) : String :=
  if ctx.inClass && name = "constructor" then "__init__" else name

theorem text_functionHead (ctx : Context) (name : String) (params : List Parameter) :
    (functionHead ctx name params).text.toList =
      "def".toList ++ ' ' :: ((writtenName ctx name).toList ++ '(' ::
        (commaTexts ((writtenParams ctx params).map WrittenParam.text) ++ [')'])) ++ [':'] := by
  have htexts : (writtenParams ctx params).map WrittenParam.text =
      ((if ctx.inClass && (params.head?.map (·.name)) != some "self" then [Phrase.plain "self"]
        else []) ++ params.map writeParam).map (·.text.toList) := by
    rw [writtenParams, List.map_append, List.map_append, List.map_map, List.map_map]
    congr 1
    · split <;> rfl
    · exact List.map_congr_left fun param _ => (text_writtenParam param).symm
  have hdef : "def ".toList = "def".toList ++ [' '] := rfl
  have hopen : "(".toList = ['('] := rfl
  have hclose : "):".toList = [')', ':'] := rfl
  rw [htexts, functionHead, toList_listed, String.toList_append, String.toList_append, hdef, hopen,
    hclose, writtenName]
  simp only [List.append_assoc, List.cons_append, List.nil_append]

theorem toList_joined (phrases : List Phrase) :
    (Phrase.joined phrases).text.toList = phrases.flatMap (·.text.toList) := by
  simp [Phrase.joined, List.flatMap_map]

theorem text_assign (first : Expr) (targets : List Expr) {phrase : Phrase} {value : Written}
    (hvalue : phrase.text.toList = value.text) :
    (Phrase.joined ((first :: targets).map (exprPhrase "" · " = ") ++ [phrase])).text.toList =
      (written first).text ++ assignedText (targets.map written ++ [value]) := by
  have hequals : " = ".toList = [' ', '=', ' '] := rfl
  have hnone : "".toList = [] := rfl
  induction targets generalizing first with
  | nil =>
      rw [toList_joined, List.map_singleton, List.singleton_append, List.flatMap_cons,
        List.flatMap_singleton, toList_exprPhrase, hequals, hnone, hvalue]
      simp [assignedText]
  | cons second targets ih =>
      have hrest := ih second
      rw [toList_joined] at hrest ⊢
      rw [List.map_cons, List.cons_append, List.flatMap_cons, hrest, toList_exprPhrase, hequals,
        hnone]
      simp [assignedText]

theorem text_augmented (target value : Expr) (op : BinaryOp) :
    (writeExpr target ++ " " ++ binarySymbol op ++ "= " ++ writeExpr value).toList =
      (written target).text ++ ' ' :: ((augmentedSymbol op).toList ++ ' ' :: (written value).text) := by
  have hequals : "= ".toList = ['=', ' '] := rfl
  have hblank : " ".toList = [' '] := rfl
  have hend : "=".toList = ['='] := rfl
  simp only [String.toList_append, text_written, writeExpr, augmentedSymbol, hequals, hblank, hend,
    List.append_assoc, List.cons_append, List.nil_append]

theorem text_print (args : List Expr) :
    (Phrase.listed "print(" (args.map (exprPhrase "" · "")) ")").text.toList =
      "print".toList ++ '(' :: (commaTexts ((args.map written).map Written.text) ++ [')']) := by
  have hopen : "print(".toList = "print".toList ++ ['('] := rfl
  have hclose : ")".toList = [')'] := rfl
  simp only [toList_listed, List.map_map, Function.comp_def, text_plain, hopen, hclose,
    List.append_assoc, List.cons_append, List.nil_append]

end Phrases

end Diglot.Indented
