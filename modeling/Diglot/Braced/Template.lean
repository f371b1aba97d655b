import Diglot.Braced.ReadExpr
import Diglot.Indented.Interpolation

namespace Diglot.Braced

-- Reads the source of an expression that is embedded in a template. It has to be all of it.
def readEmbedded? (source : List Char) : Option Expr :=
  let text := trimBlanks source
  if text.isEmpty then none
  else
    match tokenize (String.ofList text) with
    | .error _ => none
    | .ok tokens =>
        let stream := TokenStream.plain tokens
        match expression stream.size stream with
        | .error _ => none
        | .ok (found, stream) => if stream.isAtEnd then some found else none

-- Puts characters in front of some segments, as text.
def consChars (text : List Char) (segments : List (Segment Expr)) : List (Segment Expr) :=
  text.foldr Segment.consChar segments

-- The text of a template and the expressions embedded in it, and how many parts that look like
-- one cannot be read. Those stay text, and so does everything from a part that is not closed.
def templateSegments : List Char → List (Segment Expr) × Nat
  | [] => ([], 0)
  | '\\' :: c :: rest =>
      let (segments, unread) := templateSegments rest
      (Segment.consChar (Quoted.unescape c) segments, unread)
  | '$' :: '{' :: rest =>
      match hclose : Embedding.close 0 none rest with
      | none => (consChars ('$' :: '{' :: rest) [], 0)
      | some (source, behind) =>
          have shorter : behind.length < rest.length := by
            simp only [Embedding.append_of_close hclose, List.length_append, List.length_cons]
            omega
          let (segments, unread) := templateSegments behind
          match readEmbedded? source with
          | some found => (.expr found :: segments, unread)
          | none => (consChars ('$' :: '{' :: source ++ ['}']) segments, unread + 1)
  | c :: rest =>
      let (segments, unread) := templateSegments rest
      (Segment.consChar c segments, unread)
termination_by text => text.length

end Diglot.Braced
