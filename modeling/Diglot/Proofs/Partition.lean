import Diglot.Proofs.Braced.Parts
import Diglot.Proofs.Indented.Runs

namespace Diglot

def lexicon : Dialect → Lexicon
  | .pythonScript => Indented.lexicon
  | .javaScript => Braced.lexicon

-- A program's text cut into parts that give its tokens. Each part says what it is in front of those
-- behind it, and its token stands where its text starts.
structure Partition (dialect : Dialect) (source : String) (tokens : List Token)
    (parts : List Part) : Prop where
  text : Part.textOf parts = source.toList
  tokens : Part.tokensOf parts = tokens
  said : ∀ before part after, parts = before ++ part :: after →
    (lexicon dialect).Says (Token.bracketDepth 0 (Part.tokensOf before)) part (Part.textOf after)
  pos : ∀ before part after, parts = before ++ part :: after →
    ∀ token ∈ part.token, token.pos = Pos.behind (Part.textOf before)

theorem partition_of_covers {dialect : Dialect} {source : String} {parts : List Part}
    (h : Part.Covers (lexicon dialect) (.ofText source.toList) 0 parts) :
    Partition dialect source (Part.tokensOf parts) parts where
  text := h.text
  tokens := rfl
  said before part after hparts := (h.tiles before part after hparts).1
  pos before part after hparts token htoken := by
    rw [← Pos.after_start]
    exact (h.tiles before part after hparts).2 token htoken

-- Nothing of a program is lost on the way to its tokens.
theorem exists_partition {dialect : Dialect} {source : String} {tokens : List Token}
    (h : tokenize dialect source = .ok tokens) :
    ∃ parts, Partition dialect source tokens parts := by
  cases dialect with
  | pythonScript =>
      obtain ⟨steps, hruns, rfl⟩ := Indented.tokenize_eq_ok_iff.mp h
      exact ⟨_, partition_of_covers hruns.covers⟩
  | javaScript =>
      obtain ⟨parts, hcovers, rfl⟩ := Braced.exists_covers h 0
      exact ⟨_, partition_of_covers hcovers⟩

-- A comment, a tab, an escaped quote, an empty line, an open bracket and a joined line.
def continued : String := "if n:  # é\n\ts = '\\'😀'\n\n    f(a,\n b) \\\n  **2\nx"

theorem exists_partition_continued :
    ∃ tokens parts, tokenize .pythonScript continued = .ok tokens ∧ tokens.length = 22 ∧
      Partition .pythonScript continued tokens parts := by
  have hlength : (tokenize .pythonScript continued).toOption.map List.length = some 22 := by
    decide +kernel
  cases htokens : tokenize .pythonScript continued with
  | error failure =>
      rw [htokens] at hlength
      cases hlength
  | ok tokens =>
      rw [htokens] at hlength
      obtain ⟨parts, hparts⟩ := exists_partition htokens
      exact ⟨tokens, parts, rfl, Option.some.inj hlength, hparts⟩

end Diglot
