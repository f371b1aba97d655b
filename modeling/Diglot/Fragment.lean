namespace Diglot

-- Where a statement is written.
structure Context where
  -- In the body of a method, where the receiver has its name.
  inMethod : Bool
  -- Directly in the body of a class, where a function is a method.
  inClass : Bool
  deriving DecidableEq, Repr, Inhabited

namespace Context

-- Outside of all classes.
def toplevel : Context := ⟨false, false⟩

def classBody : Context := ⟨false, true⟩

def methodBody : Context := ⟨true, false⟩

end Context

-- Written text inside a line, with the number of placeholders in it: of constructs that the
-- notation cannot say and that are written as a remark in their place.
structure Phrase where
  text : String
  placeholders : Nat
  deriving Repr

namespace Phrase

-- A text without placeholders.
def plain (text : String) : Phrase := ⟨text, 0⟩

-- How many placeholders some phrases have together.
def count : List Phrase → Nat
  | [] => 0
  | first :: rest => first.placeholders + count rest

-- Phrases one behind the other.
def joined (phrases : List Phrase) : Phrase :=
  ⟨String.join (phrases.map (·.text)), count phrases⟩

-- Phrases divided by commas, with an opening and a closing around them.
def listed (opening : String) (phrases : List Phrase) (closing : String) : Phrase :=
  ⟨opening ++ ", ".intercalate (phrases.map (·.text)) ++ closing, count phrases⟩

end Phrase

-- A written line: how many levels it is indented by, and its text.
structure Line where
  depth : Nat
  text : String
  deriving DecidableEq, Repr

-- A line with its indentation, each level of which is written as `unit`.
def Line.render (unit : String) (line : Line) : String :=
  String.join (List.replicate line.depth unit) ++ line.text ++ "\n"

-- Written lines, and the number of placeholders in them.
@[ext]
structure Fragment where
  lines : List Line
  placeholders : Nat
  deriving Repr

namespace Fragment

def empty : Fragment := ⟨[], 0⟩

instance : Append Fragment where
  append first second := ⟨first.lines ++ second.lines, first.placeholders + second.placeholders⟩

@[simp]
theorem lines_append (first second : Fragment) :
    (first ++ second).lines = first.lines ++ second.lines := rfl

@[simp]
theorem placeholders_append (first second : Fragment) :
    (first ++ second).placeholders = first.placeholders + second.placeholders := rfl

@[simp]
theorem empty_append (fragment : Fragment) : empty ++ fragment = fragment := by
  ext1
  · simp [empty]
  · simp [empty]

@[simp]
theorem append_empty (fragment : Fragment) : fragment ++ empty = fragment := by
  ext1
  · simp [empty]
  · simp [empty]

theorem append_assoc (first second third : Fragment) :
    first ++ second ++ third = first ++ (second ++ third) := by
  ext1
  · simp
  · simp [Nat.add_assoc]

-- One line without placeholders.
def line (text : String) : Fragment := ⟨[⟨0, text⟩], 0⟩

-- One line with placeholders.
def phrase (phrase : Phrase) : Fragment := ⟨[⟨0, phrase.text⟩], phrase.placeholders⟩

-- The same lines, one level further in.
def indent (fragment : Fragment) : Fragment :=
  { fragment with lines := fragment.lines.map fun line => { line with depth := line.depth + 1 } }

-- The text of all lines, with levels of the given number of spaces.
def render (width : Nat) (fragment : Fragment) : String :=
  String.join (fragment.lines.map (Line.render (String.ofList (List.replicate width ' '))))

@[simp]
theorem indent_append (first second : Fragment) :
    (first ++ second).indent = first.indent ++ second.indent := by
  ext1
  · simp [indent]
  · simp [indent]

-- What is written behind other lines leaves their text as it is.
theorem render_append (width : Nat) (first second : Fragment) :
    (first ++ second).render width = first.render width ++ second.render width := by
  simp [render]

end Fragment

end Diglot
