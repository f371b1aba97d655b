namespace Diglot

-- The two notations of the language. PythonScript marks its blocks by indentation, JavaScript by
-- braces.
inductive Dialect where
  | pythonScript
  | javaScript
  deriving DecidableEq, Repr

namespace Dialect

-- The notation that a program in this one is carried over to.
def target : Dialect → Dialect
  | pythonScript => javaScript
  | javaScript => pythonScript

-- The file extension, without its dot.
def extension : Dialect → String
  | pythonScript => "pjs"
  | javaScript => "js"

-- The name of the notation.
def name : Dialect → String
  | pythonScript => "PythonScript"
  | javaScript => "JavaScript"

@[simp]
theorem target_target (dialect : Dialect) : dialect.target.target = dialect := by
  cases dialect <;> rfl

end Dialect

end Diglot
