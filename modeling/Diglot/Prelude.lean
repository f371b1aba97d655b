namespace Diglot

-- Definitions of what a program carried over to the braced notation may call.
def preludeText : String :=
  "// --- PythonScript stdlib (minimal) ---\n" ++
  "function print(...args) \x7b console.log(...args); \x7d\n" ++
  "function len(x) \x7b return x?.length ?? 0; \x7d\n" ++
  "function range(start, end, step = 1) \x7b\n" ++
  "  if (end === undefined) \x7b\n" ++
  "    end = start;\n" ++
  "    start = 0;\n" ++
  "  \x7d\n" ++
  "  const res = [];\n" ++
  "  for (let i = start; step > 0 ? i < end : i > end; i += step) \x7b\n" ++
  "    res.push(i);\n" ++
  "  \x7d\n" ++
  "  return res;\n" ++
  "\x7d\n"

end Diglot
