/-!
# What a command has written

The texts for the two output streams, in the order in which they are written to each of them.
-/

namespace ScriptEngine

structure Report where
  stdout : String := ""
  stderr : String := ""

namespace Report

/-- Writes a text. -/
def write (r : Report) (text : String) : Report := { r with stdout := r.stdout ++ text }

/-- Writes a line. -/
def writeLine (r : Report) (line : String) : Report := r.write (line ++ "\n")

/-- Writes a line about a failure. -/
def complain (r : Report) (line : String) : Report := { r with stderr := r.stderr ++ line ++ "\n" }

end Report

end ScriptEngine
