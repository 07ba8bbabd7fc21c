import Fixity.CommandLine

/-! The program: reads the grammar file that the arguments name and writes the outcome. -/
namespace Fixity

namespace CommandLine

/-- The contents of a file, if it can be read. -/
def readContents (path : String) : IO (Option String) := do
  try
    return some (← IO.FS.readFile path)
  catch _ => return none

def outcome (args : List String) : IO Outcome := do
  match request? args with
  | none => return misuse
  | some request =>
    let contents ← match request.grammarPath with
      | none => pure none
      | some path => readContents path
    return run request contents

end CommandLine

end Fixity

def main (args : List String) : IO UInt32 := do
  let outcome ← Fixity.CommandLine.outcome args
  (← IO.getStdout).putStr outcome.stdout
  (← IO.getStderr).putStr outcome.stderr
  return outcome.code
