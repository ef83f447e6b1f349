import AngleSeries.CommandLine.Command

/-!
# The program

Reads the file that the command line names, prints the answer and writes its file.
-/

open AngleSeries AngleSeries.CommandLine

def readSource (path : String) : IO (Except Text Text) := do
  try
    return .ok (.ofString (← IO.FS.readFile path))
  catch failure =>
    return .error (.ofString (toString failure))

/-- Writes a file; what the system says if it cannot. -/
def writeTarget (path : String) (text : Text) : IO (Option Text) := do
  try
    IO.FS.writeFile path text.string
    return none
  catch failure =>
    return some (.ofString (toString failure))

def main (args : List String) : IO UInt32 := do
  let directory ← IO.currentDir
  let args := args.map Text.ofString
  let content ← match source? directory.toString args with
    | some path => readSource path
    | none => pure (.error "no such file")
  let answer := answer ⟨directory.toString, fun _ => content⟩ args
  let failure ← match answer.file with
    | some (path, text) => writeTarget path text
    | none => pure none
  let output := answer.conclude failure
  (← IO.getStdout).putStr output.stdout.string
  (← IO.getStderr).putStr output.stderr.string
  return UInt32.ofNat output.code
