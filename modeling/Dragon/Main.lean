import Dragon.Command.Run

/-!
# The command line on the files of the machine
-/
namespace Dragon

/-- What the file at a path holds; a directory holds nothing. -/
def readFile? (path : String) : IO (Option ByteArray) := do
  try
    return some (← IO.FS.readBinFile path)
  catch _ =>
    return none

def machine : IO (Disk IO) := do
  let here ← IO.currentDir
  return ⟨Path.ofText here.toString, readFile?⟩

def Command.Failure.message : Command.Failure → String
  | settings e => e.message
  | compile e => e.message

end Dragon

open Dragon in
def main (args : List String) : IO UInt32 := do
  let out ← IO.getStdout
  let err ← IO.getStderr
  let colored ← out.isTty
  match ← Command.run (← machine) colored args with
  | none =>
    err.putStrLn "usage: dragon [-v] (compile | check | view) FILE"
    return 2
  | some outcome =>
    out.putStr outcome.out
    err.putStr outcome.err
    if let some failure := outcome.failure then
      err.putStrLn failure.message
    return outcome.exit.toUInt32
