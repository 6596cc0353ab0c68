import RegisterLayout.Command.Run

/-!
# The command

Reads the files that the arguments name, runs the command on them, and prints and writes what
the run leaves.

Principal definition: `main`.
-/

namespace RegisterLayout

/-- The contents of a file, if it can be read. -/
def contentsOf? (path : String) : IO (Option ByteArray) := do
  try return some (← IO.FS.readBinFile path) catch _ => return none

/-- Whether a file can be written.  It is created if it is not there. -/
def canWrite (path : String) : IO Bool := do
  try
    let _ ← IO.FS.Handle.mk path .append
    return true
  catch _ => return false

/-- The files that a run with some options may touch.  The output file is created only if every
model is a file, as by the run itself. -/
def filesFor (o : Options) : IO FileTree := do
  let mut files : FileTree := {}
  for path in o.models do
    if let some contents ← contentsOf? path then files := files.enter path contents
  if o.models.all files.isFile then
    if let some path := o.output then
      if ← canWrite path then
        files := files.enter path ((← contentsOf? path).getD .empty)
  return files

/-- A text as it is printed, with a mark for each surrogate. -/
def printable (s : Text) : String :=
  String.ofList (s.map fun | .char c => c | .surrogate _ => '\uFFFD')

/-- Prints what a run leaves and writes its output file. -/
def publish (o : Options) (outcome : Outcome) : IO Unit := do
  IO.print (printable outcome.stdout)
  IO.eprint (printable outcome.stderr)
  if let some path := o.output then
    if let some contents := outcome.files.read? path then IO.FS.writeBinFile path contents

end RegisterLayout

open RegisterLayout in
def main (arguments : List String) : IO UInt32 := do
  match Options.ofArguments arguments with
  | .error r =>
    if r = .help then IO.print usage else IO.eprint usage
    return r.exitCode.toUInt32
  | .ok o =>
    let outcome := runOptions o (← filesFor o)
    publish o outcome
    match outcome.ending with
    | .exit code => return code.toUInt32
    | .refused r => return r.exitCode.toUInt32
    | .failed e =>
      IO.eprintln ("regdiag: " ++ (e.message?.map printable).getD "the run failed")
      return 1
