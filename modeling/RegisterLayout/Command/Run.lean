import RegisterLayout.Command.Action
import RegisterLayout.Command.FileTree
import RegisterLayout.Command.LogRecord
import RegisterLayout.Command.OutputFile
import RegisterLayout.Model
import RegisterLayout.Table.Row

/-!
# Runs of the command

A run prints for each model the views that were chosen.  The output of a model is complete or
absent: where one view fails, none of them is printed, and the run stops with that model.  An
output file is emptied before the first model is read, and it is complete when the run is over.

Principal definitions: `modelOutput`, `Sink`, `runModels`, `runOptions`, `runCommand`.
-/

namespace RegisterLayout

/-- Work that keeps a log and may fail, the log surviving a failure. -/
abbrev Logged := ExceptT Failure (StateM (List LogRecord))

def log (record : LogRecord) : Logged Unit := modify (· ++ [record])

/-- The text of a model.  A path with a line feed in it is no path but a text itself, and so is
one that leads to no file. -/
def modelText (files : FileTree) (path : String) : Logged Text := do
  if '\n' ∈ path.toList then return path
  match files.read? path with
  | none => return path
  | some bytes =>
    log (.loading path)
    match String.fromUTF8? bytes with
    | some text => return Text.ofChars (Text.unifyNewlines text.toList)
    | none => throw .undecodable

/-- The placed tree of a model. -/
def loadTree (files : FileTree) (path : String) : Logged Field := do
  let tree ← Field.ofText (← modelText files path)
  modify (· ++ tree.placementRecords.map .placed)
  let root ← tree.resolve
  let bytes := (← root.sizeBytes).truncate
  log (.resolved root.fullName bytes)
  log (.accepted path root.fullName bytes)
  return root

def tableText (root : Field) : Logged Text := return (← root.table) ++ "\n"

def diagramText (o : Options) (root : Field) : Logged Text := do
  let d ← root.diagram
  log (.drawn root.fullName d.cells.length d.legend.length d.totalBits.truncate)
  match o.style with
  | some style => d.render style
  | none => throw (.unknownStyle (.list []))

def declarationsText (o : Options) (root : Field) : Logged Text := do
  let d ← root.declarations o.declarationOptions
  log (.declared root.fullName d.memberLines.length d.blockLines.length)
  return d.text

/-- The views that the options choose, in order. -/
def chosenViews (o : Options) : List (Field → Logged Text) :=
  (if o.table then [tableText] else [])
    ++ (if o.diagram then [diagramText o] else [])
    ++ (if o.declarations then [declarationsText o] else [])

/-- All of the output for one model. -/
def modelOutput (o : Options) (files : FileTree) (path : String) : Logged Text := do
  let root ← loadTree files path
  let texts ← (chosenViews o).mapM fun view => view root
  return Text.joined "\n" texts

/-! ## Where outputs go -/

/-- What the outputs so far went to: the standard output, or a file that is being written. -/
inductive Sink where
  | standard (text : Text)
  | file (location : Location) (file : OutputFile)

namespace Sink

/-- A sink with one more output, which has to be a text that a file can hold if it is a file.  The
standard output is whatever stream the run was given, and it is assumed to take any text, halves of
surrogate pairs included. -/
def receive (s : Sink) (output : Text) : Except Failure Sink :=
  match s with
  | standard text => .ok (standard (text ++ output))
  | file location f => do return file location (f.write (← encoded output))

/-- The files as a model finds them while outputs are on their way. -/
def filesBefore (s : Sink) (files : FileTree) : FileTree :=
  match s with
  | standard _ => files
  | file location f => files.put location f.reached

/-- The files when the run is over. -/
def filesAfter (s : Sink) (files : FileTree) : FileTree :=
  match s with
  | standard _ => files
  | file location f => files.put location f.contents

/-- What went to the standard output. -/
def printed : Sink → Text
  | standard text => text
  | file .. => []

end Sink

/-! ## Runs -/

/-- How a run ends. -/
inductive Ending where
  | exit (code : Nat)
  /-- The arguments do not lead to a run. -/
  | refused (r : Refusal)
  /-- A failure that the run does not handle. -/
  | failed (e : Failure)
  deriving Repr

/-- What the run of some models leaves. -/
structure Printed where
  sink : Sink
  records : List LogRecord := []
  ending : Ending := .exit 0

/-- A failure of a model: layout errors and violations are reported and end the run with an
exit code. -/
def Printed.ofFailure (sink : Sink) (path : String) : Failure → Printed
  | .violations messages => {
      sink
      records := messages.map (.fault path) ++ [.stopped]
      ending := .exit 1 }
  | .layout e => {
      sink
      records := [.fault path e.message, .stopped]
      ending := .exit 1 }
  | e => { sink, ending := .failed e }

/-- One model: its output is made and goes to the sink. -/
def runModel (o : Options) (files : FileTree) (sink : Sink) (path : String) : Logged Sink := do
  sink.receive (← modelOutput o (sink.filesBefore files) path)

/-- The outputs of models one after the other, up to the first that fails. -/
def runModels (o : Options) (files : FileTree) (sink : Sink) : List String → Printed
  | [] => { sink }
  | path :: rest =>
    match (runModel o files sink path).run.run [] with
    | (.ok sink, records) =>
      let later := runModels o files sink rest
      { later with records := records ++ later.records }
    | (.error e, records) =>
      let last := Printed.ofFailure sink path e
      { last with records := records ++ last.records }

/-- What a run of the command leaves. -/
structure Outcome where
  ending : Ending
  stdout : Text := []
  stderr : Text := []
  files : FileTree

/-- The sink that the options choose; an output file is emptied. -/
def sinkFor (o : Options) (files : FileTree) : Except Failure Sink :=
  match o.output with
  | none => .ok (.standard [])
  | some name => do return .file (← files.locationToWrite name) {}

/-- A run with options: nothing is read or written unless every model is a file. -/
def runOptions (o : Options) (files : FileTree) : Outcome :=
  let stderr := logText o.verbosity
  match o.models.find? (!files.isFile ·) with
  | some path => { ending := .exit 1, stderr := stderr [.noSuchFile path], files }
  | none =>
    match sinkFor o files with
    | .error e => { ending := .failed e, files }
    | .ok sink =>
      let left := runModels o files sink o.models
      { ending := left.ending
        stdout := left.sink.printed
        stderr := stderr left.records
        files := left.sink.filesAfter files }

/-- A run of the command with its arguments. -/
def runCommand (arguments : List String) (files : FileTree) : Outcome :=
  match Options.ofArguments arguments with
  | .ok o => runOptions o files
  | .error r => { ending := .refused r, files }

end RegisterLayout
