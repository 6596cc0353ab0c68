import Mathlib.Data.List.Find
import RegisterLayout.Command.Run
import RegisterLayout.Proofs.Outcome

/-!
# Runs over models

What a model comes to depends on its file and on the options alone, not on the log nor on the
models before it.  A run on the standard output asks first whether every model is a file; then it
prints the outputs of the models one after the other, each complete, up to the first that fails.

Principal definitions: `Logged.ComesTo`, `fullOutput`, `Failure.ending`.
Principal results: `modelOutput_comesTo`, `runModels_append`, `runCommand_standard`.
-/

namespace RegisterLayout

variable {α β : Type}

/-! ## Results of logged work -/

namespace Logged

variable {x : Logged α} {f : α → Logged β} {records later : List LogRecord}

theorem run_bind_ok {a : α} (h : x.run.run records = (.ok a, later)) :
    (x >>= f).run.run records = (f a).run.run later := by
  rw [ExceptT.run_bind, StateT.run_bind, h]
  rfl

theorem run_bind_error {e : Failure} (h : x.run.run records = (.error e, later)) :
    (x >>= f).run.run records = (.error e, later) := by
  rw [ExceptT.run_bind, StateT.run_bind, h]
  rfl

/-- Work with a result that does not depend on the log. -/
def ComesTo (x : Logged α) (r : Except Failure α) : Prop := ∀ records, (x.run.run records).1 = r

namespace ComesTo

variable {r : Except Failure α} {g : α → Except Failure β}

theorem pure (a : α) : ComesTo (Pure.pure a) (.ok a) := fun _ => rfl

theorem throw (e : Failure) : (MonadExcept.throw e : Logged α).ComesTo (.error e) := fun _ => rfl

theorem lift (r : Except Failure α) : ComesTo (liftM r) r := fun _ => rfl

theorem bind (hx : x.ComesTo r) (hf : ∀ a, (f a).ComesTo (g a)) :
    (x >>= f).ComesTo (r >>= g) := by
  intro records
  obtain rfl := hx records
  rcases h : x.run.run records with ⟨e | a, later⟩
  · rw [run_bind_error h]
    rfl
  · rw [run_bind_ok h]
    exact hf a later

/-- What is logged has no part in the result. -/
theorem afterLog {change : List LogRecord → List LogRecord} {f : Unit → Logged α}
    (h : (f ()).ComesTo r) : (modify change >>= f).ComesTo r :=
  fun records => h (change records)

theorem mapM {xs : List α} {rs : List (Except Failure β)}
    (h : List.Forall₂ (fun a r => (f a).ComesTo r) xs rs) : (xs.mapM f).ComesTo (rs.mapM id) := by
  induction h with
  | nil => exact pure []
  | cons ha _ ih =>
    rw [List.mapM_cons, List.mapM_cons]
    exact ha.bind fun b => ih.bind fun bs => pure (b :: bs)

end ComesTo

end Logged

/-! ## The output of a model -/

/-- The text of the model at a path. -/
def sourceText (files : FileTree) (path : String) : Except Failure Text :=
  if '\n' ∈ path.toList then .ok path
  else
    match files.read? path with
    | none => .ok path
    | some bytes =>
      match String.fromUTF8? bytes with
      | some text => .ok (Text.ofChars (Text.unifyNewlines text.toList))
      | none => .error .undecodable

theorem sourceText_of_read {files : FileTree} {path text : String} (hfeed : '\n' ∉ path.toList)
    (hread : files.read? path = some text.toUTF8) :
    sourceText files path = .ok (Text.ofChars (Text.unifyNewlines text.toList)) := by
  have hdecoded : String.fromUTF8? text.toUTF8 = some text := dif_pos text.isValidUTF8
  rw [sourceText, if_neg hfeed, hread]
  dsimp only
  rw [hdecoded]

/-- The placed tree of a text, which has to have a size. -/
def placedTree (source : Text) : Except Failure Field := do
  let raw ← Field.ofText source
  let root ← raw.resolve
  let _ ← root.sizeBytes
  return root

/-- The views of a tree that the options choose, each a text or a failure. -/
def Options.views (o : Options) (root : Field) : List (Except Failure Text) :=
  let tableView := do return (← root.table) ++ "\n"
  let diagramView := do
    let d ← root.diagram
    match o.style with
    | some style => d.render style
    | none => throw (.unknownStyle (.list []))
  let declarationsView := do return (← root.declarations o.declarationOptions).text
  (if o.table then [tableView] else []) ++ (if o.diagram then [diagramView] else [])
    ++ (if o.declarations then [declarationsView] else [])

/-- All that is printed for the model at a path: the chosen views, each of which has to succeed. -/
def fullOutput (o : Options) (files : FileTree) (path : String) : Except Failure Text := do
  let root ← placedTree (← sourceText files path)
  return Text.joined "\n" (← (o.views root).mapM id)

section

variable (o : Options) (files : FileTree) (path : String) (root : Field)

theorem modelText_comesTo : (modelText files path).ComesTo (sourceText files path) := by
  rw [modelText, sourceText]
  by_cases hfeed : '\n' ∈ path.toList
  · rw [if_pos hfeed, if_pos hfeed]
    exact .pure _
  rw [if_neg hfeed, if_neg hfeed]
  cases files.read? path with
  | none => exact .pure _
  | some bytes =>
    refine .afterLog ?_
    dsimp only
    cases String.fromUTF8? bytes with
    | none => exact .throw _
    | some text => exact .pure _

theorem loadTree_comesTo :
    (loadTree files path).ComesTo (sourceText files path >>= placedTree) := by
  refine (modelText_comesTo files path).bind fun source => ?_
  refine (Logged.ComesTo.lift _).bind fun raw => .afterLog ?_
  refine (Logged.ComesTo.lift _).bind fun root => (Logged.ComesTo.lift _).bind fun size => ?_
  exact .afterLog (.afterLog (.pure root))

theorem chosen_comesTo {chosen : Bool} {view : Field → Logged Text} {r : Except Failure Text}
    (h : (view root).ComesTo r) :
    List.Forall₂ (fun view r => (view root).ComesTo r) (if chosen then [view] else [])
      (if chosen then [r] else []) := by
  cases chosen with
  | false => exact .nil
  | true => exact .cons h .nil

theorem chosenViews_comesTo :
    List.Forall₂ (fun view r => (view root).ComesTo r) (chosenViews o) (o.views root) := by
  refine List.rel_append (List.rel_append ?_ ?_) ?_
  · exact chosen_comesTo root ((Logged.ComesTo.lift _).bind fun text => .pure _)
  · refine chosen_comesTo root ((Logged.ComesTo.lift _).bind fun d => .afterLog ?_)
    cases o.style with
    | none => exact .throw _
    | some style => exact .lift _
  · exact chosen_comesTo root ((Logged.ComesTo.lift _).bind fun d => .afterLog (.pure _))

/-- **What a model comes to is its full output**, whatever was logged before. -/
theorem modelOutput_comesTo : (modelOutput o files path).ComesTo (fullOutput o files path) := by
  have h := (loadTree_comesTo files path).bind fun root =>
    (Logged.ComesTo.mapM (chosenViews_comesTo o root)).bind fun texts =>
      .pure (Text.joined "\n" texts)
  rwa [bind_assoc] at h

end

/-! ## Steps of a run -/

/-- Layout errors and violations are reported; other failures are not handled. -/
def Failure.isReported : Failure → Bool
  | .violations _ | .layout _ => true
  | _ => false

/-- How a run ends with a failure of a model. -/
def Failure.ending (e : Failure) : Ending := if e.isReported then .exit 1 else .failed e

theorem Failure.ending_ne_exit_zero (e : Failure) : e.ending ≠ .exit 0 := by
  rw [ending]
  split <;> simp

/-- What is logged about a failure of the model at a path. -/
def Failure.records (path : String) : Failure → List LogRecord
  | .violations messages => messages.map (.fault path) ++ [.stopped]
  | .layout e => [.fault path e.message, .stopped]
  | _ => []

theorem Printed.ofFailure_eq (sink : Sink) (path : String) (e : Failure) :
    Printed.ofFailure sink path e = { sink, records := e.records path, ending := e.ending } := by
  cases e <;> rfl

section

variable {o : Options} {files : FileTree} {sink sink' : Sink} {path : String}
  {models done rest : List String} {texts : List Text}

/-- What is logged about the model at a path. -/
def recordsOf (o : Options) (files : FileTree) (path : String) : List LogRecord :=
  ((modelOutput o files path).run.run []).2

/-- The output of a model goes to the sink if it is made. -/
theorem runModel_run (o : Options) (files : FileTree) (sink : Sink) (path : String) :
    (runModel o files sink path).run.run [] =
      (fullOutput o (sink.filesBefore files) path >>= sink.receive,
        recordsOf o (sink.filesBefore files) path) := by
  have hresult := modelOutput_comesTo o (sink.filesBefore files) path []
  rw [runModel, recordsOf, ← hresult]
  rcases h : (modelOutput o (sink.filesBefore files) path).run.run [] with ⟨e | output, records⟩
  · rw [Logged.run_bind_error h]
    rfl
  · rw [Logged.run_bind_ok h]
    rfl

theorem runModels_cons_of_ok
    (h : fullOutput o (sink.filesBefore files) path >>= sink.receive = .ok sink') :
    runModels o files sink (path :: rest) =
      { runModels o files sink' rest with
        records := recordsOf o (sink.filesBefore files) path ++
          (runModels o files sink' rest).records } := by
  rw [runModels, runModel_run, h]

theorem runModels_cons_of_error {e : Failure}
    (h : fullOutput o (sink.filesBefore files) path >>= sink.receive = .error e) :
    runModels o files sink (path :: rest) =
      { sink
        records := recordsOf o (sink.filesBefore files) path ++ e.records path
        ending := e.ending } := by
  rw [runModels, runModel_run, h]
  simp only [Printed.ofFailure_eq]

/-! ## Runs on the standard output -/

/-- The models at some paths have these outputs. -/
def Print (o : Options) (files : FileTree) : List String → List Text → Prop :=
  List.Forall₂ fun path text => fullOutput o files path = .ok text

theorem Print.exists_of_mem (h : Print o files models texts) (hpath : path ∈ models) :
    ∃ text, fullOutput o files path = .ok text := by
  induction h with
  | nil => cases hpath
  | cons htext _ ih =>
    rcases List.mem_cons.1 hpath with rfl | hlater
    · exact ⟨_, htext⟩
    · exact ih hlater

theorem runModels_cons_of_print {text : Text} (h : fullOutput o files path = .ok text)
    (printed : Text) :
    runModels o files (.standard printed) (path :: rest) =
      { runModels o files (.standard (printed ++ text)) rest with
        records := recordsOf o files path ++
          (runModels o files (.standard (printed ++ text)) rest).records } := by
  have hreceive : fullOutput o ((Sink.standard printed).filesBefore files) path >>=
      (Sink.standard printed).receive = .ok (.standard (printed ++ text)) := by
    rw [show (Sink.standard printed).filesBefore files = files from rfl, h]
    rfl
  exact runModels_cons_of_ok hreceive

/-- The model that fails is the last one, and adds nothing to what was printed. -/
theorem runModels_fail {e : Failure} (h : fullOutput o files path = .error e) (printed : Text) :
    runModels o files (.standard printed) (path :: rest) =
      { sink := .standard printed
        records := recordsOf o files path ++ e.records path
        ending := e.ending } := by
  refine runModels_cons_of_error ?_
  rw [show (Sink.standard printed).filesBefore files = files from rfl, h]
  rfl

/-- **Models that are printed leave their outputs on the standard output**, and the run goes on. -/
theorem runModels_append (h : Print o files done texts) (printed : Text) :
    runModels o files (.standard printed) (done ++ rest) =
      { runModels o files (.standard (printed ++ texts.flatten)) rest with
        records := done.flatMap (recordsOf o files) ++
          (runModels o files (.standard (printed ++ texts.flatten)) rest).records } := by
  induction h generalizing printed with
  | nil => simp
  | @cons path text done texts htext _ ih =>
    have hprinted : printed ++ (text :: texts).flatten = printed ++ text ++ texts.flatten := by
      rw [List.flatten_cons, List.append_assoc]
    rw [List.cons_append, runModels_cons_of_print htext, ih, hprinted, List.flatMap_cons,
      List.append_assoc (recordsOf o files path)]

theorem runModels_of_print (h : Print o files models texts) (printed : Text) :
    runModels o files (.standard printed) models =
      { sink := .standard (printed ++ texts.flatten)
        records := models.flatMap (recordsOf o files) } := by
  have hrun : runModels o files (.standard printed) (models ++ []) = _ := runModels_append h printed
  rwa [List.append_nil, runModels, List.append_nil] at hrun

/-- All models have outputs, or there is a first one that fails. -/
theorem exists_print (o : Options) (files : FileTree) (models : List String) :
    (∃ texts, Print o files models texts) ∨
      ∃ done texts path later e, models = done ++ path :: later ∧ Print o files done texts ∧
        fullOutput o files path = .error e := by
  induction models with
  | nil => exact .inl ⟨[], .nil⟩
  | cons path models ih =>
    cases hpath : fullOutput o files path with
    | error e => exact .inr ⟨[], [], path, models, e, rfl, .nil, hpath⟩
    | ok text =>
      rcases ih with ⟨texts, h⟩ | ⟨done, texts, path', later, e, rfl, h, hfail⟩
      · exact .inl ⟨text :: texts, .cons hpath h⟩
      · exact .inr ⟨path :: done, text :: texts, path', later, e, rfl, .cons hpath h, hfail⟩

/-- A run of which a model is no file asks for nothing else. -/
theorem runOptions_of_not_isFile (h : ∃ path ∈ o.models, files.isFile path = false) :
    ∃ stderr, ∀ files' : FileTree, (∀ path ∈ o.models, files'.isFile path = files.isFile path) →
      runOptions o files' = { ending := .exit 1, stderr, files := files' } := by
  cases hfind : o.models.find? (!files.isFile ·) with
  | none =>
    obtain ⟨path, hpath, hfile⟩ := h
    exact absurd hfile (by simpa using List.find?_eq_none.1 hfind path hpath)
  | some path =>
    refine ⟨logText o.verbosity [.noSuchFile path], fun files' hsame => ?_⟩
    have hfind' : o.models.find? (!files'.isFile ·) = some path := by
      rw [← hfind]
      exact List.find?_congr fun path hpath => by rw [hsame path hpath]
    rw [runOptions, hfind']

/-- What a run leaves when its models are done. -/
def Printed.outcome (left : Printed) (verbosity : Verbosity) (files : FileTree) : Outcome where
  ending := left.ending
  stdout := left.sink.printed
  stderr := logText verbosity left.records
  files := left.sink.filesAfter files

/-- A run of which all models are files. -/
theorem runOptions_of_isFile (hfiles : ∀ path ∈ o.models, files.isFile path = true)
    (hsink : sinkFor o files = .ok sink) :
    runOptions o files = (runModels o files sink o.models).outcome o.verbosity files := by
  have hfind : o.models.find? (!files.isFile ·) = none :=
    List.find?_eq_none.2 fun path hpath => by simp [hfiles path hpath]
  rw [runOptions, hfind, hsink]
  rfl

theorem sinkFor_standard (hstandard : o.output = none) : sinkFor o files = .ok (.standard []) := by
  rw [sinkFor, hstandard]

/-- What a run on the standard output leaves if all models have outputs. -/
theorem runOptions_of_print (hstandard : o.output = none)
    (hfiles : ∀ path ∈ o.models, files.isFile path = true) (hprint : Print o files o.models texts) :
    runOptions o files =
      { ending := .exit 0
        stdout := texts.flatten
        stderr := logText o.verbosity (o.models.flatMap (recordsOf o files))
        files } := by
  rw [runOptions_of_isFile hfiles (sinkFor_standard hstandard), runModels_of_print hprint]
  rfl

/-- What a run on the standard output leaves if a model fails: nothing of it is about the models
after this one. -/
theorem runOptions_of_fail {path : String} {later : List String} {e : Failure}
    (hmodels : o.models = done ++ path :: later) (hstandard : o.output = none)
    (hfiles : ∀ path ∈ o.models, files.isFile path = true) (hprint : Print o files done texts)
    (hfail : fullOutput o files path = .error e) :
    runOptions o files =
      { ending := e.ending
        stdout := texts.flatten
        stderr := logText o.verbosity
          (done.flatMap (recordsOf o files) ++ (recordsOf o files path ++ e.records path))
        files } := by
  have hleft : runModels o files (.standard []) (done ++ path :: later) = _ :=
    runModels_append hprint []
  rw [runModels_fail hfail] at hleft
  rw [runOptions_of_isFile hfiles (sinkFor_standard hstandard), hmodels, hleft]
  rfl

/-- **A run on the standard output prints the models before the first one that fails.**  It asks
first whether all models are files; if one is none, nothing else is asked of the files and nothing
is printed.  Otherwise the full outputs of the models before the first one that fails are printed,
and this one is the last that has a part in the run, which ends well only if there is none. -/
theorem runCommand_standard {arguments : List String} (h : Options.ofArguments arguments = .ok o)
    (hstandard : o.output = none) :
    ((∃ path ∈ o.models, files.isFile path = false) →
      (runCommand arguments files).ending = .exit 1 ∧ (runCommand arguments files).stdout = [] ∧
      (runCommand arguments files).files = files ∧
      ∀ files' : FileTree, (∀ path ∈ o.models, files'.isFile path = files.isFile path) →
        runCommand arguments files' = { runCommand arguments files with files := files' }) ∧
    ((∀ path ∈ o.models, files.isFile path = true) →
      (runCommand arguments files).files = files ∧
      ((runCommand arguments files).ending = .exit 0 ↔
        ∀ path ∈ o.models, ∃ text, fullOutput o files path = .ok text) ∧
      ∃ done rest texts, o.models = done ++ rest ∧ Print o files done texts ∧
        (runCommand arguments files).stdout = texts.flatten ∧
        ∀ path later, rest = path :: later → ∃ e, fullOutput o files path = .error e ∧
          (runCommand arguments files).ending = e.ending ∧
          runCommand arguments files = runOptions { o with models := done ++ [path] } files) := by
  have hrun (files : FileTree) : runCommand arguments files = runOptions o files := by
    rw [runCommand, h]
  simp only [hrun]
  refine ⟨fun hmissing => ?_, fun hfiles => ?_⟩
  · obtain ⟨stderr, hleft⟩ := runOptions_of_not_isFile hmissing
    rw [hleft files fun _ _ => rfl]
    exact ⟨rfl, rfl, rfl, hleft⟩
  rcases exists_print o files o.models with
    ⟨texts, hprint⟩ | ⟨done, texts, path, later, e, hmodels, hprint, hfail⟩
  · rw [runOptions_of_print hstandard hfiles hprint]
    refine ⟨rfl, iff_of_true rfl fun path hpath => hprint.exists_of_mem hpath, o.models, [], texts,
      (List.append_nil _).symm, hprint, rfl, ?_⟩
    intro path later hnone
    cases hnone
  · have hleft := runOptions_of_fail hmodels hstandard hfiles hprint hfail
    refine ⟨?_, ?_, done, path :: later, texts, hmodels, hprint, ?_, ?_⟩
    · rw [hleft]
    · rw [hleft]
      refine iff_of_false e.ending_ne_exit_zero fun hall => ?_
      obtain ⟨text, htext⟩ := hall path (by simp [hmodels])
      rw [hfail] at htext
      cases htext
    · rw [hleft]
    · intro path' later' heq
      obtain ⟨rfl, rfl⟩ := List.cons.inj heq
      refine ⟨e, hfail, by rw [hleft], ?_⟩
      -- The run is compared with the one that the failing model is the last of.
      have hcutFiles : ∀ path' ∈ done ++ [path], files.isFile path' = true := by
        intro path' hpath'
        refine hfiles path' ?_
        rw [hmodels, List.append_cons]
        exact List.mem_append_left later hpath'
      have hcut := @runOptions_of_fail { o with models := done ++ [path] } files done texts path []
        e rfl hstandard hcutFiles hprint hfail
      exact hleft.trans hcut.symm

/-- The file of a model that is all right, and the file of one that is not. -/
def twoModels : FileTree where
  files := [
    (["a.yaml"], "type: struct\nname: s\nfields:\n- type: word\n  name: a\n  bits: 8\n".toUTF8),
    (["b.yaml"], "type: word\nname: b\n".toUTF8)]

theorem runCommand_standard_twoModels :
    ∃ o, Options.ofArguments ["--table", "a.yaml", "b.yaml"] = .ok o ∧ o.output = none ∧
      (∀ path ∈ o.models, twoModels.isFile path = true) ∧
      ∃ done rest texts, o.models = done ++ rest ∧ Print o twoModels done texts ∧
        (runCommand ["--table", "a.yaml", "b.yaml"] twoModels).stdout = texts.flatten ∧
        ∀ path later, rest = path :: later → ∃ e, fullOutput o twoModels path = .error e ∧
          (runCommand ["--table", "a.yaml", "b.yaml"] twoModels).ending = e.ending ∧
          runCommand ["--table", "a.yaml", "b.yaml"] twoModels =
            runOptions { o with models := done ++ [path] } twoModels := by
  have hfiles : ∀ path ∈ ["a.yaml", "b.yaml"], twoModels.isFile path = true := by decide +kernel
  obtain ⟨-, hrun⟩ := runCommand_standard
    (show Options.ofArguments ["--table", "a.yaml", "b.yaml"] = .ok _ from rfl) rfl
  exact ⟨_, rfl, rfl, hfiles, (hrun hfiles).2.2⟩

end

end RegisterLayout
