import RegisterLayout.Proofs.ModelRuns

/-!
# Runs with an output file

An output file takes the place of the standard output and changes nothing else, as long as no
model is read from it and its texts can be written to a file.  It is emptied before the models are
read, so that a model in the output file is lost.

Principal definition: `Redirects`.
Principal results: `runModels_file`, `runCommand_redirected`, `runCommand_emptied`.
-/

namespace RegisterLayout

/-! ## Files besides the one that is set -/

namespace FileTree

variable {t : FileTree} {location other : Location} {contents : ByteArray} {path : String}

theorem any_putIn {p : Location → Bool} {files : List (Location × ByteArray)}
    (h : files.any (fun entry => p entry.1) = true) :
    (putIn location contents files).any (fun entry => p entry.1) = true := by
  induction files with
  | nil => cases h
  | cons entry rest ih =>
    obtain ⟨key, old⟩ := entry
    rw [List.any_cons, Bool.or_eq_true] at h
    rw [putIn]
    split
    · next heq =>
      rw [List.any_cons, Bool.or_eq_true, heq]
      exact h
    · rw [List.any_cons, Bool.or_eq_true]
      exact h.imp_right ih

/-- A directory is still one when a file is set. -/
theorem isDirectory_put (h : t.isDirectory location = true) :
    (t.put other contents).isDirectory location = true := by
  rw [isDirectory, Bool.or_eq_true] at h ⊢
  refine h.imp id fun hfiles => ?_
  exact any_putIn (p := fun key => location.isPrefixOf key && location.length < key.length) hfiles

theorem walk_put {names : List String} {here : Location} (h : t.walk here names = .ok location) :
    (t.put other contents).walk here names = .ok location := by
  induction names generalizing here with
  | nil => exact h
  | cons name rest ih =>
    rw [walk] at h ⊢
    split at h
    · cases h
    · next hdirectory =>
      rw [Bool.not_eq_true, Bool.not_eq_false'] at hdirectory
      rw [isDirectory_put hdirectory]
      split at h
      · cases h
      · next hsize =>
        rw [if_neg hsize]
        exact ih h

/-- A path still leads to its place when a file is set. -/
theorem locate_put (h : t.locate path = .ok location) :
    (t.put other contents).locate path = .ok location := by
  rw [locate, bind_eq_ok_iff] at h ⊢
  obtain ⟨⟨start, names⟩, hparts, hwalk⟩ := h
  exact ⟨⟨start, names⟩, hparts, walk_put hwalk⟩

theorem read?_of_locate (h : t.locate path = .ok location) : t.read? path = t.lookup location := by
  rw [read?, h]

/-- A file at another place is read as before. -/
theorem read?_put_of_ne (h : t.locate path = .ok location) (hne : location ≠ other) :
    (t.put other contents).read? path = t.read? path := by
  rw [read?_of_locate h, read?_of_locate (locate_put h), lookup_put_of_ne t contents hne]

theorem read?_put_self (h : t.locate path = .ok location) :
    (t.put location contents).read? path = some contents := by
  rw [read?_of_locate (locate_put h), lookup_put_self]

theorem exists_locate_of_isFile (h : t.isFile path = true) :
    ∃ location, t.locate path = .ok location := by
  cases hplace : t.locate path with
  | ok location => exact ⟨location, rfl⟩
  | error e => simp [isFile, read?, hplace] at h

theorem walk_append {names rest : List String} {here : Location} :
    t.walk here (names ++ rest) = t.walk here names >>= fun place => t.walk place rest := by
  induction names generalizing here with
  | nil => rfl
  | cons name names ih =>
    rw [List.cons_append, walk, walk, ih]
    split
    · rfl
    · split <;> rfl

/-- The place of a file to write is the one that its path leads to. -/
theorem locate_of_locationToWrite (h : t.locationToWrite path = .ok location) :
    t.locate path = .ok location := by
  rw [locationToWrite, bind_eq_ok_iff] at h
  obtain ⟨⟨start, names⟩, hparts, h⟩ := h
  dsimp only at h
  generalize hkept : (names.reverse.dropWhile (· == "")).reverse = kept at h
  obtain ⟨parent, hparent, h⟩ := bind_eq_ok_iff.1 h
  obtain ⟨hdirectory, h⟩ := refuse_eq_ok_iff.1 h
  obtain ⟨place, hplace, h⟩ := bind_eq_ok_iff.1 h
  obtain ⟨hclear, h⟩ := refuse_eq_ok_iff.1 h
  obtain rfl := pure_eq_ok_iff.1 h
  simp only [Bool.or_eq_true, decide_eq_true_eq, not_or, Nat.not_lt] at hclear
  -- No name was left out, and there is a last one since a place to write is no directory.
  have hall : kept = names := by
    have hsuffix := List.dropWhile_suffix (l := names.reverse) (· == "")
    rw [← List.reverse_reverse (List.dropWhile _ _), hkept] at hsuffix
    exact (List.reverse_suffix.1 hsuffix).eq_of_length_le hclear.1
  subst hall
  rw [locate, hparts, ok_bind]
  rcases kept.eq_nil_or_concat with rfl | ⟨init, last, rfl⟩
  · obtain rfl := Except.ok.inj hparent
    rw [Bool.not_eq_true, Bool.not_eq_false'] at hdirectory
    rw [walk, hdirectory] at hplace
    obtain rfl : start = location := Except.ok.inj hplace
    exact absurd hdirectory hclear.2
  · rw [List.concat_eq_append] at hparent hplace ⊢
    rw [List.dropLast_concat] at hparent
    rw [List.getLast?_concat] at hplace
    dsimp only
    rw [walk_append, hparent]
    exact hplace

end FileTree

/-! ## Texts in a file -/

theorem chars?_append (s t : Text) :
    (s ++ t).chars? = s.chars?.bind fun cs => t.chars?.map (cs ++ ·) := by
  induction s with
  | nil => simp [Text.chars?]
  | cons c s ih =>
    cases c with
    | surrogate _ => rfl
    | char c =>
      rw [List.cons_append, Text.chars?, ih, Text.chars?]
      cases Text.chars? s <;> cases Text.chars? t <;> rfl

/-- Texts one behind the other can be written if each of them can. -/
theorem encoded_append_eq_ok_iff {s t : Text} {bytes : ByteArray} :
    encoded (s ++ t) = .ok bytes ↔
      ∃ first second, encoded s = .ok first ∧ encoded t = .ok second ∧ bytes = first ++ second := by
  rw [encoded, encoded, encoded, Text.toString?, Text.toString?, Text.toString?, chars?_append]
  cases s.chars? with
  | none => simp
  | some cs =>
    cases t.chars? with
    | none => simp
    | some ds => simp [String.ofList_append, String.toUTF8, String.toByteArray_append, eq_comm]

/-! ## The same models with both sinks -/

section

variable {o : Options} {files : FileTree} {location : Location} {models : List String}

/-- A model depends on the file that its path leads to alone. -/
theorem fullOutput_congr {files' : FileTree} {path : String}
    (h : files'.read? path = files.read? path) :
    fullOutput o files' path = fullOutput o files path := by
  rw [fullOutput, fullOutput, sourceText, sourceText, h]

theorem recordsOf_congr {files' : FileTree} {path : String}
    (h : files'.read? path = files.read? path) :
    recordsOf o files' path = recordsOf o files path := by
  rw [recordsOf, recordsOf, modelOutput, modelOutput, loadTree, loadTree, modelText, modelText, h]

/-- A run on the standard output only adds to what was printed. -/
theorem exists_printed (o : Options) (files : FileTree) (printed : Text) (models : List String) :
    ∃ more, (runModels o files (.standard printed) models).sink = .standard (printed ++ more) := by
  rcases exists_print o files models with
    ⟨texts, hprint⟩ | ⟨done, texts, path, later, e, rfl, hprint, hfail⟩
  · rw [runModels_of_print hprint]
    exact ⟨texts.flatten, rfl⟩
  · rw [runModels_append hprint, runModels_fail hfail]
    exact ⟨texts.flatten, rfl⟩

/-- **Models whose files are elsewhere leave in an output file what they would have printed.** -/
theorem runModels_file
    (hplaces : ∀ path ∈ models, ∃ place, files.locate path = .ok place ∧ place ≠ location)
    {printed : Text} {f : OutputFile} {bytes : ByteArray}
    (hstart : encoded printed = .ok f.contents)
    (hend : encoded (runModels o files (.standard printed) models).sink.printed = .ok bytes) :
    ∃ f' : OutputFile, f'.contents = bytes ∧ runModels o files (.file location f) models =
      { runModels o files (.standard printed) models with sink := .file location f' } := by
  induction models generalizing printed f with
  | nil => exact ⟨f, Except.ok.inj (hstart.symm.trans hend), rfl⟩
  | cons path models ih =>
    obtain ⟨⟨place, hplace, hne⟩, hlater⟩ := List.forall_mem_cons.1 hplaces
    have hread : (files.put location f.reached).read? path = files.read? path :=
      FileTree.read?_put_of_ne hplace hne
    have hfull : fullOutput o ((Sink.file location f).filesBefore files) path =
        fullOutput o files path := fullOutput_congr hread
    have hrecords : recordsOf o ((Sink.file location f).filesBefore files) path =
        recordsOf o files path := recordsOf_congr hread
    cases houtput : fullOutput o files path with
    | error e =>
      -- The failure is the same, and neither sink receives anything.
      have hfile : fullOutput o ((Sink.file location f).filesBefore files) path >>=
          (Sink.file location f).receive = .error e := by
        rw [hfull, houtput]
        rfl
      rw [runModels_fail houtput] at hend ⊢
      rw [runModels_cons_of_error hfile, hrecords]
      exact ⟨f, Except.ok.inj (hstart.symm.trans hend), rfl⟩
    | ok text =>
      rw [runModels_cons_of_print houtput] at hend ⊢
      -- The text is part of what can be written in the end.
      obtain ⟨more, hmore⟩ := exists_printed o files (printed ++ text) models
      have hwhole := hend
      rw [show Printed.sink _ = _ from hmore] at hwhole
      obtain ⟨_, _, hfirst, -, -⟩ := encoded_append_eq_ok_iff.1 hwhole
      obtain ⟨before, added, hbefore, hadded, rfl⟩ := encoded_append_eq_ok_iff.1 hfirst
      obtain rfl := Except.ok.inj (hstart.symm.trans hbefore)
      have hfile : fullOutput o ((Sink.file location f).filesBefore files) path >>=
          (Sink.file location f).receive = .ok (.file location (f.write added)) := by
        rw [hfull, houtput, ok_bind, Sink.receive, hadded]
        rfl
      have hgone : encoded (printed ++ text) = .ok (f.write added).contents := by
        rw [OutputFile.contents_write]
        exact hfirst
      obtain ⟨f', hf', hrun⟩ := ih hlater hgone hend
      rw [runModels_cons_of_ok hfile, hrun, hrecords]
      exact ⟨f', hf', rfl⟩

end

/-! ## Arguments with an output file -/

/-- Arguments of which the second ask for an output file where the first ask for none. -/
structure Redirects (plain redirected : List String) (file : String) : Prop where
  standard : ∀ o, Options.ofArguments plain = .ok o → o.output = none
  reading : Options.ofArguments redirected =
    (Options.ofArguments plain).map fun o => { o with output := some file }

/-- The switch for an output file. -/
def Action.setsOutput : Action → Bool
  | .set .output _ => true
  | _ => false

/-- An argument is a switch for an output file. -/
def namesOutput (arguments : List String) : Bool :=
  (Argument.ofTexts? arguments).any fun classified =>
    (actions none classified).any Action.setsOutput

namespace PartialOptions

/-- Options that are being read, with an output file or none. -/
def withOutput (r : PartialOptions) (output : Option String) : PartialOptions :=
  { r with options := { r.options with output } }

/-- Only the switch for it reads or sets the output file. -/
theorem apply_withOutput {a : Action} (h : a.setsOutput = false) (r : PartialOptions)
    (output : Option String) :
    (r.withOutput output).apply a = (r.apply a).map (·.withOutput output) := by
  obtain ⟨o, phase, stray⟩ := r
  cases a with
  | turn s => cases s <;> cases phase <;> rfl
  | set s value =>
    cases s with
    | output => cases h
    | style =>
      rw [apply, apply, set, set]
      cases (valueOf value).mapM fun name => Style.ofValue (.str name) with
      | error _ => rfl
      | ok style => cases phase <;> rfl
    | _ => rfl
  | model name => cases phase <;> rfl
  | separator => cases phase <;> rfl
  | stray => cases phase <;> rfl
  | fail => rfl

theorem foldlM_withOutput {as : List Action} (h : as.any Action.setsOutput = false)
    (r : PartialOptions) (output : Option String) :
    as.foldlM apply (r.withOutput output) = (as.foldlM apply r).map (·.withOutput output) := by
  induction as generalizing r with
  | nil => rfl
  | cons a as ih =>
    obtain ⟨hfirst, hlater⟩ := Bool.or_eq_false_iff.1 (List.any_cons.symm.trans h)
    rw [List.foldlM_cons, List.foldlM_cons, apply_withOutput hfirst]
    cases r.apply a with
    | error _ => rfl
    | ok r' => exact ih hlater r'

theorem finish_withOutput (r : PartialOptions) (output : Option String) :
    (r.withOutput output).finish = r.finish.map fun o => { o with output } := by
  rw [finish, finish]
  by_cases hrefused : (r.stray || r.options.models.isEmpty) = true
  · rw [if_pos hrefused, if_pos (by exact hrefused)]
    rfl
  · rw [if_neg hrefused, if_neg (by exact hrefused)]
    rfl

end PartialOptions

theorem ofText?_output (file : String) :
    Argument.ofText? ("--output=" ++ file) = some (.switches ⟨[], some (.output, some file)⟩) := by
  have hchars : ("--output=" ++ file).toList =
      '-' :: '-' :: ("output=".toList ++ file.toList) := String.toList_append
  have hcut : Argument.cutAtEquals ('-' :: '-' :: ("output=".toList ++ file.toList)) =
      ("--output".toList, some (String.ofList file.toList)) := rfl
  rw [String.ofList_toList] at hcut
  rw [Argument.ofText?, hchars]
  show Argument.ofLong? ('-' :: '-' :: ("output=".toList ++ file.toList)) = _
  rw [Argument.ofLong?, hcut]
  rfl

theorem ofTexts?_output (file : String) (plain : List String) :
    Argument.ofTexts? (("--output=" ++ file) :: plain) =
      (Argument.ofTexts? plain).map (.switches ⟨[], some (.output, some file)⟩ :: ·) := by
  rw [Argument.ofTexts?, ofText?_output]
  cases Argument.ofTexts? plain <;> rfl

/-- Arguments that name no output file ask for none. -/
theorem output_eq_none_of_arguments {plain : List String} (h : namesOutput plain = false)
    {o : Options} (ho : Options.ofArguments plain = .ok o) : o.output = none := by
  rw [namesOutput] at h
  rw [Options.ofArguments] at ho
  cases hplain : Argument.ofTexts? plain with
  | none =>
    rw [hplain] at ho
    cases ho
  | some classified =>
    rw [hplain] at h
    have hfold : (actions none classified).foldlM PartialOptions.apply {} = _ :=
      PartialOptions.foldlM_withOutput h {} none
    rw [hplain] at ho
    dsimp only at ho
    cases hread : (actions none classified).foldlM PartialOptions.apply {} with
    | error _ =>
      rw [hread] at ho
      cases ho
    | ok r =>
      rw [hread] at hfold ho
      replace ho : r.finish = .ok o := ho
      have hsame : r = r.withOutput none := Except.ok.inj hfold
      have hfinish := PartialOptions.finish_withOutput r none
      rw [← hsame, ho] at hfinish
      rw [Except.ok.inj hfinish]

/-- **An output file may be named in front of arguments that name none.** -/
theorem redirects_output {plain : List String} (h : namesOutput plain = false) {file : String}
    (hname : file ≠ "" ∧ file ≠ "--") : Redirects plain (("--output=" ++ file) :: plain) file := by
  refine ⟨fun o ho => output_eq_none_of_arguments h ho, ?_⟩
  have hset : PartialOptions.apply {} (.set .output file) =
      .ok (({} : PartialOptions).withOutput (some file)) := by
    have hvalue : (PartialOptions.valueOf file).filter (· ≠ "") = some file := by
      rw [PartialOptions.valueOf, if_neg hname.2]
      simp [hname.1]
    rw [PartialOptions.apply, PartialOptions.set, hvalue]
    rfl
  rw [namesOutput] at h
  rw [Options.ofArguments, Options.ofArguments, ofTexts?_output]
  cases hplain : Argument.ofTexts? plain with
  | none => rfl
  | some classified =>
    rw [hplain] at h
    have hfold := PartialOptions.foldlM_withOutput h {} (some file)
    show (do
      let r ← (.set .output file :: actions none classified).foldlM PartialOptions.apply {}
      r.finish) = Except.map _ (do
      let r ← (actions none classified).foldlM PartialOptions.apply {}
      r.finish)
    rw [List.foldlM_cons, hset]
    show ((actions none classified).foldlM PartialOptions.apply
      (PartialOptions.withOutput {} (some file)) >>= PartialOptions.finish) = _
    rw [hfold]
    cases (actions none classified).foldlM PartialOptions.apply {} with
    | error _ => rfl
    | ok r => exact PartialOptions.finish_withOutput r (some file)

/-! ## Runs with an output file -/

section

variable {plain redirected : List String} {file : String} {o : Options} {files : FileTree}
  {location : Location}

theorem runModels_withOutput (o : Options) (output : Option String) (files : FileTree)
    (sink : Sink) (models : List String) :
    runModels { o with output } files sink models = runModels o files sink models := by
  induction models generalizing sink with
  | nil => rfl
  | cons path models ih =>
    rw [runModels, runModels]
    simp only [ih]
    rfl

/-- Whatever the models come to, a run with an output file writes to it and to nothing else. -/
theorem exists_written (o : Options) (files : FileTree) (location : Location) (f : OutputFile)
    (models : List String) :
    ∃ f', (runModels o files (.file location f) models).sink = .file location f' := by
  induction models generalizing f with
  | nil => exact ⟨f, rfl⟩
  | cons path models ih =>
    cases hstep : fullOutput o ((Sink.file location f).filesBefore files) path >>=
        (Sink.file location f).receive with
    | error e =>
      rw [runModels_cons_of_error hstep]
      exact ⟨f, rfl⟩
    | ok sink =>
      obtain ⟨text, -, hreceive⟩ := bind_eq_ok_iff.1 hstep
      obtain ⟨bytes, -, hsink⟩ := bind_eq_ok_iff.1 hreceive
      obtain rfl := pure_eq_ok_iff.1 hsink
      rw [runModels_cons_of_ok hstep]
      exact ih (f.write bytes)

theorem Redirects.runCommand (h : Redirects plain redirected file)
    (ho : Options.ofArguments plain = .ok o) :
    runCommand redirected files = runOptions { o with output := some file } files := by
  rw [RegisterLayout.runCommand, h.reading, ho]
  rfl

/-- A run with an output file of which a model is no file is as it would be without. -/
theorem runOptions_withOutput_of_not_isFile (output : Option String)
    (h : ∃ path ∈ o.models, files.isFile path = false) :
    runOptions { o with output } files = runOptions o files := by
  rw [runOptions, runOptions]
  cases hfind : o.models.find? (!files.isFile ·) with
  | some path => rfl
  | none =>
    obtain ⟨path, hpath, hfile⟩ := h
    exact absurd hfile (by simpa using List.find?_eq_none.1 hfind path hpath)

/-- A run with an output file that can be written, all models being files. -/
theorem runOptions_file (hfiles : ∀ path ∈ o.models, files.isFile path = true)
    (hlocation : files.locationToWrite file = .ok location) :
    runOptions { o with output := some file } files =
      (runModels o files (.file location {}) o.models).outcome o.verbosity files := by
  have hsink : sinkFor { o with output := some file } files = .ok (.file location {}) := by
    show (files.locationToWrite file >>= fun place => pure (Sink.file place {})) = _
    rw [hlocation]
    rfl
  rw [← runModels_withOutput o (some file)]
  exact runOptions_of_isFile (o := { o with output := some file }) hfiles hsink

/-- **An output file takes the place of the standard output.**  The run ends and reports as
without, and no file but the output file changes.  If no model is read from the output file and
what would have been printed can be written to a file, then it is what the output file holds in the
end.  Nothing is written if a model is no file. -/
theorem runCommand_redirected (h : Redirects plain redirected file)
    (hlocation : files.locationToWrite file = .ok location) :
    (∀ r, Options.ofArguments plain = .error r →
      runCommand redirected files = runCommand plain files) ∧
    ∀ o, Options.ofArguments plain = .ok o →
      ((∃ path ∈ o.models, files.isFile path = false) →
        runCommand redirected files = runCommand plain files) ∧
      ((∀ path ∈ o.models, files.isFile path = true) →
        (runCommand redirected files).stdout = [] ∧
        (∀ other, other ≠ location →
          (runCommand redirected files).files.lookup other = files.lookup other) ∧
        ∀ bytes, encoded (runCommand plain files).stdout = .ok bytes →
          (∀ path ∈ o.models, files.locate path ≠ .ok location) →
          runCommand redirected files =
              { runCommand plain files with stdout := [], files := files.put location bytes } ∧
            (runCommand redirected files).files.read? file = some bytes ∧
            ∀ path ∈ o.models,
              (runCommand redirected files).files.read? path = files.read? path) := by
  refine ⟨fun r hr => ?_, fun o ho => ⟨fun hmissing => ?_, fun hfiles => ⟨?_, ?_, ?_⟩⟩⟩
  · rw [runCommand, runCommand, h.reading, hr]
    rfl
  · rw [h.runCommand ho, runOptions_withOutput_of_not_isFile _ hmissing, runCommand, ho]
  · obtain ⟨f, hf⟩ := exists_written o files location {} o.models
    rw [h.runCommand ho, runOptions_file hfiles hlocation, Printed.outcome, hf]
    rfl
  · intro other hother
    obtain ⟨f, hf⟩ := exists_written o files location {} o.models
    rw [h.runCommand ho, runOptions_file hfiles hlocation, Printed.outcome, hf]
    exact FileTree.lookup_put_of_ne files _ hother
  · intro bytes hbytes hplaces
    have hstandard : runCommand plain files =
        (runModels o files (.standard []) o.models).outcome o.verbosity files := by
      rw [runCommand, ho]
      exact runOptions_of_isFile hfiles (sinkFor_standard (h.standard o ho))
    have hapart : ∀ path ∈ o.models, ∃ place, files.locate path = .ok place ∧ place ≠ location := by
      intro path hpath
      obtain ⟨place, hplace⟩ := FileTree.exists_locate_of_isFile (hfiles path hpath)
      refine ⟨place, hplace, ?_⟩
      rintro rfl
      exact hplaces path hpath hplace
    rw [hstandard] at hbytes ⊢
    obtain ⟨f, rfl, hrun⟩ := runModels_file (f := {}) hapart (by rfl) hbytes
    have hredirected : runCommand redirected files = _ :=
      (h.runCommand ho).trans (runOptions_file hfiles hlocation)
    rw [hrun] at hredirected
    rw [hredirected]
    refine ⟨rfl, ?_, ?_⟩
    · exact FileTree.read?_put_self (FileTree.locate_of_locationToWrite hlocation)
    · intro path hpath
      obtain ⟨place, hplace, hne⟩ := hapart path hpath
      exact FileTree.read?_put_of_ne hplace hne

theorem runCommand_redirected_twoModels :
    Redirects ["--table", "a.yaml"] ["--output=c.txt", "--table", "a.yaml"] "c.txt" ∧
      twoModels.locationToWrite "c.txt" = .ok ["c.txt"] ∧
      ∃ o, Options.ofArguments ["--table", "a.yaml"] = .ok o ∧
        (∀ path ∈ o.models, twoModels.isFile path = true) ∧
        (runCommand ["--output=c.txt", "--table", "a.yaml"] twoModels).stdout = [] ∧
        ∀ bytes, encoded (runCommand ["--table", "a.yaml"] twoModels).stdout = .ok bytes →
          (runCommand ["--output=c.txt", "--table", "a.yaml"] twoModels).files.read? "c.txt" =
            some bytes := by
  have hredirects :
      Redirects ["--table", "a.yaml"] ["--output=c.txt", "--table", "a.yaml"] "c.txt" :=
    @redirects_output ["--table", "a.yaml"] (by decide) "c.txt" (by decide)
  have hlocation : twoModels.locationToWrite "c.txt" = .ok ["c.txt"] := rfl
  have hfiles : ∀ path ∈ ["a.yaml"], twoModels.isFile path = true := by decide +kernel
  have hplaces : ∀ path ∈ ["a.yaml"], twoModels.locate path ≠ .ok ["c.txt"] := by
    intro path hpath
    obtain rfl := List.mem_singleton.1 hpath
    intro (h : Except.ok ["a.yaml"] = .ok ["c.txt"])
    exact absurd (Except.ok.inj h) (by decide)
  obtain ⟨-, hrun⟩ := runCommand_redirected hredirects hlocation
  obtain ⟨-, hwritten⟩ := hrun _ (by rfl)
  obtain ⟨hstdout, -, hbytes⟩ := hwritten hfiles
  exact ⟨hredirects, hlocation, _, rfl, hfiles, hstdout,
    fun bytes h => (hbytes bytes h hplaces).2.1⟩

/-! ## A model in the output file -/

theorem fullOutput_of_empty {path : String} (hfeed : '\n' ∉ path.toList)
    (hread : files.read? path = some .empty) :
    ∃ e, fullOutput o files path = .error e ∧ e.isReported = true := by
  have hsource : sourceText files path = .ok [] := @sourceText_of_read _ _ "" hfeed hread
  have hrefused : (failure? (Field.ofText [])).any Failure.isReported = true := by decide +kernel
  obtain ⟨e, hfailure, hreported⟩ := (Option.any_eq_true _ _).1 hrefused
  refine ⟨e, ?_, hreported⟩
  rw [fullOutput, hsource, ok_bind, placedTree, failure?_eq_some_iff.1 hfailure]
  rfl

/-- **A first model in the output file is lost**: the file is empty when the model is read, which
is no model, and it stays empty. -/
theorem runCommand_emptied {path : String} {later : List String}
    (h : Redirects plain redirected file) (ho : Options.ofArguments plain = .ok o)
    (hmodels : o.models = path :: later) (hfeed : '\n' ∉ path.toList)
    (hfiles : ∀ path ∈ o.models, files.isFile path = true)
    (hlocation : files.locationToWrite file = .ok location)
    (hsame : files.locate path = .ok location) :
    (runCommand redirected files).ending = .exit 1 ∧
      (runCommand redirected files).files.read? path = some .empty := by
  have hread : (files.put location .empty).read? path = some .empty := FileTree.read?_put_self hsame
  obtain ⟨e, hfail, hreported⟩ := @fullOutput_of_empty o _ _ hfeed hread
  have hstep : fullOutput o ((Sink.file location {}).filesBefore files) path >>=
      (Sink.file location {}).receive = .error e := by
    rw [show (Sink.file location {}).filesBefore files = files.put location .empty from rfl, hfail]
    rfl
  rw [h.runCommand ho, runOptions_file hfiles hlocation, hmodels, runModels_cons_of_error hstep]
  exact ⟨if_pos hreported, hread⟩

/-- A model that is printed is lost if its own file is the output file. -/
theorem runCommand_emptied_twoModels :
    Redirects ["a.yaml"] ["--output=a.yaml", "a.yaml"] "a.yaml" ∧
      (∃ location, twoModels.locationToWrite "a.yaml" = .ok location) ∧
      twoModels.isFile "a.yaml" = true ∧
      (runCommand ["a.yaml"] twoModels).ending = .exit 0 ∧
      (runCommand ["--output=a.yaml", "a.yaml"] twoModels).ending = .exit 1 ∧
      (runCommand ["--output=a.yaml", "a.yaml"] twoModels).files.read? "a.yaml" = some .empty ∧
      twoModels.read? "a.yaml" ≠ some .empty := by
  have hredirects : Redirects ["a.yaml"] ["--output=a.yaml", "a.yaml"] "a.yaml" :=
    @redirects_output ["a.yaml"] (by decide) "a.yaml" (by decide)
  have hlocation : twoModels.locationToWrite "a.yaml" = .ok ["a.yaml"] := rfl
  have harguments : Options.ofArguments ["a.yaml"] = .ok { models := ["a.yaml"] } := rfl
  have hfiles : ∀ path ∈ ["a.yaml"], twoModels.isFile path = true := by decide +kernel
  have hread : twoModels.read? "a.yaml" = some _ := rfl
  obtain ⟨hending, hempty⟩ :=
    runCommand_emptied hredirects harguments rfl (by decide) hfiles hlocation rfl
  have hsource := sourceText_of_read (by decide) hread
  have hviews : (fullOutput { models := ["a.yaml"] } twoModels "a.yaml").isOk = true := by
    rw [fullOutput, hsource]
    decide +kernel
  obtain ⟨text, htext⟩ := exists_of_isOk hviews
  refine ⟨hredirects, ⟨_, hlocation⟩, hfiles _ List.mem_cons_self, ?_, hending, hempty, ?_⟩
  · have hprint : Print { models := ["a.yaml"] } twoModels ["a.yaml"] [text] := .cons htext .nil
    have hleft := @runOptions_of_print { models := ["a.yaml"] } _ _ rfl hfiles hprint
    rw [runCommand, harguments]
    exact congrArg Outcome.ending hleft
  · decide +kernel

end

end RegisterLayout
