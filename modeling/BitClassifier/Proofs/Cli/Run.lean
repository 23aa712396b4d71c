import BitClassifier.Cli.Steps
import BitClassifier.Proofs.Directory

/-!
# The files of a run

A run that succeeds has written all of its files, and every destination holds the last file that was
written to it (`runAll_spec`). Which file that is can be told from the directory as it was before the
run, since writing files does not change what a path names.
-/

namespace BitClassifier

open Directory (Destination write_spec locate_congr)

namespace Directory

variable {d d' : Directory}

/-- Whether a path names a destination. -/
def names (d : Directory) (dest : Destination) (path : String) : Bool :=
  decide ((d.locate path).toOption = some dest)

theorem names_iff {dest : Destination} {path : String} :
    d.names dest path = true ↔ d.locate path = .ok dest := by
  rw [names, decide_eq_true_iff]
  cases d.locate path <;> simp [Except.toOption]

theorem names_congr (h : d'.folders = d.folders) (dest : Destination) (path : String) :
    d'.names dest path = d.names dest path := by
  rw [Bool.eq_iff_iff, names_iff, names_iff]
  exact ⟨locate_congr h.symm, locate_congr h⟩

/-- The last one of some files that belongs to a destination. -/
def lastAt (d : Directory) (dest : Destination) (files : List SourceFile) : Option SourceFile :=
  files.reverse.find? fun f => d.names dest f.path

theorem lastAt_append (dest : Destination) (xs ys : List SourceFile) :
    d.lastAt dest (xs ++ ys) = (d.lastAt dest ys).or (d.lastAt dest xs) := by
  rw [lastAt, List.reverse_append, List.find?_append]
  rfl

theorem lastAt_cons (dest : Destination) (f : SourceFile) (files : List SourceFile) :
    d.lastAt dest (f :: files) =
      (d.lastAt dest files).or (if d.names dest f.path then some f else none) := by
  rw [← List.singleton_append, lastAt_append]
  cases h : d.names dest f.path <;> simp [lastAt, h]

theorem lastAt_congr (h : d'.folders = d.folders) (dest : Destination) (files : List SourceFile) :
    d'.lastAt dest files = d.lastAt dest files := by
  simp only [lastAt, names_congr h]

end Directory

namespace Step

/-- The file that a step writes. -/
def file? : Step → Option SourceFile
  | write f => some f
  | _ => none

/-- The files that steps write. -/
def files (steps : List Step) : List SourceFile :=
  steps.filterMap file?

theorem files_append (xs ys : List Step) : files (xs ++ ys) = files xs ++ files ys :=
  List.filterMap_append ..

theorem files_reports (events : List Event) : files (events.map report) = [] := by
  simp [files, List.filterMap_map, file?]

theorem files_writes (fs : List SourceFile) : files (fs.map write) = fs := by
  rw [files, List.filterMap_map]
  exact List.filterMap_some

/-- A run makes no folders. -/
theorem runAll_folders (steps : List Step) (d : Directory) :
    (runAll d steps).directory.folders = d.folders := by
  induction steps generalizing d with
  | nil => rfl
  | cons step steps ih =>
    cases step with
    | report event => exact ih d
    | fail message cause => rfl
    | write f =>
      rw [runAll]
      cases hwrite : d.write f.path f.text with
      | error reason => rfl
      | ok d' => exact (ih d').trans (write_spec hwrite).1

/-- Every destination holds what was written to it last. -/
theorem runAll_spec {steps : List Step} {d : Directory} (h : (runAll d steps).succeeded = true) :
    (∀ f ∈ files steps, ∃ dest, d.locate f.path = .ok dest) ∧
      ∀ dest, (runAll d steps).directory.contents dest =
        (d.lastAt dest (files steps)).elim (d.contents dest) fun f => .ok f.text.toUTF8 := by
  induction steps generalizing d with
  | nil => simp [files, runAll, Directory.lastAt]
  | cons step steps ih =>
    cases step with
    | report event => exact ih h
    | fail message cause => cases h
    | write f =>
      rw [runAll] at h ⊢
      cases hwrite : d.write f.path f.text with
      | error reason => simp [hwrite] at h
      | ok d' =>
        rw [hwrite] at h
        obtain ⟨hfolders, dest, hdest, hcontents⟩ := write_spec hwrite
        obtain ⟨hfiles, hlast⟩ := ih h
        have hsteps : files (.write f :: steps) = f :: files steps := rfl
        rw [hsteps]
        refine ⟨List.forall_mem_cons.mpr ⟨⟨dest, hdest⟩, fun g hg => ?_⟩, fun other => ?_⟩
        · obtain ⟨place, hplace⟩ := hfiles g hg
          exact ⟨place, locate_congr hfolders.symm hplace⟩
        · have hnames : d.names other f.path = decide (other = dest) := by
            rw [Bool.eq_iff_iff, Directory.names_iff, hdest, decide_eq_true_iff]
            exact ⟨fun h => by cases h; rfl, fun h => by rw [h]⟩
          -- the file stays unless a later one goes to the same place
          have hrest := hlast other
          rw [Directory.lastAt_congr hfolders, hcontents] at hrest
          rw [Directory.lastAt_cons, hnames]
          dsimp only
          rw [hrest]
          cases d.lastAt other (files steps) with
          | some g => rfl
          | none => by_cases hother : other = dest <;> simp [hother]

/-- A file of a run that succeeds is read as the last one that was written to its place. -/
theorem exists_read_runAll {steps : List Step} {d : Directory} {f : SourceFile}
    (h : (runAll d steps).succeeded = true) (hf : f ∈ files steps) :
    ∃ dest last, d.locate f.path = .ok dest ∧ d.lastAt dest (files steps) = some last ∧
      (runAll d steps).directory.read f.path = .ok last.text := by
  obtain ⟨hfiles, hcontents⟩ := runAll_spec h
  obtain ⟨dest, hdest⟩ := hfiles f hf
  cases hlast : d.lastAt dest (files steps) with
  | none =>
    rw [Directory.lastAt, List.find?_eq_none] at hlast
    exact absurd (Directory.names_iff.mpr hdest) (hlast f (List.mem_reverse.mpr hf))
  | some last =>
    refine ⟨dest, last, hdest, hlast, ?_⟩
    have hthere := locate_congr (runAll_folders steps d) hdest
    have htext := hcontents dest
    rw [hlast, Option.elim_some] at htext
    refine Directory.bind_eq_ok.mpr ⟨dest, hthere, Directory.bind_eq_ok.mpr ⟨_, htext, ?_⟩⟩
    rw [Directory.fromUTF8?_toUTF8]
    rfl

/-- No step of a run that succeeds says that it has failed. -/
theorem not_fail_of_succeeded {steps : List Step} {d : Directory}
    (h : (runAll d steps).succeeded = true) (message : String) (cause : Option String) :
    fail message cause ∉ steps := by
  induction steps generalizing d with
  | nil => simp
  | cons step steps ih =>
    cases step with
    | report event => simpa using ih h
    | fail message cause => cases h
    | write f =>
      rw [runAll] at h
      cases hwrite : d.write f.path f.text with
      | error reason => simp [hwrite] at h
      | ok d' =>
        rw [hwrite] at h
        simpa using ih h

/-- Steps succeed if none says that they have failed and there is a place for every file. -/
theorem succeeded_of_writable {steps : List Step} {d : Directory}
    (hfail : ∀ message cause, fail message cause ∉ steps)
    (hwrite : ∀ f ∈ files steps, ∃ d', d.write f.path "" = .ok d') :
    (runAll d steps).succeeded = true := by
  induction steps generalizing d with
  | nil => rfl
  | cons step steps ih =>
    have hrest (message : String) (cause : Option String) : fail message cause ∉ steps :=
      fun hmem => hfail message cause (List.mem_cons_of_mem _ hmem)
    cases step with
    | report event => exact ih hrest hwrite
    | fail message cause => exact absurd (List.mem_cons_self ..) (hfail message cause)
    | write f =>
      obtain ⟨⟨e, he⟩, hwrite⟩ := List.forall_mem_cons.mp hwrite
      obtain ⟨d', hd'⟩ := Directory.exists_write rfl he f.text
      rw [runAll, hd']
      refine ih hrest fun g hg => ?_
      obtain ⟨e', he'⟩ := hwrite g hg
      exact Directory.exists_write (write_spec hd').1 he' ""

end Step

/-! ### Runs of a generator -/

/-- Reports something before the rest of a run. -/
def Ran.report (events : List Event) (rest : Ran) : Ran :=
  { rest with events := events ++ rest.events }

/-- Goes on behind written files, unless one of them could not be written. -/
def Written.andThen (w : Written) (rest : Directory → Ran) : Ran :=
  match w.error? with
  | none => (rest w.directory).report w.events
  | some e =>
    ⟨w.directory, w.events ++ failureEvents e.message (some e.reason.message), false⟩

namespace Step

theorem runAll_reports (d : Directory) (events : List Event) (steps : List Step) :
    runAll d (events.map report ++ steps) = (runAll d steps).report events := by
  induction events with
  | nil => rfl
  | cons event events ih =>
    rw [List.map_cons, List.cons_append, runAll, ih]
    rfl

theorem runAll_writes (d : Directory) (files : List SourceFile) (steps : List Step) :
    runAll d (files.map write ++ steps) = (d.writeAll files).andThen fun d' => runAll d' steps := by
  induction files generalizing d with
  | nil => rfl
  | cons f files ih =>
    rw [List.map_cons, List.cons_append, runAll, Directory.writeAll]
    cases hwrite : d.write f.path f.text with
    | error reason => rfl
    | ok d' =>
      dsimp only
      rw [ih]
      unfold Written.andThen
      cases (d'.writeAll files).error? <;> rfl

end Step

namespace Options

variable {o : Options} {table : Table}

/-- For a list of categories, a run compiles and generates a classifier before it goes on. -/
theorem runAll_generate {spec : String} {compiled : Compiled} {events : List Event}
    (h : compileReporting (table.filter spec) o.settings.width = .ok (compiled, events))
    (g : Generator) (specs : List String) (d : Directory) :
    Step.runAll d (o.classifierSteps table g (spec :: specs)) =
      ((g.generate d (classifierName spec) compiled.predicate (table.filter spec)).2.andThen
        fun d' => Step.runAll d' (o.classifierSteps table
          (g.generate d (classifierName spec) compiled.predicate (table.filter spec)).1
          specs)).report
        (table.filterEvents spec ++ events ++ [.classifierCompiled spec (table.filter spec).length
          compiled.comparisons compiled.predicate.worstCase]) := by
  have hsteps : o.classifierSteps table g (spec :: specs) =
      (table.filterEvents spec ++ events ++ [Event.classifierCompiled spec
        (table.filter spec).length compiled.comparisons compiled.predicate.worstCase]).map .report ++
      (((g.register (classifierName spec)).sources (classifierName spec) compiled.predicate
        (table.filter spec)).map .write ++
      o.classifierSteps table (g.register (classifierName spec)) specs) := by
    rw [classifierSteps]
    simp [h]
  rw [hsteps, Step.runAll_reports, Step.runAll_writes]
  simp only [Generator.generate]

/-- At the end, a run writes the files that all classifiers share. -/
theorem runAll_finalize (g : Generator) (d : Directory) :
    Step.runAll d (o.classifierSteps table g []) =
      (g.finalize d).andThen fun d' => ⟨d', [], true⟩ := by
  have hwrites := Step.runAll_writes d g.sharedSources []
  rw [List.append_nil] at hwrites
  exact hwrites

end Options

end BitClassifier
