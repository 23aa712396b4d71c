import BitClassifier.Proofs.Cli.Run
import Mathlib.Data.List.Find

/-!
# The classifiers of a run

The files of a run are those of its classifiers, one argument after another, and then the shared
ones (`Options.files`). The last of them that has the path of a classifier is that of the last
argument with its name, unless the counting functions have this name too (`Options.lastWith_files`).
A run that succeeds leaves it there, as long as no other path leads to the same file
(`Options.run_leaves_classifiers`).
-/

namespace BitClassifier

open Directory (Destination IsPlain)

/-! ### Paths -/

/-- A name that is not absolute follows its folder. -/
theorem joinPath_inj {folder name name' : String} (h : name.toList.head? ≠ some '/')
    (h' : name'.toList.head? ≠ some '/') :
    joinPath folder name = joinPath folder name' ↔ name = name' := by
  refine ⟨fun heq => ?_, fun heq => by rw [heq]⟩
  rw [joinPath, joinPath] at heq
  simp only [h, h', ← String.toList_inj] at heq ⊢
  split at heq
  · exact heq
  · split at heq <;> simpa using heq

namespace Options

/-- The predicate of the classifier for a list of categories. -/
def predicate (o : Options) (table : Table) (spec : String) : Predicate :=
  match compile (table.filter spec) o.settings.width with
  | .ok compiled => compiled.predicate
  | .error _ => .constant false

/-- The files of a run in the order in which they are written. -/
def files (o : Options) (table : Table) : List SourceFile :=
  let g : Generator := ⟨o.settings, o.categories.map classifierName⟩
  (o.categories.flatMap fun spec =>
    g.sources (classifierName spec) (o.predicate table spec) (table.filter spec)) ++ g.sharedSources

/-- The path of the classifier for a list of categories. -/
def classifierPath (o : Options) (spec : String) : String :=
  joinPath o.settings.outputDir (classifierName spec ++ "." ++ o.settings.language.sourceExtension)

variable {o : Options} {table : Table}

/-- The steps for the categories of a run write its files, once every classifier has been compiled. -/
theorem classifierSteps_spec {g : Generator} {specs : List String} (hg : g.settings = o.settings)
    (h : ∀ message cause, .fail message cause ∉ o.classifierSteps table g specs) :
    (∀ spec ∈ specs, ∃ out, compile (table.filter spec) o.settings.width = .ok out ∧
      o.predicate table spec = out.predicate) ∧
    Step.files (o.classifierSteps table g specs) =
      (specs.flatMap fun spec => g.sources (classifierName spec) (o.predicate table spec)
        (table.filter spec)) ++
      { g with classifiers := g.classifiers ++ specs.map classifierName }.sharedSources := by
  induction specs generalizing g with
  | nil =>
    rw [classifierSteps, Step.files_writes]
    simp
  | cons spec specs ih =>
    rw [classifierSteps] at h ⊢
    dsimp only at h ⊢
    cases hcompile : compileReporting (table.filter spec) o.settings.width with
    | error fault =>
      simp only [hcompile] at h
      exact absurd (by simp) (h fault.message none)
    | ok out =>
      obtain ⟨compiled, events⟩ := out
      simp only [hcompile] at h
      have hok : compile (table.filter spec) o.settings.width = .ok compiled := by
        rw [compile, hcompile]
        rfl
      have hpredicate : o.predicate table spec = compiled.predicate := by
        rw [predicate, hok]
      obtain ⟨hspecs, hfiles⟩ := @ih (g.register (classifierName spec)) hg
        (fun message cause hmem => h message cause (List.mem_append_right _ hmem))
      refine ⟨List.forall_mem_cons.mpr ⟨⟨compiled, hok, hpredicate⟩, hspecs⟩, ?_⟩
      have hsources (spec' : String) (p : Predicate) (values : List CodeValue) :
          (g.register (classifierName spec)).sources spec' p values = g.sources spec' p values :=
        rfl
      have hreport (event : Event) : Step.files [.report event] = [] := rfl
      simp only [Step.files_append, Step.files_reports, Step.files_writes, hreport, hfiles,
        hpredicate, hsources, List.flatMap_cons, List.append_assoc, List.nil_append]
      simp [Generator.register]

/-- A run that succeeds has read a table and writes the files of the run. -/
theorem steps_spec {text : Except FileError String}
    (h : ∀ message cause, .fail message cause ∉ o.steps text) :
    ∃ table, (Reading.ofFile o.unicodeData text).table = .ok table ∧
      (∀ spec ∈ o.categories, ∃ out, compile (table.filter spec) o.settings.width = .ok out ∧
        o.predicate table spec = out.predicate) ∧
      Step.files (o.steps text) = o.files table := by
  rw [steps] at h ⊢
  cases htable : (Reading.ofFile o.unicodeData text).table with
  | error e =>
    simp only [htable] at h
    exact absurd (by simp) (h e.message e.cause?)
  | ok table =>
    simp only [htable] at h
    obtain ⟨hspecs, hfiles⟩ := @classifierSteps_spec o table ⟨o.settings, []⟩ o.categories rfl
      fun message cause hmem =>
        h message cause (List.mem_append_right _ (List.mem_cons_of_mem _ hmem))
    refine ⟨table, rfl, hspecs, ?_⟩
    rw [Step.files_append, Step.files_reports, List.nil_append]
    exact hfiles

end Options

/-! ### The last file with a path -/

/-- The last one of some files with a path. -/
def SourceFile.lastWith (path : String) (files : List SourceFile) : Option SourceFile :=
  files.reverse.find? (·.path = path)

namespace SourceFile

theorem lastWith_append (path : String) (xs ys : List SourceFile) :
    lastWith path (xs ++ ys) = (lastWith path ys).or (lastWith path xs) := by
  rw [lastWith, List.reverse_append, List.find?_append]
  rfl

theorem lastWith_singleton (path : String) (f : SourceFile) :
    lastWith path [f] = if f.path = path then some f else none := by
  by_cases h : f.path = path <;> simp [lastWith, h]

end SourceFile

namespace Options

open SourceFile (lastWith lastWith_append lastWith_singleton)

variable {o : Options} {table : Table} {g : Generator}

theorem head?_classifierName (spec : String) : (classifierName spec).toList.head? = some 'u' := by
  rw [classifierName, String.toList_append]
  rfl

theorem head?_append {name : String} {c : Char} (h : name.toList.head? = some c) (rest : String) :
    (name ++ rest).toList.head? = some c := by
  rw [String.toList_append, List.head?_append, h]
  rfl

theorem text_file (artifact : Artifact) (name extension text : String) :
    (g.file artifact name extension text).text = text := rfl

/-- A file of the output directory has the path of a classifier only if it has its name. -/
theorem path_file (hg : g.settings = o.settings) (artifact : Artifact) {name : String}
    (extension text spec : String) {c : Char} (hname : name.toList.head? = some c)
    (hslash : c ≠ '/') :
    (g.file artifact name extension text).path = o.classifierPath spec ↔
      name ++ "." ++ extension =
        classifierName spec ++ "." ++ o.settings.language.sourceExtension := by
  rw [Generator.file, classifierPath, hg]
  apply joinPath_inj
  · rw [String.append_assoc, head?_append hname]
    simpa using hslash
  · rw [String.append_assoc, head?_append (head?_classifierName spec)]
    decide

/-- Source files of the output directory have one path if they have one name. -/
theorem path_source (hg : g.settings = o.settings) (artifact : Artifact) {name : String}
    (text spec : String) {c : Char} (hname : name.toList.head? = some c) (hslash : c ≠ '/') :
    (g.file artifact name o.settings.language.sourceExtension text).path = o.classifierPath spec ↔
      name = classifierName spec := by
  rw [path_file hg artifact _ text spec hname hslash, String.append_assoc, String.append_assoc]
  exact ⟨fun h => by simpa [← String.toList_inj] using h, fun h => by rw [h]⟩

/-- A file whose name begins otherwise than the names of classifiers is no classifier. -/
theorem path_ne_of_head (hg : g.settings = o.settings) (artifact : Artifact) {name : String}
    (extension text spec : String) {c : Char} (hname : name.toList.head? = some c)
    (hslash : c ≠ '/') (hc : c ≠ 'u') :
    (g.file artifact name extension text).path ≠ o.classifierPath spec := by
  rw [Ne, path_file hg artifact extension text spec hname hslash, String.append_assoc,
    String.append_assoc]
  intro h
  have hhead := head?_append hname ("." ++ extension)
  rw [h, head?_append (head?_classifierName spec)] at hhead
  exact hc (Option.some.inj hhead).symm

/-- The combined header is no classifier, since an underscore begins what tells classifiers apart. -/
theorem path_header_ne (hg : g.settings = o.settings) (text spec : String) :
    (g.file .header "uniclass" o.settings.language.headerExtension text).path ≠
      o.classifierPath spec := by
  rw [Ne, path_file (c := 'u') hg _ _ _ _ (by decide) (by decide)]
  intro h
  have hbegin := congrArg (·.toList.take 9) h
  rw [classifierName, String.append_assoc, String.append_assoc, String.append_assoc] at hbegin
  cases o.settings.language <;> simp [Language.headerExtension] at hbegin

/-- The counting functions have the path of the classifier that has their name. -/
theorem lastWith_shared (hg : g.settings = o.settings) (spec : String) :
    (lastWith (o.classifierPath spec) g.sharedSources).map (·.text) =
      if o.settings.profiler = true ∧ classifierName spec = "uniclass_profiler" then
        some o.settings.language.profilerSource
      else none := by
  -- all other names differ from those of classifiers in their first letter or behind the prefix
  have hheader (text : String) := path_header_ne hg text spec
  have htest (text : String) : (g.file .testHeader "test_uniclass"
      o.settings.language.headerExtension text).path ≠ o.classifierPath spec :=
    path_ne_of_head (c := 't') hg _ _ _ _ (by decide) (by decide) (by decide)
  have hmain (text : String) : (g.file .main "main" o.settings.language.sourceExtension
      text).path ≠ o.classifierPath spec :=
    path_ne_of_head (c := 'm') hg _ _ _ _ (by decide) (by decide) (by decide)
  have hprofiler (text : String) : (g.file .profiler "uniclass_profiler"
      o.settings.language.sourceExtension text).path = o.classifierPath spec ↔
      classifierName spec = "uniclass_profiler" :=
    (path_source (c := 'u') hg _ text spec (by decide) (by decide)).trans eq_comm
  rw [Generator.sharedSources, hg]
  simp only [lastWith_append, lastWith_singleton, if_neg (hheader _), if_neg (hmain _)]
  have hnil : lastWith (o.classifierPath spec) [] = none := rfl
  cases o.settings.tests <;> cases o.settings.profiler <;>
    by_cases hname : classifierName spec = "uniclass_profiler" <;>
    simp [lastWith_singleton, htest, hprofiler, hname, hnil, text_file]

theorem lastWith_sources (hg : g.settings = o.settings) (spec spec' : String) (p : Predicate)
    (values : List CodeValue) :
    (lastWith (o.classifierPath spec) (g.sources (classifierName spec') p values)).map (·.text) =
      if classifierName spec' = classifierName spec then
        some (g.renderClassifier (classifierName spec') p)
      else none := by
  have htest (text : String) : (g.file .classifierTest ("test_" ++ classifierName spec')
      o.settings.language.sourceExtension text).path ≠ o.classifierPath spec :=
    path_ne_of_head (c := 't') hg _ _ _ _ (head?_append (by decide) _) (by decide) (by decide)
  have hclassifier (text : String) : (g.file .classifier (classifierName spec')
      o.settings.language.sourceExtension text).path = o.classifierPath spec ↔
      classifierName spec' = classifierName spec :=
    path_source hg _ text spec (head?_classifierName spec') (by decide)
  rw [Generator.sources, hg, ← List.singleton_append, lastWith_append, lastWith_singleton]
  have htests : lastWith (o.classifierPath spec) (if o.settings.tests = true then
      [g.file .classifierTest ("test_" ++ classifierName spec') o.settings.language.sourceExtension
        (g.renderTest (classifierName spec') values)] else []) = none := by
    split
    · rw [lastWith_singleton, if_neg (htest _)]
    · rfl
  rw [htests, Option.none_or]
  simp only [hclassifier]
  split <;> rfl

/-- The last argument with a name, if there is one. -/
def lastNamed (name : String) (specs : List String) : Option String :=
  specs.reverse.find? (classifierName · = name)

theorem lastWith_classifiers (hg : g.settings = o.settings) (spec : String) (specs : List String) :
    (lastWith (o.classifierPath spec) (specs.flatMap fun spec =>
      g.sources (classifierName spec) (o.predicate table spec) (table.filter spec))).map (·.text) =
      (lastNamed (classifierName spec) specs).map fun last =>
        g.renderClassifier (classifierName last) (o.predicate table last) := by
  induction specs with
  | nil => rfl
  | cons spec' specs ih =>
    rw [List.flatMap_cons, lastWith_append, lastNamed, List.reverse_cons, List.find?_append,
      ← lastNamed, Option.map_or, Option.map_or, ih, lastWith_sources hg]
    by_cases hname : classifierName spec' = classifierName spec <;> simp [hname]

/-- What the files of a run leave at the path of a classifier. -/
theorem lastWith_files (o : Options) (table : Table) (spec : String) :
    (lastWith (o.classifierPath spec) (o.files table)).map (·.text) =
      if o.settings.profiler = true ∧ classifierName spec = "uniclass_profiler" then
        some o.settings.language.profilerSource
      else (lastNamed (classifierName spec) o.categories).map fun last =>
        Generator.renderClassifier ⟨o.settings, []⟩ (classifierName last)
          (o.predicate table last) := by
  rw [files, lastWith_append, Option.map_or, lastWith_shared rfl, lastWith_classifiers rfl]
  split <;> rfl

theorem lastNamed_eq_some {name last : String} {specs : List String}
    (h : lastNamed name specs = some last) : last ∈ specs ∧ classifierName last = name :=
  ⟨List.mem_reverse.mp (List.mem_of_find?_eq_some h), by simpa using List.find?_some h⟩

theorem exists_lastNamed {spec : String} {specs : List String} (h : spec ∈ specs) :
    ∃ last, lastNamed (classifierName spec) specs = some last := by
  rw [← Option.isSome_iff_exists, lastNamed, List.find?_isSome]
  exact ⟨spec, List.mem_reverse.mpr h, by simp⟩

theorem exists_mem_sources (hg : g.settings = o.settings) (spec : String) (p : Predicate)
    (values : List CodeValue) :
    ∃ f ∈ g.sources (classifierName spec) p values, f.path = o.classifierPath spec := by
  rw [Generator.sources]
  refine ⟨_, List.mem_cons_self .., ?_⟩
  rw [Generator.file, classifierPath, hg]

/-- The classifier of an argument is among the files of a run. -/
theorem exists_mem_files {spec : String} (h : spec ∈ o.categories) :
    ∃ f ∈ o.files table, f.path = o.classifierPath spec := by
  obtain ⟨f, hf, hpath⟩ := @exists_mem_sources o ⟨o.settings, o.categories.map classifierName⟩ rfl
    spec (o.predicate table spec) (table.filter spec)
  refine ⟨f, ?_, hpath⟩
  rw [files, List.mem_append, List.mem_flatMap]
  exact .inl ⟨spec, h, hf⟩

/-- If only the path of the classifier leads to its file, the last file with that path is there. -/
theorem lastAt_eq {d : Directory} {dest : Destination} {spec : String}
    (hdest : d.locate (o.classifierPath spec) = .ok dest)
    (halone : ∀ f ∈ o.files table, d.locate f.path = d.locate (o.classifierPath spec) →
      f.path = o.classifierPath spec) :
    d.lastAt dest (o.files table) = lastWith (o.classifierPath spec) (o.files table) := by
  apply List.find?_congr
  intro f hf
  rw [Bool.eq_iff_iff, Directory.names_iff, decide_eq_true_iff, ← hdest]
  exact ⟨halone f (List.mem_reverse.mp hf), fun h => by rw [h]⟩

end Options

/-! ### What a run leaves -/

namespace Options

variable {o : Options} {table : Table} {d : Directory}

/-- A run that succeeds has found a place for every classifier. -/
theorem run_locates (h : (o.run d).succeeded = true)
    (htable : (Reading.ofFile o.unicodeData (d.read o.unicodeData)).table = .ok table)
    {spec : String} (hspec : spec ∈ o.categories) :
    ∃ dest, d.locate (o.classifierPath spec) = .ok dest := by
  obtain ⟨table', htable', -, hfiles⟩ := steps_spec (Step.not_fail_of_succeeded h)
  obtain rfl : table = table' := Except.ok.inj (htable.symm.trans htable')
  obtain ⟨f, hf, hpath⟩ := @exists_mem_files o table spec hspec
  rw [← hfiles] at hf
  rw [← hpath]
  exact (Step.runAll_spec h).1 f hf

/-- What a run has written at the path of a classifier when it has succeeded. Of the arguments with
one name, the last one counts, and the counting functions take the place of a classifier that has
their name. Nothing is said of a path that leads to a file of the run with another path. -/
theorem run_leaves_classifiers (h : (o.run d).succeeded = true) :
    ∃ table, (Reading.ofFile o.unicodeData (d.read o.unicodeData)).table = .ok table ∧
      ∀ spec ∈ o.categories,
        (∀ f ∈ o.files table, d.locate f.path = d.locate (o.classifierPath spec) →
          f.path = o.classifierPath spec) →
        ∃ last out, lastNamed (classifierName spec) o.categories = some last ∧
          compile (table.filter last) o.settings.width = .ok out ∧
          (o.run d).directory.read (o.classifierPath spec) =
            .ok (if o.settings.profiler = true ∧ classifierName spec = "uniclass_profiler" then
              o.settings.language.profilerSource
            else Generator.renderClassifier ⟨o.settings, []⟩ (classifierName spec)
              out.predicate) := by
  obtain ⟨table, htable, hspecs, hfiles⟩ := steps_spec (Step.not_fail_of_succeeded h)
  refine ⟨table, htable, fun spec hspec halone => ?_⟩
  obtain ⟨last, hlast⟩ := exists_lastNamed hspec
  obtain ⟨hmem, hname⟩ := lastNamed_eq_some hlast
  obtain ⟨out, hcompile, hpredicate⟩ := hspecs last hmem
  refine ⟨last, out, hlast, hcompile, ?_⟩
  obtain ⟨f, hf, hpath⟩ := @exists_mem_files o table spec hspec
  rw [← hfiles] at hf
  obtain ⟨dest, g, hdest, hg, hread⟩ := Step.exists_read_runAll h hf
  rw [hpath] at hdest hread
  rw [hfiles, lastAt_eq hdest halone] at hg
  have htext := o.lastWith_files table spec
  rw [hg, hlast, Option.map_some, Option.map_some, hname, hpredicate] at htext
  rw [run, hread]
  split at htext
  · rename_i hclash
    rw [if_pos hclash, Option.some.inj htext]
  · rename_i hclash
    rw [if_neg hclash, Option.some.inj htext]

end Options

end BitClassifier
