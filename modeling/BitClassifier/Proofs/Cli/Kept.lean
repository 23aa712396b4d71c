import BitClassifier.Proofs.Cli.Classifiers
import BitClassifier.Proofs.Compile
import BitClassifier.Proofs.Table.Names

/-!
# Runs keep their classifiers

A run with a table succeeds if there is a place for each of its files (`Options.run_succeeds`). It
then keeps the classifiers that it has written (`Options.run_keeps_classifiers`), but for one:
nothing stops a category from having the name of the counting functions, and these are written later.
Arguments can also be made to share a file by the way their names are put together. If they name only
categories of the table, they do not (`Options.run_keeps_defined`).
-/

namespace BitClassifier

open Directory (Destination IsPlain)

namespace Options

variable {o : Options} {table : Table}

/-! ### Runs that succeed -/

/-- Compiling does not fail, and no other step for the categories of a run can. -/
theorem not_fail_mem_classifierSteps (g : Generator) (specs : List String) (message : String)
    (cause : Option String) : .fail message cause ∉ o.classifierSteps table g specs := by
  induction specs generalizing g with
  | nil => simp [classifierSteps]
  | cons spec specs ih =>
    obtain ⟨t, s, events, -, -, hcompile⟩ :=
      compileReporting_eq (table.filter spec) o.settings.width
    simp [classifierSteps, hcompile, ih]

theorem not_fail_mem_steps {text : Except FileError String}
    (htable : (Reading.ofFile o.unicodeData text).table = .ok table) (message : String)
    (cause : Option String) : .fail message cause ∉ o.steps text := by
  simp [steps, htable, not_fail_mem_classifierSteps]

/-- A run with a table succeeds if there is a place for every file. -/
theorem run_succeeds {d : Directory}
    (htable : (Reading.ofFile o.unicodeData (d.read o.unicodeData)).table = .ok table)
    (hwrite : ∀ f ∈ o.files table, ∃ d', d.write f.path "" = .ok d') :
    (o.run d).succeeded = true := by
  have hfail := not_fail_mem_steps htable
  obtain ⟨table', htable', -, hfiles⟩ := steps_spec hfail
  obtain rfl : table = table' := Except.ok.inj (htable.symm.trans htable')
  exact Step.succeeded_of_writable hfail (hfiles ▸ hwrite)

/-! ### Paths of a run -/

theorem isPlain_file {name : String} {c : Char} (hname : name.toList.head? = some c) (hc : c ≠ '.')
    (hwhole : '/' ∉ name.toList) {extension : String} (hextension : '/' ∉ extension.toList) :
    IsPlain (name ++ "." ++ extension) where
  whole := by simp [hwhole, hextension]
  begins := by
    rw [String.append_assoc, head?_append hname]
    simpa using hc

theorem whole_sourceExtension (l : Language) : '/' ∉ l.sourceExtension.toList := by
  cases l <;> decide

theorem whole_classifierName {spec : String} (h : '/' ∉ spec.toList) :
    '/' ∉ (classifierName spec).toList := by
  rw [classifierName, String.toList_append, List.mem_append, not_or]
  refine ⟨by decide, ?_⟩
  rw [String.toList_ofList, List.mem_map]
  rintro ⟨c, hc, heq⟩
  obtain rfl : c = '/' := by
    split at heq
    · exact absurd heq (by decide)
    · exact heq
  exact h (List.mem_filter.mp hc).1

/-- The names of the shared files. -/
theorem isPlain_shared (l : Language) :
    IsPlain ("uniclass" ++ "." ++ l.headerExtension) ∧
      IsPlain ("test_uniclass" ++ "." ++ l.headerExtension) ∧
      IsPlain ("uniclass_profiler" ++ "." ++ l.sourceExtension) ∧
      IsPlain ("main" ++ "." ++ l.sourceExtension) := by
  cases l <;> exact ⟨⟨by decide, by decide⟩, ⟨by decide, by decide⟩, ⟨by decide, by decide⟩,
    ⟨by decide, by decide⟩⟩

theorem isPlain_classifier {spec : String} (h : '/' ∉ spec.toList) (l : Language) :
    IsPlain (classifierName spec ++ "." ++ l.sourceExtension) :=
  isPlain_file (head?_classifierName spec) (by decide) (whole_classifierName h)
    (whole_sourceExtension l)

theorem isPlain_test {spec : String} (h : '/' ∉ spec.toList) (l : Language) :
    IsPlain ("test_" ++ classifierName spec ++ "." ++ l.sourceExtension) := by
  have hhead : ("test_" ++ classifierName spec).toList.head? = some 't' :=
    head?_append (by decide) _
  have hwhole : '/' ∉ ("test_" ++ classifierName spec).toList := by
    rw [String.toList_append, List.mem_append, not_or]
    exact ⟨by decide, whole_classifierName h⟩
  exact isPlain_file hhead (by decide) hwhole (whole_sourceExtension l)

theorem exists_plain_file (g : Generator) (artifact : Artifact) {name extension : String}
    (text : String) (h : IsPlain (name ++ "." ++ extension)) :
    ∃ plain, IsPlain plain ∧
      (g.file artifact name extension text).path = joinPath g.settings.outputDir plain :=
  ⟨_, h, rfl⟩

/-- The files of a run stand in the output directory if no argument has a slash. -/
theorem exists_plain_name (hwhole : ∀ spec ∈ o.categories, '/' ∉ spec.toList) {f : SourceFile}
    (hf : f ∈ o.files table) :
    ∃ name, IsPlain name ∧ f.path = joinPath o.settings.outputDir name := by
  obtain ⟨hheader, htestHeader, hprofiler, hmain⟩ := isPlain_shared o.settings.language
  rw [files, List.mem_append, List.mem_flatMap] at hf
  obtain ⟨spec, hspec, hf⟩ | hf := hf
  · have hclassifier := isPlain_classifier (hwhole spec hspec) o.settings.language
    have htest := isPlain_test (hwhole spec hspec) o.settings.language
    rw [Generator.sources, List.mem_cons] at hf
    obtain rfl | hf := hf
    · exact exists_plain_file _ _ _ hclassifier
    · split at hf
      · obtain rfl := List.mem_singleton.mp hf
        exact exists_plain_file _ _ _ htest
      · cases hf
  · simp only [Generator.sharedSources, List.mem_append, List.mem_singleton] at hf
    obtain ((rfl | hf) | hf) | rfl := hf
    · exact exists_plain_file _ _ _ hheader
    · split at hf
      · obtain rfl := List.mem_singleton.mp hf
        exact exists_plain_file _ _ _ htestHeader
      · cases hf
    · split at hf
      · obtain rfl := List.mem_singleton.mp hf
        exact exists_plain_file _ _ _ hprofiler
      · cases hf
    · exact exists_plain_file _ _ _ hmain

/-- Without slashes in the arguments, no other path of a run leads to the file of a classifier. -/
theorem alone_of_whole {d : Directory} {dest : Destination}
    (hwhole : ∀ spec ∈ o.categories, '/' ∉ spec.toList) {spec : String} (hspec : spec ∈ o.categories)
    (hdest : d.locate (o.classifierPath spec) = .ok dest) (f : SourceFile)
    (hf : f ∈ o.files table) (hsame : d.locate f.path = d.locate (o.classifierPath spec)) :
    f.path = o.classifierPath spec := by
  obtain ⟨name, hname, hpath⟩ := exists_plain_name hwhole hf
  rw [hdest, hpath] at hsame
  have hclassifier := isPlain_classifier (hwhole spec hspec) o.settings.language
  rw [hpath, (Directory.locate_joinPath_iff hclassifier hname hdest).mp hsame, classifierPath]

/-! ### What a run leaves -/

variable {d : Directory}

/-- A run that succeeds leaves every classifier in its file: the classifier of the values that its
argument asks for. The exception is a run with counting functions and a classifier of their name,
which they overwrite. An argument may share its name only with arguments that ask for the same
values, and no other path of the run may lead to its file. -/
theorem run_keeps_classifiers (h : (o.run d).succeeded = true) :
    ∃ table, (Reading.ofFile o.unicodeData (d.read o.unicodeData)).table = .ok table ∧
      ∀ spec ∈ o.categories,
        (∀ other ∈ o.categories, classifierName other = classifierName spec →
          table.filter other = table.filter spec) →
        (∀ f ∈ o.files table, d.locate f.path = d.locate (o.classifierPath spec) →
          f.path = o.classifierPath spec) →
        ∃ out, compile (table.filter spec) o.settings.width = .ok out ∧
          (o.run d).directory.read (o.classifierPath spec) =
            .ok (if o.settings.profiler = true ∧ classifierName spec = "uniclass_profiler" then
              o.settings.language.profilerSource
            else Generator.renderClassifier ⟨o.settings, []⟩ (classifierName spec)
              out.predicate) := by
  obtain ⟨table, htable, hleaves⟩ := run_leaves_classifiers h
  refine ⟨table, htable, fun spec hspec hsame halone => ?_⟩
  obtain ⟨last, out, hlast, hcompile, hread⟩ := hleaves spec hspec halone
  obtain ⟨hmem, hname⟩ := lastNamed_eq_some hlast
  exact ⟨out, hsame last hmem hname ▸ hcompile, hread⟩

/-- If all arguments name categories of the table, nothing but the counting functions can take the
place of a classifier. -/
theorem run_keeps_defined (h : (o.run d).succeeded = true) :
    ∃ table, (Reading.ofFile o.unicodeData (d.read o.unicodeData)).table = .ok table ∧
      ((∀ spec ∈ o.categories, table.undefinedNames spec = []) → ∀ spec ∈ o.categories,
        ∃ out, compile (table.filter spec) o.settings.width = .ok out ∧
          (o.run d).directory.read (o.classifierPath spec) =
            .ok (if o.settings.profiler = true ∧ classifierName spec = "uniclass_profiler" then
              o.settings.language.profilerSource
            else Generator.renderClassifier ⟨o.settings, []⟩ (classifierName spec)
              out.predicate)) := by
  obtain ⟨table, htable, hkept⟩ := run_keeps_classifiers h
  refine ⟨table, htable, fun hdefined spec hspec => ?_⟩
  have hnames (other : String) (hother : other ∈ o.categories) :
      Table.NamesAlphanumeric other :=
    Table.namesAlphanumeric_of_defined (Reading.ofFile_alphanumeric htable) (hdefined other hother)
  -- neither a folder can be named nor two lists of names that give one file name
  have hwhole : ∀ other ∈ o.categories, '/' ∉ other.toList := fun other hother hslash =>
    absurd (Table.chars_of_names (hnames other hother) '/' hslash) (by decide)
  have hsame : ∀ other ∈ o.categories, classifierName other = classifierName spec →
      table.filter other = table.filter spec := fun other hother hname =>
    (table.filter_eq_of_classifierName_eq (hnames spec hspec) (hnames other hother) hname)
  obtain ⟨dest, hdest⟩ := run_locates h htable hspec
  exact hkept spec hspec hsame (alone_of_whole hwhole hspec hdest)

end Options

end BitClassifier
