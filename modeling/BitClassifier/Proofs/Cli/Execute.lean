import BitClassifier.Cli.Run
import BitClassifier.Proofs.Cli.Kept

/-!
# Executions keep their classifiers

An execution of the program that succeeds is a run with the options of its arguments
(`execute_succeeded`), so it keeps the classifiers that the run keeps (`execute_keeps_classifiers`).
A category that has the name of the counting functions loses its classifier to them
(`execute_loses_classifier`).
-/

namespace BitClassifier

/-- An execution that succeeds is a run that does. -/
theorem execute_succeeded {arguments : List String} {environment : Option String}
    {d : Directory} {o : Options} (ho : Options.ofArguments arguments = .ok o)
    (hexit : (execute arguments environment d).exitCode = 0) :
    (o.run d).succeeded = true ∧
      (execute arguments environment d).directory = (o.run d).directory := by
  rw [execute, ho] at hexit ⊢
  dsimp only at hexit ⊢
  cases hfilter : LogFilter.choose o.logLevel environment with
  | mk filter? complaints =>
    cases filter? with
    | none => simp [hfilter, faultCode] at hexit
    | some filter =>
      simp only [hfilter] at hexit
      refine ⟨?_, rfl⟩
      by_contra hfailed
      simp [hfailed] at hexit

/-- A run that succeeds makes an execution that does, if there is a log filter for it. -/
theorem execute_of_succeeded {arguments : List String} {environment : Option String}
    {d : Directory} {o : Options} (ho : Options.ofArguments arguments = .ok o)
    (hfilter : (LogFilter.choose o.logLevel environment).1.isSome = true)
    (h : (o.run d).succeeded = true) : (execute arguments environment d).exitCode = 0 := by
  rw [execute, ho]
  dsimp only
  cases hchosen : LogFilter.choose o.logLevel environment with
  | mk filter? complaints =>
    cases filter? with
    | none => simp [hchosen] at hfilter
    | some filter => simp [h]

/-- The counting functions are no classifier: behind the included header they declare a counter
where a classifier defines its shorthands. -/
theorem profilerSource_ne {g : Generator} (h : g.settings.profiler = true) (name : String)
    (p : Predicate) : g.settings.language.profilerSource ≠ g.renderClassifier name p := by
  have hsource : ∃ rest, g.settings.language.profilerSource.toList =
      (banner ++ g.settings.language.includeHeader).toList ++ '\n' :: 's' :: rest := by
    simp only [Language.profilerSource, String.toList_append, List.append_assoc]
    exact ⟨_, rfl⟩
  have hclassifier : ∃ rest, (g.renderClassifier name p).toList =
      (banner ++ g.settings.language.includeHeader).toList ++ '\n' :: '#' :: rest := by
    simp only [Generator.renderClassifier, Generator.style, Style.classifier, h, if_true,
      Wrapper.definition, String.toList_append, List.append_assoc]
    exact ⟨_, rfl⟩
  obtain ⟨rest, hsource⟩ := hsource
  obtain ⟨rest', hclassifier⟩ := hclassifier
  intro heq
  have hbegin := List.append_cancel_left (hsource.symm.trans (heq ▸ hclassifier))
  simp at hbegin

/-! ### A run of two categories -/

/-- A directory with a data file of two lines. -/
def twoCategories : Directory where
  folders := []
  files := [(["UnicodeData.txt"], "0;A;profiler\n1;B;Lu\n".toUTF8)]

/-- The options of a run with counting functions. -/
def countedRun : Options where
  categories := ["profiler", "Lu"]
  settings := { profiler := true, tests := false, width := ⟨1, Nat.le_refl 1, Nat.le_add_left 1 31⟩ }

theorem ofArguments_countedRun :
    Options.ofArguments ["-pw1", "--no-tests", "profiler", "Lu"] = .ok countedRun := by rfl

theorem table_countedRun :
    (Reading.ofFile countedRun.unicodeData (twoCategories.read countedRun.unicodeData)).table =
      .ok ⟨[⟨0, 0, "profiler"⟩, ⟨1, 1, "Lu"⟩]⟩ := by rfl

theorem execute_countedRun :
    (execute ["-pw1", "--no-tests", "profiler", "Lu"] none twoCategories).exitCode = 0 := by
  refine execute_of_succeeded ofArguments_countedRun rfl
    (Options.run_succeeds table_countedRun fun f hf => ?_)
  have hpaths : (countedRun.files ⟨[⟨0, 0, "profiler"⟩, ⟨1, 1, "Lu"⟩]⟩).map (·.path) =
      ["./uniclass_profiler.cpp", "./uniclass_Lu.cpp", "./uniclass.hpp", "./uniclass_profiler.cpp",
        "./main.cpp"] := by rfl
  have hpath := List.mem_map_of_mem (f := SourceFile.path) hf
  rw [hpaths] at hpath
  generalize f.path = path at hpath
  simp only [List.mem_cons, List.not_mem_nil, or_false] at hpath
  rcases hpath with rfl | rfl | rfl | rfl | rfl <;> exact ⟨_, rfl⟩

/-- The only path of the run that leads to the file of a classifier is its own. -/
theorem alone_countedRun {spec : String} (hspec : spec ∈ countedRun.categories) (table : Table)
    (f : SourceFile) (hf : f ∈ countedRun.files table)
    (hsame : twoCategories.locate f.path =
      twoCategories.locate (countedRun.classifierPath spec)) :
    f.path = countedRun.classifierPath spec := by
  have hwhole : ∀ spec ∈ countedRun.categories, '/' ∉ spec.toList := by decide
  have hdest : ∃ dest, twoCategories.locate (countedRun.classifierPath spec) = .ok dest := by
    simp only [countedRun, List.mem_cons, List.not_mem_nil, or_false] at hspec
    rcases hspec with rfl | rfl <;> exact ⟨_, rfl⟩
  obtain ⟨dest, hdest⟩ := hdest
  exact Options.alone_of_whole hwhole hspec hdest f hf hsame

/-! ### What an execution leaves -/

/-- An execution that succeeds leaves every classifier in its file: the classifier of the values that
its argument asks for. The exception is one with counting functions and a classifier of their name,
which they overwrite. An argument may share its name only with arguments that ask for the same
values, and no other path of its run may lead to its file. -/
theorem execute_keeps_classifiers {arguments : List String} {environment : Option String}
    {d : Directory} {o : Options} (ho : Options.ofArguments arguments = .ok o)
    (hexit : (execute arguments environment d).exitCode = 0) :
    ∃ table, (Reading.ofFile o.unicodeData (d.read o.unicodeData)).table = .ok table ∧
      ∀ spec ∈ o.categories,
        (∀ other ∈ o.categories, classifierName other = classifierName spec →
          table.filter other = table.filter spec) →
        (∀ f ∈ o.files table, d.locate f.path = d.locate (o.classifierPath spec) →
          f.path = o.classifierPath spec) →
        ∃ out, compile (table.filter spec) o.settings.width = .ok out ∧
          (execute arguments environment d).directory.read (o.classifierPath spec) =
            .ok (if o.settings.profiler = true ∧ classifierName spec = "uniclass_profiler" then
              o.settings.language.profilerSource
            else Generator.renderClassifier ⟨o.settings, []⟩ (classifierName spec)
              out.predicate) := by
  obtain ⟨hsucceeded, hdirectory⟩ := execute_succeeded ho hexit
  rw [hdirectory]
  exact Options.run_keeps_classifiers hsucceeded

/-- The classifier of one category is kept and the other one is overwritten. -/
theorem execute_keeps_counted :
    (Options.ofArguments ["-pw1", "--no-tests", "profiler", "Lu"] = .ok countedRun ∧
      (execute ["-pw1", "--no-tests", "profiler", "Lu"] none twoCategories).exitCode = 0) ∧
    ∃ out, compile (Table.filter ⟨[⟨0, 0, "profiler"⟩, ⟨1, 1, "Lu"⟩]⟩ "Lu")
        countedRun.settings.width = .ok out ∧
      (execute ["-pw1", "--no-tests", "profiler", "Lu"] none twoCategories).directory.read
        "./uniclass_Lu.cpp" =
        .ok (Generator.renderClassifier ⟨countedRun.settings, []⟩ "uniclass_Lu" out.predicate) := by
  refine ⟨⟨ofArguments_countedRun, execute_countedRun⟩, ?_⟩
  obtain ⟨table, htable, hkept⟩ :=
    execute_keeps_classifiers ofArguments_countedRun execute_countedRun
  obtain rfl := Except.ok.inj (htable.symm.trans table_countedRun)
  have hname : ∀ other ∈ countedRun.categories, classifierName other = classifierName "Lu" →
      other = "Lu" := by decide
  obtain ⟨out, hcompile, hread⟩ := hkept "Lu" (by decide)
    (fun other hother hsame => by rw [hname other hother hsame]) (alone_countedRun (by decide) _)
  exact ⟨out, hcompile, hread⟩

/-- A category whose name is that of the counting functions loses its classifier to them. -/
theorem execute_loses_classifier :
    (execute ["-pw1", "--no-tests", "profiler", "Lu"] none twoCategories).exitCode = 0 ∧
      ∃ out, compile (Table.filter ⟨[⟨0, 0, "profiler"⟩, ⟨1, 1, "Lu"⟩]⟩ "profiler")
          countedRun.settings.width = .ok out ∧
        (execute ["-pw1", "--no-tests", "profiler", "Lu"] none twoCategories).directory.read
          "./uniclass_profiler.cpp" ≠
          .ok (Generator.renderClassifier ⟨countedRun.settings, []⟩ "uniclass_profiler"
            out.predicate) := by
  refine ⟨execute_countedRun, ?_⟩
  obtain ⟨hsucceeded, hdirectory⟩ := execute_succeeded ofArguments_countedRun execute_countedRun
  obtain ⟨table, htable, hleaves⟩ := Options.run_leaves_classifiers hsucceeded
  obtain rfl := Except.ok.inj (htable.symm.trans table_countedRun)
  obtain ⟨last, out, hlast, hcompile, hread⟩ :=
    hleaves "profiler" (by decide) (alone_countedRun (by decide) _)
  have hprofiler : Options.lastNamed (classifierName "profiler") countedRun.categories =
      some "profiler" := by decide
  obtain rfl : "profiler" = last := Option.some.inj (hprofiler.symm.trans hlast)
  refine ⟨out, hcompile, fun h => ?_⟩
  have hsame := Except.ok.inj (hread.symm.trans (hdirectory ▸ h))
  exact profilerSource_ne (g := ⟨countedRun.settings, []⟩) rfl _ _ hsame

end BitClassifier
