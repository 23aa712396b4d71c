import BitClassifier.Proofs.Compile

/-!
# What compiling depends on

A list of values is cut where its ascending form leaves the domain. The values before the cut are
put into a trie (`build`), and those behind it are counted in a warning (`warnings`). The cut
depends on the set of the listed values only, so lists with the same values of the domain are
compiled to the same classifier (`compile_depends_on_domain`).
-/

namespace BitClassifier

open Trie Subtree

/-- The distinct values above the domain. -/
def outOfDomain (values : List CodeValue) (w : Width) : Finset CodeValue :=
  {v ∈ values.toFinset | w.contains v = false}

/-- What is warned of before values are compiled. -/
def warnings (values : List CodeValue) (w : Width) : List Event :=
  if values.all w.contains then [] else [.valuesIgnored (outOfDomain values w).card w]

/-- Puts values into a trie, one after another, and prunes it. -/
def build (w : Width) (inside : List CodeValue) : Run (Compiled × List Event) := do
  let trie ← (Trie.empty w).insertAll inside
  let (predicate, p) ← (Pruner.start trie).run
  return (⟨predicate, p.comparisons, trie.len⟩,
    .trieBuilt inside.length trie.len w :: p.events.toList)

variable {values values' : List CodeValue} {w : Width} {v : CodeValue}

/-! ## The cut -/

theorem takeWhile_ascending (values : List CodeValue) (w : Width) :
    (ascending values).takeWhile w.contains = ascending (values.filter w.contains) := by
  refine ((pairwise_lt_ascending values).sublist (List.takeWhile_sublist _)).eq_of_mem_iff
    (pairwise_lt_ascending _) fun v => ?_
  rw [mem_inside, mem_ascending, List.mem_filter]

theorem mem_dropWhile_ascending :
    v ∈ (ascending values).dropWhile w.contains ↔ v ∈ values ∧ w.contains v = false := by
  have hnodup : (ascending values).Nodup := (pairwise_lt_ascending values).nodup
  have hmem : v ∈ ascending values ↔ v ∈ values := mem_ascending
  rw [← List.takeWhile_append_dropWhile (p := w.contains) (l := ascending values)] at hnodup hmem
  rw [List.mem_append, mem_inside] at hmem
  constructor
  · intro hv
    have hvalues := hmem.mp (.inr hv)
    refine ⟨hvalues, Bool.eq_false_iff.mpr fun hin => ?_⟩
    exact List.disjoint_of_nodup_append hnodup (mem_inside.mpr ⟨hvalues, hin⟩) hv
  · rintro ⟨hvalues, hout⟩
    exact (hmem.mpr hvalues).resolve_left fun hin => Bool.false_ne_true (hout.symm.trans hin.2)

theorem length_dropWhile_ascending (values : List CodeValue) (w : Width) :
    ((ascending values).dropWhile w.contains).length = (outOfDomain values w).card := by
  have hnodup := (pairwise_lt_ascending values).nodup.sublist
    (List.dropWhile_sublist w.contains)
  rw [← List.toFinset_card_of_nodup hnodup]
  congr 1
  ext v
  rw [List.mem_toFinset, mem_dropWhile_ascending, outOfDomain, Finset.mem_filter,
    List.mem_toFinset]

theorem ignored_eq_warnings (values : List CodeValue) (w : Width) :
    (if ((ascending values).dropWhile w.contains).isEmpty then []
      else [Event.valuesIgnored ((ascending values).dropWhile w.contains).length w]) =
      warnings values w := by
  have hempty : ((ascending values).dropWhile w.contains).isEmpty = values.all w.contains := by
    rw [Bool.eq_iff_iff, List.isEmpty_iff, List.eq_nil_iff_forall_not_mem]
    simp [mem_dropWhile_ascending]
  rw [warnings, length_dropWhile_ascending, hempty]

theorem Run.outcome_map {α β : Type} (f : α → β) (run : Run α) :
    (f <$> run).outcome = run.outcome.map f := by
  rcases run with _ | (e | a) <;> rfl

/-- Compiling warns of values above the domain and builds from the others. -/
theorem compileReporting_eq_build (values : List CodeValue) (w : Width) :
    compileReporting values w =
      (build w (ascending (values.filter w.contains))).outcome.map
        fun r => (r.1, warnings values w ++ r.2) := by
  have hself := eraseReps_of_nodup (pairwise_lt_ascending (values.filter w.contains)).nodup
  have hignored := ignored_eq_warnings values w
  rw [compileReporting, List.span_eq_takeWhile_dropWhile]
  simp only [hignored, takeWhile_ascending, ofSorted, hself]
  rw [← Run.outcome_map, build, map_bind]
  simp only [map_bind, map_pure, List.append_assoc, List.singleton_append]

/-! ## Reports -/

namespace Subtree

/-- What is reported in a step. -/
def Step.log : Step → List Event
  | .done _ log => log
  | .link _ log _ _ => log
  | .fork .. => []

variable {s : Subtree} {r : Region}

theorem Steps.level_eq {out : Step} (h : s.Steps r out) : ∀ e ∈ out.log, e.level = .trace := by
  cases h <;> simp [Step.log, Event.level]

theorem level_eq_of_mem_plan (s : Subtree) (r : Region) :
    ∀ e ∈ (s.plan r).events, e.level = .trace := by
  induction s, r using plan.induct with
  | case1 s r test log h =>
    rw [plan_of_done h]
    exact (steps_of_eq h).level_eq
  | case2 s r links log rest r' h ih =>
    rw [plan_of_link h]
    exact List.forall_mem_append.mpr ⟨(steps_of_eq h).level_eq, ih⟩
  | case3 s r bit off on h ihOn ihOff =>
    rw [plan_of_fork h]
    exact List.forall_mem_append.mpr ⟨ihOn, ihOff⟩

theorem level_eq_of_mem_whole (w : Width) (s : Subtree) :
    ∀ e ∈ (s.whole w).events, e.level = .trace := by
  unfold whole
  split
  · exact List.forall_mem_nil _
  · split
    · exact List.forall_mem_nil _
    · exact level_eq_of_mem_plan s .whole

end Subtree

/-- Building from values of the domain always succeeds, and nothing is warned of. -/
theorem build_eq (h : ∀ v ∈ values, w.contains v = true) :
    ∃ out log, build w values = pure (out, log) ∧ ∀ e ∈ log, e.level ≠ .warn := by
  obtain ⟨t, s, hall, hrep, -⟩ := (empty_represents w).insertAll h
  obtain ⟨t', b, hrun, -⟩ := Pruner.run_eq (p := .start t) hrep
  refine ⟨_, _, by rw [build, hall, pure_bind, hrun, pure_bind], fun e he => ?_⟩
  simp only [Pruner.report, Pruner.spend, Pruner.charge, Pruner.start, Array.toList_push,
    Array.toList_append, List.nil_append, List.mem_append, List.mem_cons, List.not_mem_nil,
    or_false] at he
  rcases he with rfl | hplan | rfl
  · simp [Event.level]
  · simp [level_eq_of_mem_whole w s e hplan]
  · simp [Event.level]

/-- Lists with the same values of the domain are compiled to the same classifier, whatever their
order, their repetitions and their values above the domain. Only the values of the domain are put
into a trie. If there are others, one warning tells how many they are without repetitions, and
nothing else is warned of. -/
theorem compile_depends_on_domain
    (hsame : ∀ v, w.contains v = true → (v ∈ values ↔ v ∈ values')) :
    ∃ inside out log, (∀ v, v ∈ inside ↔ v ∈ values ∧ w.contains v = true) ∧
      build w inside = pure (out, log) ∧ (∀ e ∈ log, e.level ≠ .warn) ∧
      ∀ l ∈ [values, values'], compile l w = .ok out ∧
        compileReporting l w = .ok (out, warnings l w ++ log) ∧
        compileReporting l w =
          (build w inside).outcome.map fun r => (r.1, warnings l w ++ r.2) := by
  have hfilter : ascending (values'.filter w.contains) = ascending (values.filter w.contains) := by
    refine ascending_congr fun v => ?_
    rw [List.mem_filter, List.mem_filter]
    exact and_congr_left fun hv => (hsame v hv).symm
  have hinside (v : CodeValue) :
      v ∈ ascending (values.filter w.contains) ↔ v ∈ values ∧ w.contains v = true := by
    rw [mem_ascending, List.mem_filter]
  obtain ⟨out, log, hbuild, hlog⟩ := build_eq fun v hv => ((hinside v).mp hv).2
  refine ⟨_, out, log, hinside, hbuild, hlog, fun l hl => ?_⟩
  have hreport : compileReporting l w = (build w (ascending (values.filter w.contains))).outcome.map
      fun r => (r.1, warnings l w ++ r.2) := by
    rcases List.mem_pair.mp hl with rfl | rfl
    · exact compileReporting_eq_build l w
    · exact hfilter ▸ compileReporting_eq_build l w
  have hok : compileReporting l w = .ok (out, warnings l w ++ log) := by
    rw [hreport, hbuild]
    rfl
  exact ⟨by rw [compile, hok]; rfl, hok, hreport⟩

/-- The value 2 of two bits, in lists with values above the domain. -/
theorem compile_depends_on_domain_pair :
    let w : Width := ⟨2, by decide, by decide⟩
    let values : List CodeValue := [7, 2, 5, 2, 7]
    let values' : List CodeValue := [2, 4]
    (∀ v, w.contains v = true → (v ∈ values ↔ v ∈ values')) ∧ ∃ out log,
      compileReporting values w = .ok (out, .valuesIgnored 2 w :: log) ∧
      compileReporting values' w = .ok (out, .valuesIgnored 1 w :: log) := by
  intro w values values'
  have hsame : ∀ v, w.contains v = true → (v ∈ values ↔ v ∈ values') := by
    intro v hv
    obtain ⟨i, rfl⟩ : ∃ i : Fin 4, v = BitVec.ofNat 32 i :=
      ⟨⟨v.toNat, (w.contains_iff_lt v).mp hv⟩, by simp⟩
    fin_cases i <;> decide
  obtain ⟨inside, out, log, -, -, -, hcompiled⟩ := compile_depends_on_domain hsame
  rw [List.forall_mem_cons, List.forall_mem_singleton] at hcompiled
  obtain ⟨⟨-, hreport, -⟩, -, hreport', -⟩ := hcompiled
  have hwarn : warnings values w = [.valuesIgnored 2 w] := rfl
  have hwarn' : warnings values' w = [.valuesIgnored 1 w] := rfl
  rw [hwarn] at hreport
  rw [hwarn'] at hreport'
  exact ⟨hsame, out, log, hreport, hreport'⟩

end BitClassifier
