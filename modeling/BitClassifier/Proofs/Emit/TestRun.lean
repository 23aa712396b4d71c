import BitClassifier.Proofs.Emit.TestFile
import BitClassifier.Proofs.Emit.TestTurn

/-!
# Runs of emitted tests

Without the flag the loop of a test takes one turn for every value up to the last one
(`Turn.turns`), and with `TEST_ONLY_MATCHES` one for every listed value (`Skim.turns`). It never
reads behind the end of its list, and it knows of every value whether it is listed (`test_exact`).
-/

namespace BitClassifier

open Source

namespace Style

variable (s : Style) {name : String} {word : CodeValue → CodeValue} {codes : List CodeValue}
  {values : List CodeValue} {b : Bench} {σ σ' : Memory} {k : Nat}

/-! ### Values up to the last one -/

theorem lastTested_le : s.lastTested ≤ 0x10FFFF :=
  Nat.min_le_right ..

theorem contains_of_le_lastTested (hk : k ≤ s.lastTested) :
    s.width.contains (BitVec.ofNat 32 k) = true := by
  have hlast := s.lastTested_le
  have hmax : k ≤ s.width.maxValue.toNat := Nat.le_trans hk (Nat.min_le_left ..)
  rw [Width.contains_iff, BitVec.le_def, toNat_ofNat_word (by omega)]
  exact hmax

theorem mem_listedValues {v : CodeValue} :
    v ∈ s.listedValues values ↔ v ∈ values ∧ v.toNat ≤ s.lastTested := by
  simp [listedValues]

theorem listedValues_lt {v : CodeValue} (hv : v ∈ s.listedValues values) :
    v.toNat < s.lastTested + 1 :=
  Nat.lt_succ_of_le (s.mem_listedValues.mp hv).2

theorem length_listedValues_le (hsorted : values.Pairwise (· < ·)) :
    (s.listedValues values).length ≤ s.lastTested + 1 := by
  have hcodes : (s.listedValues values).Pairwise (· < ·) := hsorted.filter _
  have hlast := s.lastTested_le
  have hlength := rank_le hcodes (k := s.lastTested + 1) (by omega)
  rwa [rank_eq_length fun v hv => s.listedValues_lt hv] at hlength

/-- What the test of a classifier is run with. Behind the listed values nothing may be read. -/
def bench (name : String) (values : List CodeValue) (e : Expr) : Bench where
  language := s.language
  name
  expression := e
  bound := (s.listedValues values).length

theorem serves_bench (name : String) (hsorted : values.Pairwise (· < ·)) {e : Expr}
    (hanswers : ∀ c, s.width.contains c = true →
      ∃ calls, e.run (s.language.scope c) = some (word c, calls)) :
    s.Serves name word (s.listedValues values) (s.bench name values e) where
  language := rfl
  name := rfl
  answers := hanswers
  bound := rfl
  sorted := hsorted.filter _
  inside := by
    intro v hv
    have hinside := s.contains_of_le_lastTested (s.mem_listedValues.mp hv).2
    rwa [BitVec.ofNat_toNat, BitVec.setWidth_eq] at hinside
  length := by
    have hlast := s.lastTested_le
    have hlength := s.length_listedValues_le hsorted
    omega

/-! ### Before the loop -/

/-- The memory in front of the loop of a test. -/
structure Ready (s : Style) (codes : List CodeValue) (σ : Memory) : Prop extends
    Setup s codes σ where
  array : σ.arrays "codes" = if codes = [] then [0#32] else codes
  c : σ.vars "c" = some 0#32
  failed : σ.vars "failed" = some 0#32
  calls : σ.calls = []

theorem mapM_literal? (codes : List CodeValue) :
    (if codes = [] then [0] else codes.map (·.toNat)).mapM literal? =
      some (if codes = [] then [0#32] else codes) := by
  have hmap : (codes.map (·.toNat)).mapM literal? = some codes := by
    induction codes with
    | nil => rfl
    | cons v codes ih => simp [ih]
  split
  · rfl
  · exact hmap

theorem run_testSetup (b : Bench) (hcodes : codes.length < 2 ^ 32) (counted : CodeValue) :
    ∃ σ, (Statement.row (s.testSetup codes)).run b (Memory.fresh counted) = some σ ∧
      Ready s codes σ := by
  let τ := ((((((Memory.fresh counted).setArray "codes" (if codes = [] then [0#32] else codes)).set
    "c" 0#32).set "failed" 0#32).put "i" none).put "j" none).set "n" (BitVec.ofNat 32 codes.length)
  have hfirst : (Statement.row [.array "codes" (if codes = [] then [0] else codes.map (·.toNat)),
      .declare "uint32_t" "c" (some (.number 0)),
      .next (.declare "unsigned" "failed" (some (.number 0)))
        (.next (.declare "unsigned" "i" none)
          (.next (.declare "unsigned" "j" none)
            (.declare "unsigned" "n" (some (.number codes.length)))))]).exec b
      (Memory.fresh counted) = some (τ, false) := by
    simp [Statement.row, Statement.exec, mapM_literal?, Term.eval, literal?_of_lt hcodes, converted,
      τ]
  have hlist : ∀ k < codes.length, (τ.arrays "codes")[k]? = codes[k]? := by
    intro k hk
    have hne : codes ≠ [] := List.ne_nil_of_length_pos (Nat.zero_lt_of_lt hk)
    simp [τ, hne]
  cases hprofiler : s.profiler with
  | false =>
    refine ⟨τ, Statement.run_of_exec ?_, ⟨by simp [τ], hlist, by simp [hprofiler]⟩, ?_, ?_, ?_, ?_⟩
    · rw [testSetup, hprofiler, if_neg Bool.false_ne_true, Statement.exec_row_append hfirst]
      rfl
    all_goals simp [τ, Memory.fresh]
  | true =>
    refine ⟨(((τ.set "match_jumps" 0#32).set "unmatched_jumps" 0#32).set "ascii_jumps" 0#32).set
      "max_jumps" 0#32, Statement.run_of_exec ?_, ⟨by simp [τ], hlist, ?_⟩, ?_, ?_, ?_, ?_⟩
    · rw [testSetup, hprofiler, if_pos rfl, Statement.exec_row_append hfirst]
      simp [Statement.row, Statement.exec, Term.eval, converted]
    · intro _ x hx
      simp only [jumpCounts, List.mem_cons, List.not_mem_nil, or_false] at hx
      rcases hx with rfl | rfl | rfl | rfl <;> simp
    all_goals simp [τ, Memory.fresh]

/-! ### The loop's header -/

theorem eval_condition (hi : σ.vars "i" = some (BitVec.ofNat 32 k)) (hk : k ≤ s.lastTested + 1) :
    (Term.binary .atMost (.var "i") (.number s.lastTested)).eval b σ =
      some (truth (decide (k ≤ s.lastTested)), σ) := by
  have hlast := s.lastTested_le
  have hle : BitVec.ofNat 32 k ≤ BitVec.ofNat 32 s.lastTested ↔ k ≤ s.lastTested := by
    rw [BitVec.le_def, toNat_ofNat_word (by omega), toNat_ofNat_word (by omega)]
  have hliteral := literal?_of_lt (n := s.lastTested) (by omega)
  simp [Term.eval, Operator.apply, hi, hliteral, hle]

theorem run_step {c : CodeValue} (hi : σ.vars "i" = some (BitVec.ofNat 32 k))
    (hc : σ.vars "c" = some c) :
    (Statement.next (.increment "i") (.increment "c")).run b σ =
      some ((σ.set "i" (BitVec.ofNat 32 (k + 1))).set "c" (c + 1#32)) := by
  simp [Statement.run, Statement.exec, hi, hc, ofNat_succ]

/-! ### A turn for every value -/

/-- What a test expects of its classifier for a value. -/
def visit (codes : List CodeValue) (k : Nat) : Call :=
  ⟨BitVec.ofNat 32 k, some (truth (decide (BitVec.ofNat 32 k ∈ codes)))⟩

/-- The number of wrong answers for the values below a bound. -/
def failures (s : Style) (word : CodeValue → CodeValue) (codes : List CodeValue) (k : Nat) : Nat :=
  (List.range k).countP fun c =>
    s.answer word (BitVec.ofNat 32 c) != truth (decide (BitVec.ofNat 32 c ∈ codes))

theorem failures_succ (word : CodeValue → CodeValue) (codes : List CodeValue) (k : Nat) :
    s.failures word codes (k + 1) = s.failures word codes k +
      if s.answer word (BitVec.ofNat 32 k) != truth (decide (BitVec.ofNat 32 k ∈ codes))
        then 1 else 0 := by
  rw [failures, List.range_succ, List.countP_append, List.countP_singleton]
  rfl

/-- The memory of a test without flags when its loop begins a turn. -/
structure Turn (s : Style) (word : CodeValue → CodeValue) (codes : List CodeValue) (k : Nat)
    (σ : Memory) : Prop extends Spot s codes (BitVec.ofNat 32 k) (rank codes k) σ where
  i : σ.vars "i" = some (BitVec.ofNat 32 k)
  failed : σ.vars "failed" = some (BitVec.ofNat 32 (s.failures word codes k))
  calls : σ.calls = (List.range k).map (visit codes)

variable {s}

/-- The loop begins with zero, in front of the whole list. -/
theorem Ready.spot (h : Ready s codes σ) :
    Spot s codes 0#32 0 ((σ.set "i" 0#32).set "j" 0#32) where
  toSetup := (h.toSetup.put (by decide) _).put (by decide) _
  c := by simp [h.c]
  j := by simp
  inside := Nat.zero_le _

theorem Ready.turn (h : Ready s codes σ) :
    Turn s word codes 0 ((σ.set "i" 0#32).set "j" 0#32) where
  toSpot := by
    have hrank : rank codes 0 = 0 := by simp [rank]
    rw [hrank]
    exact h.spot
  i := by simp
  failed := by simp [h.failed, failures]
  calls := by simp [h.calls]

/-- Without the flag a turn calls the classifier for its value. -/
theorem Turn.exec_body (h : Turn s word codes k σ) (hb : s.Serves name word codes b)
    (hk : k ≤ s.lastTested) :
    ∃ τ σ', (Statement.row (s.look ++ s.check name)).exec b σ = some (τ, false) ∧
      (Statement.next (.increment "i") (.increment "c")).run b τ = some σ' ∧
      Turn s word codes (k + 1) σ' := by
  have hlast := s.lastTested_le
  obtain ⟨τ, hbody, hplace, hi, hfailed, hcalls⟩ :=
    h.exec_visit hb (s.contains_of_le_lastTested hk) h.failed
  have hlisted := getElem?_rank hb.sorted (BitVec.ofNat 32 k)
  have hrank := rank_succ hb.sorted (BitVec.ofNat 32 k)
  rw [toNat_ofNat_word (by omega)] at hlisted hrank
  simp only [hlisted] at hplace hfailed hcalls
  have hpassed : (if BitVec.ofNat 32 k ∈ codes then rank codes k + 1 else rank codes k) =
      rank codes (k + 1) := by
    rw [hrank]
    split <;> rfl
  rw [hpassed] at hplace
  refine ⟨τ, _, hbody, run_step (hi.trans h.i) hplace.c, ?_⟩
  have hnext := hplace.next (v := BitVec.ofNat 32 (k + 1))
  rw [ofNat_succ] at hnext ⊢
  refine ⟨hnext, by simp, ?_, ?_⟩
  · simp [hfailed, failures_succ]
  · simp [hcalls, h.calls, List.range_succ, visit]

/-- From any turn on, the loop takes a turn for each of the values that are left. -/
theorem Turn.turns (h : Turn s word codes k σ) (hb : s.Serves name word codes b)
    {flags : List String} (hflag : "TEST_ONLY_MATCHES" ∉ flags) (hk : k ≤ s.lastTested + 1) :
    ∃ σ', (s.testLoop name flags).turns b σ = some σ' ∧
      Turn s word codes (s.lastTested + 1) σ' := by
  have hbody : (s.testLoop name flags).body = .row (s.look ++ s.check name) := by
    simp [testLoop, skip, hflag]
  -- by the number of turns that are left
  obtain ⟨n, hn⟩ := Nat.exists_eq_add_of_le hk
  induction n generalizing k σ with
  | zero =>
    obtain rfl : k = s.lastTested + 1 := hn.symm
    have hcondition := s.eval_condition (b := b) h.i (Nat.le_refl _)
    rw [decide_eq_false (by omega)] at hcondition
    exact ⟨σ, Loop.turns_end hcondition, h⟩
  | succ n ih =>
    have hcondition := s.eval_condition (b := b) h.i hk
    rw [decide_eq_true (by omega)] at hcondition
    obtain ⟨τ, σ', hexec, hstep, hturn⟩ := h.exec_body hb (by omega)
    obtain ⟨σ'', hturns, hend⟩ := ih hturn (by omega) (by omega)
    refine ⟨σ'', ?_, hend⟩
    rw [Loop.turns_step hcondition (by decide) (hbody ▸ hexec) hstep, hturns]

/-! ### A turn for every listed value -/

/-- The memory of a test with the flag when its loop begins a turn. -/
structure Skim (s : Style) (codes : List CodeValue) (k : Nat) (σ : Memory) : Prop where
  place : ∃ c, Spot s codes c k σ
  i : σ.vars "i" = some (BitVec.ofNat 32 k)
  failed : ∃ failed : Nat, σ.vars "failed" = some (BitVec.ofNat 32 failed)
  calls : σ.calls = (codes.take k).map fun v => ⟨v, some (truth true)⟩

theorem Ready.skim (h : Ready s codes σ) : Skim s codes 0 ((σ.set "i" 0#32).set "j" 0#32) where
  place := ⟨0#32, h.spot⟩
  i := by simp
  failed := ⟨0, by simp [h.failed]⟩
  calls := by simp [h.calls]

/-- With the flag a turn takes the next listed value. -/
theorem Skim.exec_body (h : Skim s codes k σ) (hb : s.Serves name word codes b)
    {flags : List String} (hflag : "TEST_ONLY_MATCHES" ∈ flags) (hk : k < codes.length) :
    ∃ τ σ', (s.testLoop name flags).body.exec b σ = some (τ, false) ∧
      (Statement.next (.increment "i") (.increment "c")).run b τ = some σ' ∧
      Skim s codes (k + 1) σ' := by
  obtain ⟨c, hplace⟩ := h.place
  obtain ⟨failed, hfailed⟩ := h.failed
  have hlisted : codes[k]? = some codes[k] := List.getElem?_eq_getElem hk
  have hskip : (Statement.ifElse (.binary .less (.var "j") (.var "n"))
      (.assign "c" (.element "codes" "j")) .leave).exec b σ = some (σ.set "c" codes[k], false) := by
    have hinside := hplace.eval_inside hb
    have hcurrent := hplace.eval_current hb
    rw [decide_eq_true hk] at hinside
    rw [hlisted] at hcurrent
    simp [Statement.exec, hinside, hcurrent, truth]
  have htaken : Spot s codes codes[k] k (σ.set "c" codes[k]) :=
    ⟨hplace.toSetup.put (by decide) _, by simp, by simp [hplace.j], hplace.inside⟩
  have hsame : (σ.set "c" codes[k]).vars "failed" = some (BitVec.ofNat 32 failed) := by
    simp [hfailed]
  obtain ⟨τ, hbody, hpassed, hi, hfailed', hcalls⟩ := htaken.exec_visit hb
    (hb.inside _ (List.getElem_mem hk)) hsame
  simp only [hlisted, if_true, decide_true] at hpassed hcalls
  obtain ⟨count, hcount⟩ : ∃ n : Nat, τ.vars "failed" = some (BitVec.ofNat 32 n) := ⟨_, hfailed'⟩
  have hi' : τ.vars "i" = some (BitVec.ofNat 32 k) := by simp [hi, h.i]
  refine ⟨τ, _, ?_, run_step hi' hpassed.c, ⟨_, hpassed.next⟩, by simp,
    ⟨count, by simp [hcount]⟩, ?_⟩
  · simp only [testLoop, skip, if_pos hflag]
    exact (Statement.exec_next hskip _).trans hbody
  · rw [List.take_succ_eq_append_getElem hk, List.map_append, ← h.calls]
    simpa using hcalls

/-- Behind the last listed value the loop is left. -/
theorem Skim.leave (h : Skim s codes codes.length σ) (hb : s.Serves name word codes b)
    {flags : List String} (hflag : "TEST_ONLY_MATCHES" ∈ flags) :
    (s.testLoop name flags).body.exec b σ = some (σ, true) := by
  obtain ⟨c, hplace⟩ := h.place
  have hinside := hplace.eval_inside hb
  rw [decide_eq_false (Nat.lt_irrefl _)] at hinside
  simp only [testLoop, skip, if_pos hflag]
  refine Statement.exec_next_leave ?_ _
  simp [Statement.exec, hinside, truth]

/-- From any turn on, the loop takes a turn for each of the listed values that are left. -/
theorem Skim.turns (h : Skim s codes k σ) (hb : s.Serves name word codes b)
    {flags : List String} (hflag : "TEST_ONLY_MATCHES" ∈ flags)
    (hlast : codes.length ≤ s.lastTested + 1) (hk : k ≤ codes.length) :
    ∃ σ', (s.testLoop name flags).turns b σ = some σ' ∧ Skim s codes codes.length σ' := by
  obtain ⟨n, hn⟩ := Nat.exists_eq_add_of_le hk
  induction n generalizing k σ with
  | zero =>
    obtain rfl : k = codes.length := hn.symm
    have hcondition := s.eval_condition (b := b) h.i hlast
    -- the loop is left in a turn of its own, or by its condition if no turn is left
    by_cases hend : codes.length ≤ s.lastTested
    · rw [decide_eq_true hend] at hcondition
      exact ⟨σ, Loop.turns_leave hcondition (by decide) (h.leave hb hflag), h⟩
    · rw [decide_eq_false hend] at hcondition
      exact ⟨σ, Loop.turns_end hcondition, h⟩
  | succ n ih =>
    have hcondition := s.eval_condition (b := b) h.i (by omega)
    rw [decide_eq_true (by omega)] at hcondition
    obtain ⟨τ, σ', hbody, hstep, hskim⟩ := h.exec_body hb hflag (by omega)
    obtain ⟨σ'', hturns, hend⟩ := ih hskim (by omega) (by omega)
    exact ⟨σ'', (Loop.turns_step hcondition (by decide) hbody hstep).trans hturns, hend⟩

/-! ### Whole tests -/

theorem run_first (b : Bench) (σ : Memory) (name : String) (flags : List String) :
    (s.testLoop name flags).first.run b σ = some ((σ.set "i" 0#32).set "j" 0#32) := by
  simp [testLoop, Statement.run, Statement.exec, Term.eval]

theorem run_testReport {v : CodeValue} (hfailed : σ.vars "failed" = some v) (b : Bench) :
    (Statement.row s.testReport).run b σ = some σ := by
  have hverdict : (Statement.ifElse (.binary .equal (.var "failed") (.number 0)) .output
      .output).exec b σ = some (σ, false) := by
    simp [Statement.exec, Term.eval, Operator.apply, hfailed]
  refine Statement.run_of_exec ((Statement.exec_next hverdict _).trans ?_)
  split <;> rfl

theorem run_testRoutine {flags : List String} {σ₁ σ₂ : Memory} {counted : CodeValue}
    (hbefore : (Statement.row (s.testSetup (s.listedValues values))).run b (Memory.fresh counted) =
      some σ₁)
    (hloop : (s.testLoop name flags).turns b ((σ₁.set "i" 0#32).set "j" 0#32) = some σ₂)
    {v : CodeValue} (hfailed : σ₂.vars "failed" = some v) :
    (s.testLoop name flags).run b σ₁ = some σ₂ ∧
      (s.testRoutine name values flags).run b (Memory.fresh counted) = some σ₂ := by
  have hrun : (s.testLoop name flags).run b σ₁ = some σ₂ := by
    rw [Loop.run, run_first]
    exact hloop
  refine ⟨hrun, ?_⟩
  rw [Routine.run, testRoutine, hbefore]
  simp only [Option.bind_eq_bind, Option.bind_some, hrun, run_testReport hfailed]

/-- The memory after the test of a classifier where no flag is defined. -/
def runTest (s : Style) (name : String) (values : List CodeValue) (e : Expr) : Option Memory :=
  (s.testRoutine name values []).run (s.bench name values e) (Memory.fresh 0#32)

/-- A test without flags takes one turn for each value up to the last one, and counts the wrong
answers. -/
theorem runTest_turn (name : String) (hsorted : values.Pairwise (· < ·)) {e : Expr}
    (hanswers : ∀ c, s.width.contains c = true →
      ∃ calls, e.run (s.language.scope c) = some (word c, calls)) :
    ∃ σ, s.runTest name values e = some σ ∧
      Turn s word (s.listedValues values) (s.lastTested + 1) σ := by
  have hserves := s.serves_bench name hsorted hanswers
  obtain ⟨σ₁, hbefore, hready⟩ := s.run_testSetup (s.bench name values e) hserves.length 0#32
  have hflag : "TEST_ONLY_MATCHES" ∉ ([] : List String) := List.not_mem_nil
  obtain ⟨σ₂, hturns, hturn⟩ := hready.turn.turns hserves hflag (Nat.zero_le _)
  exact ⟨σ₂, (run_testRoutine hbefore hturns hturn.failed).2, hturn⟩

/-! ### Exact tests -/

section Exact

variable (hsorted : values.Pairwise (· < ·)) {e : Expr}
  (hanswers : ∀ c, s.width.contains c = true →
    ∃ v calls, e.run (s.language.scope c) = some (v, calls))

include hsorted hanswers

theorem exists_serves_bench (name : String) :
    ∃ word, s.Serves name word (s.listedValues values) (s.bench name values e) := by
  let word (c : CodeValue) : CodeValue :=
    ((e.run (s.language.scope c)).map Prod.fst).getD 0#32
  refine ⟨word, s.serves_bench name hsorted fun c hc => ?_⟩
  obtain ⟨v, calls, hrun⟩ := hanswers c hc
  exact ⟨calls, by simp [word, hrun]⟩

/-- The calls of a test, and how far it gets in its list. -/
theorem run_loop (name : String) (flags : List String) {σ : Memory}
    (hready : Ready s (s.listedValues values) σ) :
    ∃ σ', (s.testLoop name flags).turns (s.bench name values e)
        ((σ.set "i" 0#32).set "j" 0#32) = some σ' ∧
      σ'.calls = (if "TEST_ONLY_MATCHES" ∈ flags then
          (s.listedValues values).map fun v => ⟨v, some (truth true)⟩
        else (List.range (s.lastTested + 1)).map fun c => ⟨BitVec.ofNat 32 c,
          some (truth (decide (BitVec.ofNat 32 c ∈ values)))⟩) ∧
      σ'.vars "j" = some (BitVec.ofNat 32 (s.listedValues values).length) ∧
      ∃ v, σ'.vars "failed" = some v := by
  obtain ⟨word, hserves⟩ := exists_serves_bench hsorted hanswers name
  by_cases hflag : "TEST_ONLY_MATCHES" ∈ flags
  · obtain ⟨σ', hturns, hskim⟩ := hready.skim.turns hserves hflag
      (s.length_listedValues_le hsorted) (Nat.zero_le _)
    obtain ⟨c, hplace⟩ := hskim.place
    obtain ⟨failed, hfailed⟩ := hskim.failed
    refine ⟨σ', hturns, ?_, hplace.j, _, hfailed⟩
    rw [hskim.calls, List.take_length, if_pos hflag]
  · obtain ⟨σ', hturns, hturn⟩ := hready.turn.turns hserves hflag (Nat.zero_le _)
    have hj := hturn.j
    rw [rank_eq_length fun v hv => s.listedValues_lt hv] at hj
    refine ⟨σ', hturns, ?_, hj, _, hturn.failed⟩
    rw [hturn.calls, if_neg hflag]
    -- up to the last value, the listed values are the matching ones
    refine List.map_congr_left fun c hc => ?_
    have hlast := s.lastTested_le
    have hc := List.mem_range.mp hc
    have hlisted : BitVec.ofNat 32 c ∈ s.listedValues values ↔ BitVec.ofNat 32 c ∈ values := by
      rw [mem_listedValues, toNat_ofNat_word (by omega)]
      exact and_iff_left (by omega)
    rw [visit, decide_eq_decide.mpr hlisted]

/-- The test of a classifier that answers on the whole domain is exact. Its array is initialized
with the matching values up to the last one that is tested, in order, or with a single zero, and `n`
is their number. If the name of the classifier is read as a name, the text is read as a function
with one loop, under any flags. Although no element of the array may be read but the values, the
loop ends by itself: without the flag after a call for every value from zero on, where `b` tells
whether it matches, and with the flag after a call for every listed value. At the end `j` is `n`.
-/
theorem test_exact (name : String) (flags : List String) (counted : CodeValue) :
    (∃ front n back, s.testFile name values =
        front ++ "\tuint32_t codes[] = \x7b" ++ initializer (s.listedValues values)
          ++ "\n\t\x7d;\n\n" ++ "\tuint32_t c = 0;\n" ++ "\tunsigned failed = 0, i, j, n = " ++ n
          ++ ";\n" ++ back ∧
        (lex ((initializer (s.listedValues values)).toList ++ ['\x7d'])).bind numbers? =
          some (if s.listedValues values = [] then [0]
            else (s.listedValues values).map (·.toNat), []) ∧
        lex n.toList = some [.number (s.listedValues values).length]) ∧
      (IsFree name → Routine.ofText? flags (s.testFile name values).toList =
        some (s.testRoutine name values flags)) ∧
      ∃ σ₁ σ₂,
        (s.testRoutine name values flags).before.run (s.bench name values e)
          (Memory.fresh counted) = some σ₁ ∧
        σ₁.arrays "codes" = (if s.listedValues values = [] then [0#32] else s.listedValues values) ∧
        σ₁.vars "n" = some (BitVec.ofNat 32 (s.listedValues values).length) ∧
        (s.testRoutine name values flags).loop.run (s.bench name values e) σ₁ = some σ₂ ∧
        (s.testRoutine name values flags).run (s.bench name values e) (Memory.fresh counted) =
          some σ₂ ∧
        σ₂.calls = (if "TEST_ONLY_MATCHES" ∈ flags then
            (s.listedValues values).map fun v => ⟨v, some (truth true)⟩
          else (List.range (s.lastTested + 1)).map fun c => ⟨BitVec.ofNat 32 c,
            some (truth (decide (BitVec.ofNat 32 c ∈ values)))⟩) ∧
        σ₂.vars "j" = some (BitVec.ofNat 32 (s.listedValues values).length) := by
  refine ⟨?_, fun hname => s.ofText?_testFile values hname flags, ?_⟩
  · obtain ⟨front, back, htext⟩ := s.testFile_eq name values
    exact ⟨front, _, back, htext, numbers?_initializer _, lex_toString _⟩
  · obtain ⟨word, hserves⟩ := exists_serves_bench hsorted hanswers name
    obtain ⟨σ₁, hbefore, hready⟩ := s.run_testSetup (s.bench name values e) hserves.length counted
    obtain ⟨σ₂, hturns, hcalls, hj, v, hfailed⟩ := run_loop hsorted hanswers name flags hready
    obtain ⟨hloop, hrun⟩ := run_testRoutine hbefore hturns hfailed
    exact ⟨σ₁, σ₂, hbefore, hready.array, hready.n, hloop, hrun, hcalls, hj⟩

end Exact

/-- With the flag, the test of the values 2, 5 and 9 calls a classifier of 3 bits for 2 and 5. -/
theorem test_exact_flagged :
    let s : Style := ⟨.c, true, ⟨3, by decide, by decide⟩⟩
    let values : List CodeValue := [2#32, 5#32, 9#32]
    let e : Expr := .name "c"
    values.Pairwise (· < ·) ∧
      (∀ c, s.width.contains c = true →
        ∃ v calls, e.run (s.language.scope c) = some (v, calls)) ∧
      IsFree "f" ∧
      ∃ r σ, Routine.ofText? ["TEST_ONLY_MATCHES"] (s.testFile "f" values).toList = some r ∧
        r.run (s.bench "f" values e) (Memory.fresh 0#32) = some σ ∧
        σ.calls = [⟨2#32, some 1#32⟩, ⟨5#32, some 1#32⟩] ∧ σ.vars "j" = some 2#32 := by
  intro s values e
  have hsorted : values.Pairwise (· < ·) := by decide
  have hanswers : ∀ c, s.width.contains c = true →
      ∃ v calls, e.run (s.language.scope c) = some (v, calls) :=
    fun c _ => ⟨c, [], by simp [e, Expr.run, Language.scope]⟩
  have hfree : IsFree "f" := ⟨by decide, ⟨'f', by decide, by decide⟩, by decide⟩
  obtain ⟨-, hread, σ₁, σ, -, -, -, -, hrun, hcalls, hj⟩ :=
    test_exact hsorted hanswers "f" ["TEST_ONLY_MATCHES"] 0#32
  have hlisted : s.listedValues values = [2#32, 5#32] := by decide
  rw [hlisted] at hcalls hj
  rw [if_pos (by simp)] at hcalls
  exact ⟨hsorted, hanswers, hfree, _, σ, hread hfree, hrun, hcalls, hj⟩

end Style

end BitClassifier
