import BitClassifier.Proofs.Emit.Execution
import BitClassifier.Proofs.Emit.TestText

/-!
# A turn of an emitted test

The loop of an emitted test (`Style.testLoop`) passes through the domain beside the list of the
matching values. A turn looks for its value in the list (`Spot.exec_look`) and checks the answer of
the classifier (`exec_check`), so that it calls the classifier once, counts a wrong answer and
passes the place of its value (`Spot.exec_visit`). The place in the list is the number of the
smaller values (`rank`).
-/

namespace BitClassifier

open Source

/-! ### Places in the list -/

/-- The number of listed values below a bound. -/
def rank (codes : List CodeValue) (k : Nat) : Nat :=
  codes.countP fun v => decide (v.toNat < k)

section Rank

variable {codes : List CodeValue}

/-- The first value that is not below a value is this value, if it is listed. -/
theorem getElem?_rank (h : codes.Pairwise (· < ·)) (c : CodeValue) :
    codes[rank codes c.toNat]? = some c ↔ c ∈ codes := by
  induction codes with
  | nil => simp
  | cons a codes ih =>
    obtain ⟨hfirst, hrest⟩ := List.pairwise_cons.mp h
    by_cases ha : a.toNat < c.toNat
    · have hne : c ≠ a := by
        rintro rfl
        exact Nat.lt_irrefl _ ha
      have hrank : rank (a :: codes) c.toNat = rank codes c.toNat + 1 := by
        simp [rank, ha]
      rw [hrank, List.getElem?_cons_succ, ih hrest, List.mem_cons, or_iff_right hne]
    · -- nothing behind `a` is smaller than `a`, so that the rank is zero
      have hnone : ∀ v ∈ codes, ¬ v.toNat < c.toNat := by
        intro v hv hlt
        have hav := BitVec.lt_def.mp (hfirst v hv)
        omega
      have hrank : rank (a :: codes) c.toNat = 0 := by
        rw [rank, List.countP_eq_zero]
        intro v hv
        rcases List.mem_cons.mp hv with rfl | hv
        · simpa using ha
        · simpa using hnone v hv
      rw [hrank, List.getElem?_cons_zero, List.mem_cons]
      constructor
      · rintro h
        exact .inl (Option.some.inj h).symm
      · rintro (rfl | hc)
        · rfl
        · exact absurd (BitVec.lt_def.mp (hfirst c hc)) ha

theorem rank_cons (a : CodeValue) (codes : List CodeValue) (k : Nat) :
    rank (a :: codes) k = rank codes k + if a.toNat < k then 1 else 0 := by
  simp [rank, List.countP_cons]

theorem rank_succ (h : codes.Pairwise (· < ·)) (c : CodeValue) :
    rank codes (c.toNat + 1) = rank codes c.toNat + if c ∈ codes then 1 else 0 := by
  induction codes with
  | nil => rfl
  | cons a codes ih =>
    obtain ⟨hfirst, hrest⟩ := List.pairwise_cons.mp h
    rw [rank_cons, rank_cons, ih hrest]
    by_cases hca : c = a
    · subst hca
      have hc : c ∉ codes := fun hc => absurd (BitVec.lt_def.mp (hfirst c hc)) (Nat.lt_irrefl _)
      simp [hc]
    · have hne : a.toNat ≠ c.toNat := fun heq => hca (BitVec.eq_of_toNat_eq heq).symm
      have hlt : a.toNat < c.toNat + 1 ↔ a.toNat < c.toNat := by omega
      simp only [List.mem_cons, hca, false_or, hlt]
      omega

theorem rank_le (h : codes.Pairwise (· < ·)) {k : Nat} (hk : k ≤ 2 ^ 32) : rank codes k ≤ k := by
  induction k with
  | zero => simp [rank]
  | succ k ih =>
    have hsucc := rank_succ h (BitVec.ofNat 32 k)
    rw [BitVec.toNat_ofNat, Nat.mod_eq_of_lt hk] at hsucc
    have hle := ih (by omega)
    split at hsucc <;> omega

theorem rank_eq_length {k : Nat} (h : ∀ v ∈ codes, v.toNat < k) : rank codes k = codes.length := by
  rw [rank, List.countP_eq_length]
  simpa using h

end Rank

namespace Style

/-- The bench of a classifier that answers with words on the whole domain, for a list of its values
in ascending order, behind which nothing may be read. -/
structure Serves (s : Style) (name : String) (word : CodeValue → CodeValue)
    (codes : List CodeValue) (b : Bench) : Prop where
  language : b.language = s.language
  name : b.name = name
  answers : ∀ c, s.width.contains c = true →
    ∃ calls, b.expression.run (s.language.scope c) = some (word c, calls)
  bound : b.bound = codes.length
  sorted : codes.Pairwise (· < ·)
  inside : ∀ v ∈ codes, s.width.contains v = true
  /-- The list is short enough for its places to be words. -/
  length : codes.length < 2 ^ 32

/-- The answer of an emitted classifier that returns a word. -/
def answer (s : Style) (word : CodeValue → CodeValue) (c : CodeValue) : CodeValue :=
  converted s.language.boolType (word c)

end Style

/-! ### One turn -/

theorem ofNat_succ (n : Nat) : BitVec.ofNat 32 n + 1#32 = BitVec.ofNat 32 (n + 1) :=
  (BitVec.ofNat_add ..).symm

theorem toNat_ofNat_word {n : Nat} (h : n < 2 ^ 32) : (BitVec.ofNat 32 n).toNat = n := by
  rw [BitVec.toNat_ofNat, Nat.mod_eq_of_lt h]

open Style (jumpCounts)

section Parts

variable {s : Style} {name : String} {word : CodeValue → CodeValue} {codes : List CodeValue}
  {b : Bench} {σ σ' τ : Memory} {c : CodeValue} {j : Nat}

/-- What stays the same in a test while its loop runs: the list and its length. -/
structure Setup (s : Style) (codes : List CodeValue) (σ : Memory) : Prop where
  n : σ.vars "n" = some (BitVec.ofNat 32 codes.length)
  list : ∀ k < codes.length, (σ.arrays "codes")[k]? = codes[k]?
  /-- The numbers of instructions are there. -/
  jumps : s.profiler = true → ∀ x ∈ jumpCounts, ∃ v, σ.vars x = some v

theorem Setup.put (h : Setup s codes σ) {x : String} (hx : x ∉ "n" :: jumpCounts)
    (v : Option CodeValue) : Setup s codes (σ.put x v) where
  n := by
    have hne : "n" ≠ x := fun heq => hx (heq ▸ List.mem_cons_self ..)
    rw [Memory.vars_put, if_neg hne, h.n]
  list := h.list
  jumps := by
    intro hprofiler y hy
    have hne : y ≠ x := fun heq => hx (heq ▸ List.mem_cons_of_mem _ hy)
    rw [Memory.vars_put, if_neg hne]
    exact h.jumps hprofiler y hy

/-- The variables with which a turn looks for its value: the value and a place in the list. -/
structure Spot (s : Style) (codes : List CodeValue) (value : CodeValue) (place : Nat)
    (σ : Memory) : Prop extends Setup s codes σ where
  c : σ.vars "c" = some value
  j : σ.vars "j" = some (BitVec.ofNat 32 place)
  inside : place ≤ codes.length

theorem Spot.eval_inside (h : Spot s codes c j σ) (hb : s.Serves name word codes b) :
    (Term.binary .less (.var "j") (.var "n")).eval b σ =
      some (truth (decide (j < codes.length)), σ) := by
  have hinside := h.inside
  have hlength := hb.length
  have hless : (BitVec.ofNat 32 j < BitVec.ofNat 32 codes.length) ↔ j < codes.length := by
    rw [BitVec.lt_def, toNat_ofNat_word hlength, toNat_ofNat_word (by omega)]
  simp [Term.eval, Operator.apply, h.j, h.n, hless]

theorem Spot.eval_current (h : Spot s codes c j σ) (hb : s.Serves name word codes b) :
    (Term.element "codes" "j").eval b σ = codes[j]?.map fun v => (v, σ) := by
  have hinside := h.inside
  have hlength := hb.length
  have hindex : (BitVec.ofNat 32 j).toNat = j := toNat_ofNat_word (by omega)
  by_cases hj : j < codes.length
  · simp [Term.eval, h.j, hindex, hb.bound, hj, h.list j hj]
  · simp [Term.eval, h.j, hindex, hb.bound, hj]

theorem Spot.eval_equal (h : Spot s codes c j σ) (hb : s.Serves name word codes b)
    (hj : j < codes.length) :
    (Term.binary .equal (.var "c") (.element "codes" "j")).eval b σ =
      some (truth (decide (codes[j]? = some c)), σ) := by
  have hvalue : (Term.var "c").eval b σ = some (c, σ) := by simp [Term.eval, h.c]
  have hcurrent := h.eval_current hb
  rw [List.getElem?_eq_getElem hj] at hcurrent ⊢
  rw [Term.eval, hvalue]
  simp only [Option.bind_eq_bind, Option.bind_some]
  rw [hcurrent]
  have hsame : (c == codes[j]) = decide (codes[j] = c) := by
    rw [Bool.eq_iff_iff, beq_iff_eq, decide_eq_true_iff, eq_comm]
  simp [Operator.apply, -beq_iff_eq, hsame]

theorem Spot.eval_listed (h : Spot s codes c j σ) (hb : s.Serves name word codes b) :
    Style.listed.eval b σ = some (truth (decide (codes[j]? = some c)), σ) := by
  rw [Style.listed, Term.eval, h.eval_inside hb]
  -- `&&` keeps the test from reading the list behind its end
  by_cases hj : j < codes.length
  · simp [hj, h.eval_equal hb hj, truth, Operator.apply]
  · simp [hj, truth]

/-- The memory when a turn has looked for its value. -/
def looked (found : Bool) (j : Nat) (σ : Memory) : Memory :=
  if found then (σ.set "b" (truth true)).set "j" (BitVec.ofNat 32 (j + 1))
  else σ.set "b" (truth false)

theorem vars_looked {x : String} (found : Bool) (j : Nat) (σ : Memory) (hx : x ∉ ["b", "j"]) :
    (looked found j σ).vars x = σ.vars x := by
  obtain ⟨hb, hj⟩ : x ≠ "b" ∧ x ≠ "j" := by simpa using hx
  cases found <;> simp [looked, hb, hj]

theorem vars_looked_b (found : Bool) (j : Nat) (σ : Memory) :
    (looked found j σ).vars "b" = some (truth found) := by
  cases found <;> simp [looked]

theorem calls_looked (found : Bool) (j : Nat) (σ : Memory) :
    (looked found j σ).calls = σ.calls := by
  cases found <;> rfl

theorem Spot.exec_look (h : Spot s codes c j σ) (hb : s.Serves name word codes b) :
    (Statement.row s.look).exec b σ =
      some (looked (decide (codes[j]? = some c)) j σ, false) := by
  have hdeclare : (Statement.declare s.language.boolType "b" (some Style.listed)).exec b σ =
      some (σ.set "b" (truth (decide (codes[j]? = some c))), false) := by
    simp [Statement.exec, h.eval_listed hb]
  refine (Statement.exec_next hdeclare _).trans ?_
  by_cases hfound : codes[j]? = some c
  · simp [Statement.exec, Term.eval, looked, hfound, truth, h.j, ofNat_succ]
  · simp [Statement.exec, Term.eval, looked, hfound, truth]

/-- A memory after the answer for a value was checked: only the number of wrong answers and the
numbers of instructions may be others. -/
structure Checked (s : Style) (σ : Memory) (failed : Nat) (calls : List Call) (σ' : Memory) :
    Prop where
  same : ∀ x, x ≠ "failed" → x ∉ jumpCounts → σ'.vars x = σ.vars x
  arrays : σ'.arrays = σ.arrays
  failed : σ'.vars "failed" = some (BitVec.ofNat 32 failed)
  calls : σ'.calls = calls
  jumps : s.profiler = true → ∀ x ∈ jumpCounts, ∃ v, σ'.vars x = some v

variable {failed : Nat} {calls : List Call}

theorem Checked.vars_eq (h : Checked s σ failed calls σ') {x : String}
    (hx : x ∉ "failed" :: jumpCounts) : σ'.vars x = σ.vars x := by
  obtain ⟨hfailed, hjumps⟩ := not_or.mp (mt List.mem_cons.mpr hx)
  exact h.same x hfailed hjumps

theorem Checked.set_jumps (h : Checked s σ failed calls τ) {x : String} (hx : x ∈ jumpCounts)
    (v : CodeValue) : Checked s σ failed calls (τ.set x v) where
  same := by
    intro y hy hjump
    have hne : y ≠ x := fun heq => hjump (heq ▸ hx)
    rw [Memory.vars_put, if_neg hne, h.same y hy hjump]
  arrays := h.arrays
  failed := by
    have hothers : ∀ y ∈ jumpCounts, "failed" ≠ y := by decide
    rw [Memory.vars_put, if_neg (hothers x hx), h.failed]
  calls := h.calls
  jumps := by
    intro hprofiler y hy
    rw [Memory.vars_put]
    split
    · exact ⟨v, rfl⟩
    · exact h.jumps hprofiler y hy

theorem keeps_increase (hlanguage : b.language = s.language) (hprofiler : s.profiler = true)
    {x : String} (hx : x ∈ jumpCounts) :
    Statement.Keeps b (Checked s σ failed calls)
      (.increase x (.call (s.language.counter .count))) := by
  intro τ h
  obtain ⟨v, hv⟩ := h.jumps hprofiler x hx
  exact ⟨τ.set x (v + τ.counted), by simp [Statement.exec, Term.eval, hlanguage, hv],
    h.set_jumps hx _⟩

/-- The statements that count instructions change nothing that is tested. -/
theorem keeps_counting {found : CodeValue} (hlanguage : b.language = s.language)
    (hprofiler : s.profiler = true) (hc : σ.vars "c" = some c) (hb : σ.vars "b" = some found) :
    Statement.Keeps b (Checked s σ failed calls) (.row s.counting) := by
  have hincrease {x : String} (hx : x ∈ jumpCounts) :
      Statement.Keeps b (Checked s σ failed calls)
        (.increase x (.call (s.language.counter .count))) :=
    keeps_increase hlanguage hprofiler hx
  refine .row fun statement hmem => ?_
  simp only [Style.counting, List.mem_cons, List.not_mem_nil, or_false] at hmem
  rcases hmem with rfl | rfl | rfl
  · refine .ifElse (fun τ h => ⟨found, ?_⟩) (hincrease (by decide)) (hincrease (by decide))
    have hfound := (h.vars_eq (x := "b") (by decide)).trans hb
    simp [Term.eval, hfound]
  · refine .ifThen (fun τ h => ⟨truth (decide (c < 128#32)), ?_⟩) (hincrease (by decide))
    have hvalue := (h.vars_eq (x := "c") (by decide)).trans hc
    simp [Term.eval, Operator.apply, literal?, hvalue]
  · refine .ifThen (fun τ h => ?_) fun τ h => ?_
    · obtain ⟨v, hv⟩ := h.jumps hprofiler "max_jumps" (by decide)
      exact ⟨_, by simp [Term.eval, hlanguage, hv]; rfl⟩
    · exact ⟨τ.set "max_jumps" τ.counted, by simp [Statement.exec, Term.eval, hlanguage],
        h.set_jumps (by decide) _⟩

section Check

variable (hb : s.Serves name word codes b) (hdomain : s.width.contains c = true)
  {found : CodeValue} (hc : σ.vars "c" = some c) (hfound : σ.vars "b" = some found)
  (hfailed : σ.vars "failed" = some (BitVec.ofNat 32 failed))
  (hjumps : s.profiler = true → ∀ x ∈ jumpCounts, ∃ v, σ.vars x = some v)

include hb hdomain hc hfound hfailed hjumps

/-- The test compares one answer of the classifier with what it expects. -/
theorem exec_compare :
    ∃ σ', (Statement.ifThen (.binary .notEqual (.apply name "c") (.var "b"))
        (.row [.output, .increment "failed"])).exec b σ = some (σ', false) ∧
      Checked s σ (failed + if s.answer word c != found then 1 else 0)
        (σ.calls ++ [⟨c, some found⟩]) σ' := by
  obtain ⟨counters, hrun⟩ := hb.answers c hdomain
  -- the call leaves a number of counted instructions behind, and changes no variable
  have hcondition : (Term.binary .notEqual (.apply name "c") (.var "b")).eval b σ =
      some (truth (s.answer word c != found), σ.called c (s.language.counted counters)) := by
    simp [Term.eval, Operator.apply, Style.answer, hb.name, hb.language, hc, hrun, hfound]
  cases hwrong : s.answer word c != found with
  | false =>
    rw [hwrong] at hcondition
    refine ⟨σ.called c (s.language.counted counters), ?_, fun _ _ _ => rfl, rfl, hfailed, ?_,
      hjumps⟩
    · simp [Statement.exec, hcondition, truth]
    · simp [hfound]
  | true =>
    rw [hwrong] at hcondition
    refine ⟨(σ.called c (s.language.counted counters)).set "failed"
      (BitVec.ofNat 32 (failed + 1)), ?_, ?_, rfl, by simp, by simp [hfound], ?_⟩
    · simp [Statement.exec, Statement.row, hcondition, truth, hfailed, ofNat_succ]
    · intro x hx _
      simp [hx]
    · intro hprofiler x hx
      have hothers : ∀ y ∈ jumpCounts, y ≠ "failed" := by decide
      rw [Memory.vars_put, if_neg (hothers x hx)]
      exact hjumps hprofiler x hx

/-- The test calls the classifier once, and counts a wrong answer. -/
theorem exec_check :
    ∃ σ', (Statement.row (s.check name)).exec b σ = some (σ', false) ∧
      Checked s σ (failed + if s.answer word c != found then 1 else 0)
        (σ.calls ++ [⟨c, some found⟩]) σ' := by
  obtain ⟨τ, hexec, hτ⟩ := exec_compare hb hdomain hc hfound hfailed hjumps
  have hcounting : Statement.Keeps b (Checked s σ
      (failed + if s.answer word c != found then 1 else 0) (σ.calls ++ [⟨c, some found⟩]))
      (.row (if s.profiler then s.counting else [])) := by
    by_cases hprofiler : s.profiler = true
    · rw [if_pos hprofiler]
      exact keeps_counting hb.language hprofiler hc hfound
    · rw [if_neg hprofiler]
      exact .row fun _ h => absurd h List.not_mem_nil
  obtain ⟨σ', hrest, hσ'⟩ := hcounting τ hτ
  exact ⟨σ', (Statement.exec_next hexec _).trans hrest, hσ'⟩

end Check

theorem Spot.looked (h : Spot s codes c j σ) :
    Spot s codes c (if codes[j]? = some c then j + 1 else j)
      (looked (decide (codes[j]? = some c)) j σ) := by
  have hb := h.toSetup.put (x := "b") (by decide)
  by_cases hfound : codes[j]? = some c
  · have hj : j < codes.length := (List.getElem?_eq_some_iff.mp hfound).1
    simp only [hfound, decide_true, BitClassifier.looked, if_true]
    exact ⟨(hb _).put (by decide) _, by simp [h.c], by simp, hj⟩
  · simp only [hfound, decide_false, BitClassifier.looked, if_false, Bool.false_eq_true]
    exact ⟨hb _, by simp [h.c], by simp [h.j], h.inside⟩

theorem Spot.checked (h : Spot s codes c j σ) (hσ' : Checked s σ failed calls σ') :
    Spot s codes c j σ' where
  n := (hσ'.vars_eq (by decide)).trans h.n
  list := hσ'.arrays ▸ h.list
  jumps := hσ'.jumps
  c := (hσ'.vars_eq (by decide)).trans h.c
  j := (hσ'.vars_eq (by decide)).trans h.j
  inside := h.inside

theorem Spot.next {v : CodeValue} (h : Spot s codes c j σ) :
    Spot s codes (c + 1#32) j ((σ.set "i" v).set "c" (c + 1#32)) where
  toSetup := (h.toSetup.put (by decide) _).put (by decide) _
  c := by simp
  j := by simp [h.j]
  inside := h.inside

/-- A turn with a value calls the classifier once for it, expects that it is listed exactly if it
stands at the place in the list, and passes the place if so. -/
theorem Spot.exec_visit (h : Spot s codes c j σ) (hb : s.Serves name word codes b)
    (hdomain : s.width.contains c = true)
    (hfailed : σ.vars "failed" = some (BitVec.ofNat 32 failed)) :
    ∃ σ', (Statement.row (s.look ++ s.check name)).exec b σ = some (σ', false) ∧
      Spot s codes c (if codes[j]? = some c then j + 1 else j) σ' ∧
      σ'.vars "i" = σ.vars "i" ∧
      σ'.vars "failed" = some (BitVec.ofNat 32
        (failed + if s.answer word c != truth (decide (codes[j]? = some c)) then 1 else 0)) ∧
      σ'.calls = σ.calls ++ [⟨c, some (truth (decide (codes[j]? = some c)))⟩] := by
  have hplace := h.looked
  have hsame := (vars_looked (decide (codes[j]? = some c)) j σ (by decide)).trans hfailed
  obtain ⟨σ', hcheck, hσ'⟩ :=
    exec_check hb hdomain hplace.c (vars_looked_b ..) hsame hplace.jumps
  refine ⟨σ', ?_, hplace.checked hσ', ?_, hσ'.failed, ?_⟩
  · rw [Statement.exec_row_append (h.exec_look hb), hcheck]
  · exact (hσ'.vars_eq (by decide)).trans (vars_looked _ j σ (by decide))
  · rw [hσ'.calls, calls_looked]

end Parts

end BitClassifier
