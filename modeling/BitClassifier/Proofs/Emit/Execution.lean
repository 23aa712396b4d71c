import BitClassifier.Proofs.Emit.Meaning
import BitClassifier.Proofs.Source.Routine

/-!
# Running emitted tests

The statements of an emitted test, as they are read from its text, change a memory of words
(`Statement.exec`), and its loop is taken turn by turn (`Loop.turns`). All variables are words of 32
bits. A classifier answers with the value of its expression, converted to the type that it declares,
and leaves behind the number of the instructions that were counted. The calls of the classifier are
kept on record.
-/

namespace BitClassifier

open Source

/-- A call of a classifier: its argument, and what the variable with the expected answer holds. -/
structure Call where
  argument : CodeValue
  expected : Option CodeValue
deriving DecidableEq

/-- The variables of an emitted test, the number of counted instructions, and the calls of the
classifier so far. -/
structure Memory where
  vars : String → Option CodeValue
  arrays : String → List CodeValue
  counted : CodeValue
  calls : List Call

namespace Memory

/-- The memory before anything is declared. -/
def fresh (counted : CodeValue) : Memory where
  vars _ := none
  arrays _ := []
  counted
  calls := []

/-- A memory with one variable set, or without a value. -/
def put (σ : Memory) (name : String) (v : Option CodeValue) : Memory :=
  { σ with vars := fun x => if x = name then v else σ.vars x }

/-- A memory with one variable set. -/
abbrev set (σ : Memory) (name : String) (v : CodeValue) : Memory :=
  σ.put name (some v)

/-- A memory with an array. -/
def setArray (σ : Memory) (name : String) (vs : List CodeValue) : Memory :=
  { σ with arrays := fun x => if x = name then vs else σ.arrays x }

/-- A memory after a call of the classifier. -/
def called (σ : Memory) (c counted : CodeValue) : Memory :=
  { σ with counted, calls := σ.calls ++ [⟨c, σ.vars "b"⟩] }

variable (σ : Memory) (name x : String) (v : Option CodeValue) (vs : List CodeValue)
  (c counted : CodeValue)

@[simp] theorem vars_put : (σ.put name v).vars x = if x = name then v else σ.vars x := rfl

@[simp] theorem arrays_put : (σ.put name v).arrays = σ.arrays := rfl

@[simp] theorem calls_put : (σ.put name v).calls = σ.calls := rfl

@[simp] theorem vars_setArray : (σ.setArray name vs).vars = σ.vars := rfl

@[simp] theorem arrays_setArray :
    (σ.setArray name vs).arrays x = if x = name then vs else σ.arrays x := rfl

@[simp] theorem calls_setArray : (σ.setArray name vs).calls = σ.calls := rfl

@[simp] theorem vars_called : (σ.called c counted).vars = σ.vars := rfl

@[simp] theorem arrays_called : (σ.called c counted).arrays = σ.arrays := rfl

@[simp] theorem calls_called : (σ.called c counted).calls = σ.calls ++ [⟨c, σ.vars "b"⟩] := rfl

end Memory

/-- What an emitted test is run with. -/
structure Bench where
  language : Language
  /-- The name of the classifier. -/
  name : String
  /-- The expression that the classifier returns. -/
  expression : Expr
  /-- The number of elements of an array that may be read. -/
  bound : Nat

/-- A value as one of a type: a Boolean is 1 or 0, and other types keep the word. -/
def converted (type : String) (v : CodeValue) : CodeValue :=
  if type = "bool" then truth (v != 0#32) else v

@[simp] theorem converted_truth (type : String) (answer : Bool) :
    converted type (truth answer) = truth answer := by
  cases answer <;> simp [converted, truth]

/-- The number of counted instructions after calls of counting functions. -/
def Language.counted (l : Language) (calls : List String) : CodeValue :=
  calls.foldl
    (fun n function =>
      if function = l.counter .moreTrue ∨ function = l.counter .moreFalse then n + 1#32
      else if function = l.counter .lessTrue ∨ function = l.counter .lessFalse then n - 1#32
      else n)
    0#32

namespace Source

/-- The word that a number is. -/
def literal? (n : Nat) : Option CodeValue :=
  if n < 2 ^ 32 then some (BitVec.ofNat 32 n) else none

theorem literal?_of_lt {n : Nat} (h : n < 2 ^ 32) : literal? n = some (BitVec.ofNat 32 n) :=
  if_pos h

@[simp] theorem literal?_zero : literal? 0 = some 0#32 := rfl

@[simp] theorem literal?_toNat (v : CodeValue) : literal? v.toNat = some v := by
  rw [literal?, if_pos v.isLt, BitVec.ofNat_toNat, BitVec.setWidth_eq]

/-- The value of an operator. Words are compared without sign. -/
def Operator.apply (v v' : CodeValue) : Operator → CodeValue
  | less => truth (decide (v < v'))
  | atMost => truth (decide (v ≤ v'))
  | greater => truth (decide (v' < v))
  | equal => truth (v == v')
  | notEqual => truth (v != v')
  | and => truth (v != 0#32 && v' != 0#32)

/-- The value of a term, and the memory that is left. -/
def Term.eval (b : Bench) : Term → Memory → Option (CodeValue × Memory)
  | number n, σ => (literal? n).map fun v => (v, σ)
  | var name, σ => (σ.vars name).map fun v => (v, σ)
  | element array index, σ => do
    let i ← σ.vars index
    if i.toNat < b.bound then ((σ.arrays array)[i.toNat]?).map fun v => (v, σ) else none
  | call function, σ =>
    if function = b.language.counter .count then some (σ.counted, σ) else none
  | apply function argument, σ => do
    let c ← σ.vars argument
    if function = b.name then
      let (v, calls) ← b.expression.run (b.language.scope c)
      return (converted b.language.boolType v, σ.called c (b.language.counted calls))
    else none
  | binary op left right, σ => do
    let (v, σ) ← left.eval b σ
    if op = .and ∧ v = 0#32 then return (0#32, σ)
    else
      let (v', σ) ← right.eval b σ
      return (op.apply v v', σ)

namespace Statement

/-- The memory after a statement, and whether the loop is left. -/
def exec (b : Bench) : Statement → Memory → Option (Memory × Bool)
  | empty, σ | output, σ => some (σ, false)
  | assign name value, σ => do
    let (v, σ) ← value.eval b σ
    return (σ.set name v, false)
  | declare type name (some value), σ => do
    let (v, σ) ← value.eval b σ
    return (σ.set name (converted type v), false)
  | declare _ name none, σ => some (σ.put name none, false)
  | array name elements, σ => do
    let vs ← elements.mapM literal?
    return (σ.setArray name vs, false)
  | increment name, σ => do
    let v ← σ.vars name
    return (σ.set name (v + 1#32), false)
  | increase name amount, σ => do
    let (v, σ) ← amount.eval b σ
    let v' ← σ.vars name
    return (σ.set name (v' + v), false)
  | leave, σ => some (σ, true)
  | ifThen condition yes, σ => do
    let (v, σ) ← condition.eval b σ
    if v = 0#32 then return (σ, false) else yes.exec b σ
  | ifElse condition yes no, σ => do
    let (v, σ) ← condition.eval b σ
    if v = 0#32 then no.exec b σ else yes.exec b σ
  | next first second, σ => do
    let (σ, left) ← first.exec b σ
    if left then return (σ, true) else second.exec b σ

/-- The memory after a statement that stands outside of loops, so that it leaves none. -/
def run (b : Bench) (s : Statement) (σ : Memory) : Option Memory := do
  let (σ, left) ← s.exec b σ
  if left then none else return σ

section Rows

variable {b : Bench} {σ σ' : Memory} {P : Memory → Prop}

theorem exec_next {first : Statement} (h : first.exec b σ = some (σ', false))
    (second : Statement) : (next first second).exec b σ = second.exec b σ' := by
  simp [exec, h]

theorem exec_next_leave {first : Statement} (h : first.exec b σ = some (σ', true))
    (second : Statement) : (next first second).exec b σ = some (σ', true) := by
  simp [exec, h]

theorem exec_row_append {first : List Statement} (h : (row first).exec b σ = some (σ', false))
    (rest : List Statement) : (row (first ++ rest)).exec b σ = (row rest).exec b σ' := by
  induction first generalizing σ with
  | nil =>
    obtain rfl : σ = σ' := by simpa [row, exec] using h
    rfl
  | cons s first ih =>
    change (next s (row first)).exec b σ = some (σ', false) at h
    change (next s (row (first ++ rest))).exec b σ = (row rest).exec b σ'
    cases hs : s.exec b σ with
    | none => simp [exec, hs] at h
    | some result =>
      obtain ⟨τ, left⟩ := result
      cases left with
      | true => simp [exec, hs] at h
      | false =>
        rw [exec_next hs] at h ⊢
        exact ih h

theorem run_of_exec {s : Statement} (h : s.exec b σ = some (σ', false)) :
    s.run b σ = some σ' := by
  simp [run, h]

/-- The statement stays in the loop and keeps a property of the memory. -/
def Keeps (b : Bench) (P : Memory → Prop) (s : Statement) : Prop :=
  ∀ σ, P σ → ∃ σ', s.exec b σ = some (σ', false) ∧ P σ'

theorem Keeps.ifThen {condition : Term} {yes : Statement}
    (hcondition : ∀ σ, P σ → ∃ v, condition.eval b σ = some (v, σ)) (hyes : Keeps b P yes) :
    Keeps b P (.ifThen condition yes) := by
  intro σ h
  obtain ⟨v, hv⟩ := hcondition σ h
  by_cases hzero : v = 0#32
  · exact ⟨σ, by simp [exec, hv, hzero], h⟩
  · obtain ⟨σ', hσ', h'⟩ := hyes σ h
    exact ⟨σ', by simp [exec, hv, hzero, hσ'], h'⟩

theorem Keeps.ifElse {condition : Term} {yes no : Statement}
    (hcondition : ∀ σ, P σ → ∃ v, condition.eval b σ = some (v, σ)) (hyes : Keeps b P yes)
    (hno : Keeps b P no) : Keeps b P (.ifElse condition yes no) := by
  intro σ h
  obtain ⟨v, hv⟩ := hcondition σ h
  by_cases hzero : v = 0#32
  · obtain ⟨σ', hσ', h'⟩ := hno σ h
    exact ⟨σ', by simp [exec, hv, hzero, hσ'], h'⟩
  · obtain ⟨σ', hσ', h'⟩ := hyes σ h
    exact ⟨σ', by simp [exec, hv, hzero, hσ'], h'⟩

theorem Keeps.row {ss : List Statement} (hss : ∀ s ∈ ss, Keeps b P s) : Keeps b P (row ss) := by
  intro σ h
  induction ss generalizing σ with
  | nil => exact ⟨σ, rfl, h⟩
  | cons s rest ih =>
    obtain ⟨τ, hs, hτ⟩ := hss s (List.mem_cons_self ..) σ h
    obtain ⟨σ', hrest, h'⟩ := ih (fun s hs => hss s (List.mem_cons_of_mem _ hs)) τ hτ
    exact ⟨σ', (exec_next hs _).trans hrest, h'⟩

end Rows

end Statement

namespace Loop

/-- The memory when a loop that has begun is over. -/
def turns (l : Loop) (b : Bench) (σ : Memory) : Option Memory := do
  let (v, σ) ← l.condition.eval b σ
  if v = 0#32 then return σ
  else
    let (σ, left) ← l.body.exec b σ
    if left then return σ
    else
      let σ ← l.step.run b σ
      l |>.turns b σ
partial_fixpoint

section Turns

variable {l : Loop} {b : Bench} {σ τ τ' : Memory} {v : CodeValue}

theorem turns_end (hcondition : l.condition.eval b σ = some (0#32, τ)) :
    l.turns b σ = some τ := by
  rw [turns, hcondition]
  rfl

theorem turns_leave (hcondition : l.condition.eval b σ = some (v, τ)) (hv : v ≠ 0#32)
    (hbody : l.body.exec b τ = some (τ', true)) : l.turns b σ = some τ' := by
  rw [turns, hcondition]
  simp [hv, hbody]

theorem turns_step (hcondition : l.condition.eval b σ = some (v, τ)) (hv : v ≠ 0#32)
    (hbody : l.body.exec b τ = some (τ', false)) {σ' : Memory}
    (hstep : l.step.run b τ' = some σ') : l.turns b σ = l.turns b σ' := by
  rw [turns, hcondition]
  simp [hv, hbody, hstep]

end Turns

/-- The memory after a loop. -/
def run (l : Loop) (b : Bench) (σ : Memory) : Option Memory := do
  let σ ← l.first.run b σ
  l.turns b σ

end Loop

/-- The memory after a function. -/
def Routine.run (r : Routine) (b : Bench) (σ : Memory) : Option Memory := do
  let σ ← r.before.run b σ
  let σ ← r.loop.run b σ
  r.after.run b σ

end Source

end BitClassifier
