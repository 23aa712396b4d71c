import BitClassifier.Proofs.Source.Grammar
import BitClassifier.Proofs.Source.Macro
import Mathlib.Algebra.Group.Nat.Defs

/-!
# The meaning of expressions

A text is parsed as an expression under macros (`Parses`): it is cut into lexemes, the macros are
expanded, and the lexemes are derived. An expression is evaluated in a scope that knows the names
(`Expr.run`). All values are words of 32 bits; a truth value is 1 or 0. The right operand of `&&`
and `||` and the branches of a conditional are evaluated only if they are needed, and the functions
are called from left to right.
-/

namespace BitClassifier.Source

/-- A truth value as a word. -/
def truth (b : Bool) : CodeValue :=
  if b then 1#32 else 0#32

@[simp] theorem truth_ne_zero (b : Bool) : truth b ≠ 0#32 ↔ b = true := by
  cases b <;> decide

/-- What names stand for. -/
structure Scope where
  value? : String → Option CodeValue
  /-- The value that a function without parameters returns. -/
  result? : String → Option CodeValue

/-- The value of an operator that evaluates both of its operands. -/
def BinaryOp.apply (v v' : CodeValue) : BinaryOp → CodeValue
  | or => truth (v != 0#32 || v' != 0#32)
  | and => truth (v != 0#32 && v' != 0#32)
  | bitAnd => v &&& v'
  | equal => truth (v == v')
  | notEqual => truth (v != v')

/-- Whether the value of the left operand decides. -/
def BinaryOp.decides (v : CodeValue) : BinaryOp → Bool
  | or => v != 0#32
  | and => v == 0#32
  | _ => false

namespace Expr

/-- The value of an expression and the functions that are called, if all names are known and all
numbers are words. -/
def run (σ : Scope) : Expr → Option (CodeValue × List String)
  | number n => if n < 2 ^ 32 then some (BitVec.ofNat 32 n, []) else none
  | name text => (σ.value? text).map fun v => (v, [])
  | call function => (σ.result? function).map fun v => (v, [function])
  | not e => do
    let (v, calls) ← e.run σ
    return (truth (v == 0#32), calls)
  | binary op left right => do
    let (v, calls) ← left.run σ
    if op.decides v then return (truth (v != 0#32), calls)
    else
      let (v', calls') ← right.run σ
      return (op.apply v v', calls ++ calls')
  | cond test yes no => do
    let (v, calls) ← test.run σ
    let (v', calls') ← if v = 0#32 then no.run σ else yes.run σ
    return (v', calls ++ calls')

/-- Conjunctions mean the same however they are grouped. -/
theorem run_and_assoc (σ : Scope) (a b c : Expr) :
    (binary .and (binary .and a b) c).run σ = (binary .and a (binary .and b c)).run σ := by
  simp only [run, BinaryOp.decides, BinaryOp.apply]
  cases a.run σ with
  | none => rfl
  | some va =>
    obtain ⟨v, calls⟩ := va
    by_cases hv : v = 0#32
    · simp [hv, truth]
    · cases b.run σ with
      | none => simp [hv]
      | some vb =>
        obtain ⟨v', calls'⟩ := vb
        by_cases hv' : v' = 0#32
        · simp [hv, hv', truth]
        · cases c.run σ <;> simp [hv, hv', truth]

end Expr

/-- Conjunctions in a row are a conjunction. -/
theorem Derives.and {ls rs : List Lexeme} {left right : Expr} (hleft : Derives 2 ls left)
    (hright : Derives 2 rs right) :
    ∃ e, Derives 2 (ls ++ .op .and :: rs) e ∧
      ∀ σ, e.run σ = (Expr.binary .and left right).run σ := by
  generalize hlevel : 2 = level at hright
  induction hright with
  | @binary op ls' rs' left' right' hleft' hright' ihLeft ihRight =>
    obtain rfl : op = .and := by
      cases op <;> first | rfl | cases hlevel
    obtain ⟨e, he, hrun⟩ := ihLeft hlevel
    refine ⟨.binary .and e right', ?_, fun σ => ?_⟩
    · have hwhole : Derives BinaryOp.and.level _ _ := .binary he hright'
      rwa [List.append_assoc] at hwhole
    · rw [← Expr.run_and_assoc, Expr.run, hrun]
      rfl
  | @weaken level ts e h ih =>
    obtain rfl := hlevel
    have hwhole : Derives BinaryOp.and.level _ _ := .binary hleft h
    exact ⟨_, hwhole, fun _ => rfl⟩
  | _ => omega

/-- The reading of a text as an expression under macros. -/
def Parses (ms : List Macro) (text : List Char) (e : Expr) : Prop :=
  ∃ ts us, lex text = some ts ∧ expand ms ts = some us ∧ Derives 0 us e

/-- A text has one reading under macros. -/
theorem Parses.unique {ms : List Macro} {text : List Char} {e e' : Expr} (h : Parses ms text e)
    (h' : Parses ms text e') : e = e' := by
  obtain ⟨ts, us, hlex, hexpand, he⟩ := h
  obtain ⟨ts', us', hlex', hexpand', he'⟩ := h'
  obtain rfl : ts = ts' := Option.some.inj (hlex.symm.trans hlex')
  obtain rfl : us = us' := Option.some.inj (hexpand.symm.trans hexpand')
  exact he.unique he'

end BitClassifier.Source
