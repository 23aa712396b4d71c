import BitClassifier.Width
import BitClassifier.Text.Hex

/-!
# Faults

What goes wrong when an operation is used outside of its contract. A fault is never the answer to
bad input data; those have error types of their own.

An operation that walks through a trie is a `Run`: it ends with a value, ends with a fault, or does
not end at all.
-/

namespace BitClassifier

/-- A broken precondition or a broken invariant. -/
inductive Fault where
  /-- A value above the domain was put into a trie. -/
  | outOfDomain (value : CodeValue)
  /-- A node was named that is not in the trie. -/
  | notLive (id : Nat)
  /-- A node was looked for in the slots of a node that does not hold it. -/
  | notHeld (id : Nat)
  /-- The root of a trie was given up. -/
  | rootFreed
  /-- A node was given up that still holds another node. -/
  | nodeBelow (id : Nat)
  /-- More nodes were given up than a trie has counted. -/
  | miscounted
  /-- A fragment was pushed where no slot is open. -/
  | alreadyComplete
  /-- A predicate was taken out while a slot is open. -/
  | incomplete
  /-- The only slot that holds something was found to hold nothing. -/
  | absentSingle
  /-- A branch was asked of a node that does not have two nodes below it. -/
  | unbranched
  /-- Pruning ended with nodes left in the trie. -/
  | unconsumed
  /-- An operation went on for ever. -/
  | endless
deriving DecidableEq, Repr

/-- The text of a fault. -/
def Fault.message : Fault → String
  | outOfDomain value => Hex.text value.toNat ++ " is out of domain"
  | notLive id => "trie node NodeId(" ++ toString id ++ ") is not live"
  | notHeld id => "trie node NodeId(" ++ toString id ++ ") is not in the slots of its parent"
  | rootFreed => "the root of a trie was freed"
  | nodeBelow id => "trie node NodeId(" ++ toString id ++ ") was freed above another node"
  | miscounted => "attempt to subtract with overflow"
  | alreadyComplete => "pushed a fragment into a complete predicate"
  | incomplete => "finished an incomplete predicate"
  | absentSingle => "internal error: entered unreachable code: single child is never absent"
  | unbranched => "branching on a node without two live children"
  | unconsumed => "predicate construction left trie nodes unconsumed"
  | endless => "the operation does not end"

/-- What an operation on a trie does: `pure` is a value and `throw` a fault. An operation that goes
on for ever is none of the two. -/
abbrev Run := ExceptT Fault Option

/-- The outcome of a run, with a run that does not end as a fault of its own. -/
def Run.outcome {α : Type} (run : Run α) : Except Fault α :=
  match run.run with
  | some outcome => outcome
  | none => .error .endless

theorem Run.pure_inj {α : Type} {a b : α} : (pure a : Run α) = pure b ↔ a = b :=
  ⟨fun h => Except.ok.inj (Option.some.inj h), congrArg pure⟩

theorem Run.pure_mk_inj {α β : Type} {a a' : α} {b b' : β} :
    (pure (a, b) : Run (α × β)) = pure (a', b') ↔ a = a' ∧ b = b' := by
  rw [Run.pure_inj, Prod.mk.injEq]

/-- A run in two parts ends with a value if both of them do. -/
theorem Run.bind_eq_pure {α β : Type} {run : Run α} {next : α → Run β} {b : β} :
    (run >>= next) = pure b ↔ ∃ a, run = pure a ∧ next a = pure b := by
  constructor
  · intro h
    rcases run with _ | (e | a)
    · cases h
    · cases h
    · exact ⟨a, rfl, h⟩
  · rintro ⟨a, rfl, h⟩
    exact h

@[simp] theorem Run.outcome_pure {α : Type} (a : α) : Run.outcome (pure a) = .ok a := rfl

end BitClassifier
