import BitClassifier.Proofs.Predicate.Sketch
import Mathlib.Algebra.Ring.Nat

/-!
# Runs of a builder

A builder is taken through a row of pushes, those that fail among them (`pushAll`). Every push that
succeeds closes one place and opens those of its fragment, which gives the account of a whole run
(`openPlaces_pushAll`). The nodes of a predicate in preorder, pushed one after another, do what the
whole predicate does in one push (`pushAll_nodes`), so every predicate can be built.
-/

namespace BitClassifier

/-- The nodes of a predicate with nothing below them, each node before its sides and `off` before
`on`. -/
def Predicate.nodes : Predicate → List Sketch
  | constant answer => [.constant answer]
  | bitTest mask value equals => [.bitTest mask value equals]
  | and left right => .and .hole .hole :: (left.nodes ++ right.nodes)
  | or left right => .or .hole .hole :: (left.nodes ++ right.nodes)
  | cond bit on off => .cond bit .hole .hole :: (off.nodes ++ on.nodes)

namespace Builder

open Sketch (Joint join ofPredicate push_of_complete exists_push isComplete_iff isComplete_join
  isComplete_push push_push push_join_of_open push_join_of_complete)

/-- Pushes fragments one after another, and goes on behind a push that fails. Returned are the
fragments that were taken, and the builder afterwards. -/
def pushAll (b : Builder) : List Sketch → List Sketch × Builder
  | [] => ([], b)
  | fragment :: rest =>
    match b.push fragment with
    | (.ok (), b') => (fragment :: (b'.pushAll rest).1, (b'.pushAll rest).2)
    | (.error _, b') => b'.pushAll rest

variable {b b' : Builder} {fragment : Sketch} {fault : Fault}

/-! ### One push -/

/-- A push fails only if nothing is open, and then it leaves the builder as it was. -/
theorem push_of_isComplete (h : b.isComplete = true) (fragment : Sketch) :
    b.push fragment = (.error .alreadyComplete, b) := by
  rw [push, push_of_complete h]

theorem push_of_open (h : b.isComplete = false) (fragment : Sketch) :
    b.push fragment = (.ok (), ⟨(b.sketch.push fragment).sketch⟩) := by
  obtain ⟨p, -, hpush⟩ := exists_push h
  rw [push, hpush]

theorem push_eq_error_iff :
    b.push fragment = (.error fault, b') ↔
      b.isComplete = true ∧ fault = .alreadyComplete ∧ b' = b := by
  cases h : b.isComplete with
  | true =>
    rw [push_of_isComplete h]
    simp [eq_comm]
  | false =>
    rw [push_of_open h]
    simp

theorem finish_eq_ok_iff {p : Predicate} : b.finish = .ok p ↔ b.sketch = ofPredicate p := by
  rw [← Sketch.toPredicate?_eq_some_iff, finish]
  cases b.sketch.toPredicate? <;> simp

theorem exists_finish_iff : (∃ p, b.finish = .ok p) ↔ b.isComplete = true := by
  simp only [finish_eq_ok_iff, ← Sketch.toPredicate?_eq_some_iff]
  rw [← Option.isSome_iff_exists, Sketch.isSome_toPredicate?, isComplete]

/-! ### Runs -/

theorem pushAll_append (b : Builder) (xs ys : List Sketch) :
    b.pushAll (xs ++ ys) =
      ((b.pushAll xs).1 ++ ((b.pushAll xs).2.pushAll ys).1, ((b.pushAll xs).2.pushAll ys).2) := by
  induction xs generalizing b with
  | nil => rfl
  | cons fragment xs ih =>
    rw [List.cons_append, pushAll, pushAll]
    cases b.push fragment with
    | mk outcome b' =>
      cases outcome with
      | ok u => simp [ih]
      | error fault => exact ih b'

theorem pushAll_cons_of_open (h : b.isComplete = false) (fragment : Sketch) (rest : List Sketch) :
    b.pushAll (fragment :: rest) =
      (fragment :: ((Builder.mk (b.sketch.push fragment).sketch).pushAll rest).1,
        ((Builder.mk (b.sketch.push fragment).sketch).pushAll rest).2) := by
  rw [pushAll, push_of_open h]

/-- A complete builder takes nothing any more. -/
theorem pushAll_of_isComplete (h : b.isComplete = true) (fragments : List Sketch) :
    b.pushAll fragments = ([], b) := by
  induction fragments with
  | nil => rfl
  | cons fragment rest ih =>
    rw [pushAll, push_of_isComplete h]
    exact ih

theorem pushAll_sublist (b : Builder) (fragments : List Sketch) :
    (b.pushAll fragments).1.Sublist fragments := by
  induction fragments generalizing b with
  | nil => exact .slnil
  | cons fragment rest ih =>
    cases h : b.isComplete with
    | true =>
      rw [pushAll_of_isComplete h]
      exact List.nil_sublist _
    | false =>
      rw [pushAll_cons_of_open h]
      exact (ih _).cons_cons fragment

/-- Every fragment that is taken closes one place and opens its own. -/
theorem openPlaces_pushAll (b : Builder) (fragments : List Sketch) :
    (b.pushAll fragments).2.sketch.openPlaces + (b.pushAll fragments).1.length =
      b.sketch.openPlaces + ((b.pushAll fragments).1.map Sketch.openPlaces).sum := by
  induction fragments generalizing b with
  | nil => rfl
  | cons fragment rest ih =>
    cases h : b.isComplete with
    | true =>
      rw [pushAll_of_isComplete h]
      rfl
    | false =>
      have hpush := Sketch.openPlaces_push h fragment
      have hrest := ih ⟨(b.sketch.push fragment).sketch⟩
      rw [pushAll_cons_of_open h, List.length_cons, List.map_cons, List.sum_cons]
      dsimp only at hrest ⊢
      omega

/-! ### Building predicates -/

/-- What the nodes of two predicates do in a row behind their joint, if each predicate is built from
its own nodes. -/
theorem pushAll_joint (joint : Joint) {p q : Predicate}
    (hp : ∀ b : Builder, b.isComplete = false →
      b.pushAll p.nodes = (p.nodes, ⟨(b.sketch.push (ofPredicate p)).sketch⟩))
    (hq : ∀ b : Builder, b.isComplete = false →
      b.pushAll q.nodes = (q.nodes, ⟨(b.sketch.push (ofPredicate q)).sketch⟩))
    (h : b.isComplete = false) :
    b.pushAll (join joint .hole .hole :: (p.nodes ++ q.nodes)) =
      (join joint .hole .hole :: (p.nodes ++ q.nodes),
        ⟨(b.sketch.push (join joint (ofPredicate p) (ofPredicate q))).sketch⟩) := by
  have hcomplete := Sketch.isComplete_ofPredicate p
  have hjoint : (join joint .hole .hole).isComplete = false := by cases joint <;> rfl
  have hhalf : (join joint (ofPredicate p) .hole).isComplete = false := by
    rw [isComplete_join, hcomplete]
    rfl
  -- the joint is open for `p` and then, with `p` in its first place, for `q`
  have hfirst : (b.sketch.push (join joint .hole .hole)).sketch.push (ofPredicate p) =
      b.sketch.push (join joint (ofPredicate p) .hole) := by
    rw [push_push h hjoint, push_join_of_open joint .hole rfl]
    rfl
  have hsecond : (b.sketch.push (join joint (ofPredicate p) .hole)).sketch.push (ofPredicate q) =
      b.sketch.push (join joint (ofPredicate p) (ofPredicate q)) := by
    rw [push_push h hhalf, push_join_of_complete joint .hole hcomplete]
    rfl
  have hrunp := hp ⟨(b.sketch.push (join joint .hole .hole)).sketch⟩ (isComplete_push h hjoint)
  have hrunq := hq ⟨(b.sketch.push (join joint (ofPredicate p) .hole)).sketch⟩
    (isComplete_push h hhalf)
  rw [hfirst] at hrunp
  rw [hsecond] at hrunq
  rw [pushAll_cons_of_open h, pushAll_append, hrunp, hrunq]

/-- The nodes of a predicate, one after another, come to the predicate as a whole. -/
theorem pushAll_nodes (p : Predicate) (h : b.isComplete = false) :
    b.pushAll p.nodes = (p.nodes, ⟨(b.sketch.push (ofPredicate p)).sketch⟩) := by
  induction p generalizing b with
  | constant answer => exact pushAll_cons_of_open h (.constant answer) []
  | bitTest mask value equals => exact pushAll_cons_of_open h (.bitTest mask value equals) []
  | and left right ihLeft ihRight => exact pushAll_joint .and (fun _ => ihLeft) (fun _ => ihRight) h
  | or left right ihLeft ihRight => exact pushAll_joint .or (fun _ => ihLeft) (fun _ => ihRight) h
  | cond bit on off ihOn ihOff =>
    exact pushAll_joint (.cond bit) (fun _ => ihOff) (fun _ => ihOn) h

/-- If all fragments of a row are taken, something was open before each of them. -/
theorem isComplete_of_all_taken {fragments : List Sketch}
    (h : (b.pushAll fragments).1 = fragments) {k : Nat} (hk : k < fragments.length) :
    (b.pushAll (fragments.take k)).2.isComplete = false := by
  cases hcomplete : (b.pushAll (fragments.take k)).2.isComplete with
  | false => rfl
  | true =>
    have hrun := pushAll_append b (fragments.take k) (fragments.drop k)
    rw [List.take_append_drop, pushAll_of_isComplete hcomplete, List.append_nil] at hrun
    have hlength := (pushAll_sublist b (fragments.take k)).length_le
    rw [hrun] at h
    rw [h, List.length_take] at hlength
    omega

/-- Every run of a builder is accounted for, and every predicate can be built. Behind `n` fragments
that were taken, one at least, as many places are open as those fragments have, less `n - 1`; if
this number is 0, a push fails and changes nothing, and the predicate can be taken out, and in no
other case. The nodes of a predicate in preorder are all taken, the builder is complete only behind
the last one, and the predicate is what is taken out. -/
theorem runs_accounted_and_predicates_built :
    (∀ fragments taken b, ({} : Builder).pushAll fragments = (taken, b) →
      (1 ≤ taken.length →
        b.sketch.openPlaces + (taken.length - 1) = (taken.map Sketch.openPlaces).sum) ∧
      (∀ fragment, (∃ fault b', b.push fragment = (.error fault, b')) ↔
        1 ≤ taken.length ∧ b.sketch.openPlaces = 0) ∧
      (∀ fragment fault b', b.push fragment = (.error fault, b') → b' = b) ∧
      ((∃ p, b.finish = .ok p) ↔ 1 ≤ taken.length ∧ b.sketch.openPlaces = 0)) ∧
    ∀ p : Predicate, ∃ b, ({} : Builder).pushAll p.nodes = (p.nodes, b) ∧
      (∀ k < p.nodes.length, (({} : Builder).pushAll (p.nodes.take k)).2.isComplete = false) ∧
      b.isComplete = true ∧ b.finish = .ok p := by
  constructor
  · intro fragments taken b hrun
    have hcount : b.sketch.openPlaces + taken.length =
        1 + (taken.map Sketch.openPlaces).sum := by
      have haccount := openPlaces_pushAll {} fragments
      rwa [hrun] at haccount
    have hcomplete : b.isComplete = true ↔ 1 ≤ taken.length ∧ b.sketch.openPlaces = 0 := by
      rw [isComplete, isComplete_iff]
      omega
    refine ⟨fun hn => by omega, fun fragment => ?_, fun fragment fault b' hpush => ?_, ?_⟩
    · simp only [push_eq_error_iff, ← hcomplete]
      simp
    · exact (push_eq_error_iff.mp hpush).2.2
    · rw [exists_finish_iff, hcomplete]
  · intro p
    have hrun := pushAll_nodes (b := {}) p rfl
    refine ⟨⟨ofPredicate p⟩, hrun, fun k hk => ?_, Sketch.isComplete_ofPredicate p, ?_⟩
    · exact isComplete_of_all_taken (by rw [hrun]) hk
    · exact finish_eq_ok_iff.mpr rfl

/-- Three fragments are taken, and a fourth one fails. -/
theorem runs_accounted_and_predicates_built_full :
    ∃ fault b, (Builder.mk (.and (.constant true) (.constant false))).push .hole =
      (.error fault, b) :=
  ((runs_accounted_and_predicates_built.1
    [.and .hole .hole, .constant true, .constant false, .hole] _ _ rfl).2.1 .hole).mpr
    ⟨by decide, by decide⟩

end Builder

end BitClassifier
