import BitClassifier.Proofs.Prune.Run
import BitClassifier.Proofs.Trie.Renaming

/-!
# Canonical tries

A plan never depends on the numbers of the nodes (`plan_renumber`). Together with the fact that the
tree of a trie is settled by its meaning, this makes tries canonical: two tries that hold the same
values are renamings of each other and are pruned to the same predicate, whatever operations made
them (`History.canonical`).
-/

namespace BitClassifier

open Subtree

/-- A frame after its nodes got other numbers. -/
def Frame.renumber (ρ : Nat → Nat) (f : Frame) : Frame :=
  ⟨ρ f.id, f.bit, f.side, f.other.renumber ρ⟩

/-- An accepting slot after its node got another number. -/
def Found.renumber (ρ : Nat → Nat) (found : Found) : Found :=
  { found with id := ρ found.id }

namespace Subtree

/-- A step in a tree whose nodes got other numbers. -/
def Step.renumber (ρ : Nat → Nat) : Step → Step
  | done test log => done test log
  | link links log rest region => link links log (rest.renumber ρ) region
  | fork bit off on => fork bit (off.renumber ρ) (on.renumber ρ)

variable {s s' off on : Subtree} {ρ : Nat → Nat} {r : Region}

theorem along_renumber (ρ : Nat → Nat) (r : Region) (j : Spine) :
    r.along (j.map (Frame.renumber ρ)) = r.along j := by
  rw [Region.along, List.foldr_map]
  rfl

theorem along_renumber_cons (ρ : Nat → Nat) (r : Region) (f : Frame) (j : Spine) :
    r.along (f.renumber ρ :: j.map (Frame.renumber ρ)) = r.along (f :: j) :=
  along_renumber ρ r (f :: j)

theorem core_renumber (ρ : Nat → Nat) (s : Subtree) :
    (s.renumber ρ).core = (s.core.1.map (Frame.renumber ρ), s.core.2.renumber ρ) := by
  induction s with
  | absent => rfl
  | full => rfl
  | node id bit off on ihOff ihOn =>
    simp only [renumber, core, renumber_eq_absent]
    split
    · rw [ihOn, List.map_append]
      rfl
    · split
      · rw [ihOff, List.map_append]
        rfl
      · rfl

theorem found?_renumber (ρ : Nat → Nat) (s : Subtree) (r : Region) :
    (s.renumber ρ).found? r = (s.found? r).map (Found.renumber ρ) := by
  rw [found?, found?, core_renumber]
  rcases s.core with ⟨_ | ⟨f, j⟩, _ | _ | _⟩
  case cons.full =>
    simp only [List.map_cons, renumber_full, Option.map_some, List.length_map, along_renumber_cons]
    rfl
  all_goals rfl

theorem hole?_renumber (ρ : Nat → Nat) (s : Subtree) (r : Region) :
    (s.renumber ρ).hole? r = s.hole? r := by
  induction s generalizing r with
  | absent => rfl
  | full => rfl
  | node id bit off on ihOff ihOn => simp only [renumber, hole?, renumber_eq_full, ihOff, ihOn]

theorem sameShape_renumber (ρ : Nat → Nat) (s s' : Subtree) :
    (s.renumber ρ).sameShape (s'.renumber ρ) = s.sameShape s' := by
  induction s generalizing s' with
  | absent => cases s' <;> rfl
  | full => cases s' <;> rfl
  | node id bit off on ihOff ihOn =>
    cases s' with
    | absent => rfl
    | full => rfl
    | node id' bit' off' on' => simp only [renumber, sameShape, ihOff, ihOn]

theorem deeper?_renumber (ρ : Nat → Nat) (on off : Option Found) :
    deeper? (on.map (Found.renumber ρ)) (off.map (Found.renumber ρ)) =
      (deeper? on off).map (Prod.map id (Found.renumber ρ)) := by
  cases on with
  | none => cases off <;> rfl
  | some on =>
    cases off with
    | none => rfl
    | some off =>
      simp only [Option.map_some, deeper?, Found.renumber]
      split <;> rfl

theorem without_renumber (ρ : Nat → Nat) (side : Bool) (id : Nat) (bit : CodeValue)
    (off on : Subtree) :
    (without side id bit off on).renumber ρ =
      without side (ρ id) bit (off.renumber ρ) (on.renumber ρ) := by
  cases side <;> rfl

theorem forkStep_renumber (ρ : Nat → Nat) (r : Region) (id : Nat) (bit : CodeValue)
    (off on : Subtree) :
    forkStep r (ρ id) bit (off.renumber ρ) (on.renumber ρ) =
      (forkStep r id bit off on).renumber ρ := by
  have hhole := hole?_renumber ρ (node id bit off on) r
  rw [renumber] at hhole
  simp only [forkStep, sameShape_renumber, renumber_eq_full, hhole, found?_renumber,
    deeper?_renumber]
  split
  · rfl
  · split
    · split
      · rfl
      · rw [Step.renumber, without_renumber]
    · rcases deeper? (on.found? (r.fix bit true)) (off.found? (r.fix bit false)) with
        _ | ⟨side, found⟩
      · rfl
      · simp only [Option.map_some, Prod.map, id_eq, Step.renumber, without_renumber,
          Found.renumber]

theorem step_renumber (ρ : Nat → Nat) (s : Subtree) (r : Region) :
    (s.renumber ρ).step r = (s.step r).renumber ρ := by
  rw [step, step, core_renumber]
  rcases s.core with ⟨_ | ⟨f, j⟩, _ | _ | ⟨id, bit, off, on⟩⟩
  case nil.node => exact forkStep_renumber ρ r id bit off on
  case nil.absent => rfl
  case nil.full => rfl
  case cons.absent => rfl
  all_goals simp only [List.map_cons, renumber, along_renumber_cons, Step.renumber]

/-- What pruning a tree comes to does not depend on the numbers of its nodes. -/
theorem plan_renumber (ρ : Nat → Nat) (s : Subtree) (r : Region) :
    (s.renumber ρ).plan r = s.plan r := by
  induction s, r using plan.induct with
  | case1 s r test log h =>
    have h' := step_renumber ρ s r
    rw [h] at h'
    rw [plan_of_done h, plan_of_done h']
  | case2 s r links log rest r' h ih =>
    have h' := step_renumber ρ s r
    rw [h] at h'
    rw [plan_of_link h, plan_of_link h', ih]
  | case3 s r bit off on h ihOn ihOff =>
    have h' := step_renumber ρ s r
    rw [h] at h'
    rw [plan_of_fork h, plan_of_fork h', ihOn, ihOff]

theorem whole_renumber {w : Width} (h : s.label = some (0, w.highBit)) (hρ : ρ 0 = 0) :
    (s.renumber ρ).whole w = s.whole w := by
  obtain ⟨off, on, rfl⟩ := label_eq_some.mp h
  have hplan := plan_renumber ρ (node 0 w.highBit off on) .whole
  simp only [renumber, hρ] at hplan
  simp only [renumber, hρ, whole, node.injEq, true_and, renumber_eq_absent, renumber_eq_full, hplan]

end Subtree

namespace Trie

variable {t t' : Trie} {w : Width} {S S' : Set CodeValue}

/-- A trie is canonical, whatever its history: two tries that hold the same values are renamings of
each other, and they are pruned to the same predicate with the same number of instructions and the
same reports. -/
theorem History.canonical (h : t.History w S) (h' : t'.History w S')
    (hsame : ∀ v, w.contains v = true → t.contains v = t'.contains v) :
    (∃ ρ, Renaming ρ t t') ∧ ∃ predicate q q',
      (Pruner.start t).run = pure (predicate, q) ∧ (Pruner.start t').run = pure (predicate, q') ∧
      q.comparisons = q'.comparisons ∧ q.events = q'.events := by
  obtain ⟨s, hrep, -⟩ := h.represents
  obtain ⟨s', hrep', -⟩ := h'.represents
  obtain ⟨ρ, rfl⟩ := hrep.exists_renumber hrep' hsame
  have hrenaming := hrep.shows.renaming hrep'.shows
  obtain ⟨u, b, hrun, -⟩ := Pruner.run_eq (p := .start t) hrep
  obtain ⟨u', b', hrun', -⟩ := Pruner.run_eq (p := .start t') hrep'
  have hlen : (Pruner.start t').trie.len = (Pruner.start t).trie.len := hrenaming.len
  rw [whole_renumber hrep.shows.root hrenaming.root, hlen] at hrun'
  exact ⟨⟨ρ, hrenaming⟩, _, _, _, hrun, hrun', rfl, rfl⟩

/-- The value 1 put in alone, and put in after 3, which is cleared again. -/
theorem History.canonical_cleared :
    let w : Width := ⟨2, by decide, by decide⟩
    let t : Trie :=
      ⟨w, #[some ⟨2, .absent, .child 1, none⟩, some ⟨1, .full, .absent, some 0⟩], 1⟩
    let t' : Trie :=
      ⟨w, #[some ⟨2, .absent, .child 2, none⟩, none, some ⟨1, .full, .absent, some 0⟩], 1⟩
    (∃ S S', t.History w S ∧ t'.History w S') ∧
      (∀ v, w.contains v = true → t.contains v = t'.contains v) ∧
      (∃ ρ, Renaming ρ t t') ∧ ∃ predicate q q',
        (Pruner.start t).run = pure (predicate, q) ∧ (Pruner.start t').run = pure (predicate, q') ∧
        q.comparisons = q'.comparisons ∧ q.events = q'.events := by
  intro w t t'
  let t₁ : Trie := ⟨w, #[some ⟨2, .child 1, .absent, none⟩, some ⟨1, .full, .absent, some 0⟩], 1⟩
  let t₂ : Trie := ⟨w, #[some ⟨2, .child 1, .child 2, none⟩, some ⟨1, .full, .absent, some 0⟩,
    some ⟨1, .full, .absent, some 0⟩], 2⟩
  have halone : (Trie.empty w).insert 1 = pure (true, t) := by cbv
  have hfirst : (Trie.empty w).insert 3 = pure (true, t₁) := by cbv
  have hsecond : t₁.insert 1 = pure (true, t₂) := by cbv
  have hclear : t₂.clear 0 true = pure (1, t') := by cbv
  have h := History.insert .empty (by decide) halone
  have hone := History.insert .empty (by decide) hfirst
  have htwo := History.insert hone (by decide) hsecond
  have hlive : t₂.Live 0 := rfl
  have h' := History.clear htwo hlive hclear
  have hsame : ∀ v, w.contains v = true → t.contains v = t'.contains v := by
    intro v hv
    obtain ⟨i, rfl⟩ : ∃ i : Fin 4, v = BitVec.ofNat 32 i :=
      ⟨⟨v.toNat, (w.contains_iff_lt v).mp hv⟩, by simp⟩
    fin_cases i <;> cbv
  exact ⟨⟨_, _, h, h'⟩, hsame, History.canonical h h' hsame⟩

end Trie

end BitClassifier
