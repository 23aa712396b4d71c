import BitClassifier.Proofs.Prune.Passes
import BitClassifier.Proofs.Trie.Detach

/-!
# What a call leaves alone

`Calls` lists the calls of `prune` that are made in a run, each with the state in which it is made.
A call at the root leaves the root alone, without anything on its sides. Any other call takes out
the subtree of its frontier with its stem, empties the slot that held them, and leaves every other
node as it is stored (`Calls.detaches`). So a jump can read both of its children before it deals
with the first one.

The frontier of every call is the top of a minimal tree (`Calls.atFrontier`). Pruning exhausts such
a tree and climbs from its place, and this is what detaching it comes to.
-/

namespace BitClassifier

open Subtree

namespace Pruner

/-- The calls of `prune` that are made in a run. A call makes another one for what a turn leaves,
or two of them for the sides of a jump. -/
inductive Calls (init : Pruner) : Pruner → List Link → Nat → Region → Prop where
  | root : init.trie.isEmpty = pure false → init.trie.isFull = pure false →
      Calls init init [] 0 .whole
  | again {p p₁ : Pruner} {chain links : List Link} {frontier below : Nat} {r r' : Region} :
      Calls init p chain frontier r → p.turn frontier r = pure (.again links below r', p₁) →
      Calls init p₁ (links ++ chain) below r'
  | on {p p₁ : Pruner} {chain links : List Link} {frontier below on : Nat} {r r' : Region}
      {n : Node} :
      Calls init p chain frontier r → p.turn frontier r = pure (.jump links below r', p₁) →
      p₁.trie.node below = pure n → n.on = .child on →
      Calls init p₁.count [] on (r'.fix n.bit true)
  /-- The node is read before the call for the side with the bit. -/
  | off {p p₁ p₂ : Pruner} {chain links : List Link} {frontier below on off : Nat} {r r' : Region}
      {n : Node} {whenOn : Predicate} :
      Calls init p chain frontier r → p.turn frontier r = pure (.jump links below r', p₁) →
      p₁.trie.node below = pure n → n.on = .child on →
      p₁.count.prune [] on (r'.fix n.bit true) = pure (whenOn, p₂) → n.off = .child off →
      Calls init p₂ [] off (r'.fix n.bit false)

variable {init p q : Pruner} {w : Width} {k : Spine} {s : Subtree} {r : Region} {id : Nat}
  {chain : List Link}

theorem Calls.atFrontier (hcall : Calls init p chain id r) (h : init.Represented w) :
    p.AtFrontier w id := by
  induction hcall with
  | root hempty hfull => exact h.atFrontier hempty hfull
  | again _ hturn ih => exact ih.again hturn
  | on _ hturn hnode hon ih => exact ih.on hturn hnode hon
  | off _ hturn hnode hon hprune hoff ih => exact ih.off hturn hnode hon hprune hoff

/-- A call ends. At the root, nothing is left below it. -/
theorem AtFrontier.prune_root (h : p.AtFrontier w 0) (chain : List Link) (r : Region) :
    ∃ predicate q, p.prune chain 0 r = pure (predicate, q) ∧ (∀ i, q.trie.Live i ↔ i = 0) ∧
      q.trie.cell? 0 = some (.bare w.highBit none) := by
  obtain ⟨k, s, hrep, hs, hmin⟩ := h
  cases k with
  | nil =>
    obtain ⟨off, on, rfl⟩ := label_eq_some.mp hrep.shows.root
    obtain ⟨t', hrun, hrep'⟩ := exhausts hmin (k := []) hrep hs chain r
    exact ⟨_, _, hrun, (represents_root (b := false) hrep').2, hrep'.shows.cell?_eq (k := [])⟩
  | cons f k => exact absurd rfl (hrep.shows.ne_zero_of_mem (mem_numbers_of_slot hs))

/-- A call ends. Below the root, it detaches the subtree of its frontier. -/
theorem AtFrontier.prune_detaches (h : p.AtFrontier w id) (hid : id ≠ 0) (chain : List Link)
    (r : Region) :
    ∃ predicate q, p.prune chain id r = pure (predicate, q) ∧ p.trie.Detached id q.trie := by
  obtain ⟨k, s, hrep, hs, hmin⟩ := h
  cases k with
  | nil =>
    obtain ⟨off, on, rfl⟩ := label_eq_some.mp hrep.shows.root
    exact absurd (Slot.child.inj hs).symm hid
  | cons f k =>
    obtain ⟨t', hrun, hrep'⟩ := exhausts hmin hrep hs chain r
    rw [climb_bare_cons (isNode_of_slot hs)] at hrep'
    exact ⟨_, _, hrun, hrep.shows.detached hs hrep'.shows⟩

/-- Every call in a run at a trie with a history ends without a fault. At the root it leaves the
root alone, empty on both sides. At any other frontier it takes out the nodes of the subtree and the
nodes above it, other than the root, that hold nothing else, empties the slot that held the last of
these, and leaves all other nodes as they are stored, with their slots and their parents. -/
theorem Calls.detaches {t : Trie} {S : Set CodeValue} (h : t.History w S)
    (hcall : Calls (start t) p chain id r) :
    ∃ predicate q, p.prune chain id r = pure (predicate, q) ∧
      (id = 0 → (∀ i, q.trie.Live i ↔ i = 0) ∧ q.trie.cell? 0 = some (.bare w.highBit none)) ∧
      (id ≠ 0 → p.trie.Detached id q.trie) := by
  obtain ⟨s, hrep, -⟩ := h.represents
  have hfrontier := hcall.atFrontier (w := w) ⟨s, hrep⟩
  by_cases hid : id = 0
  · subst hid
    obtain ⟨predicate, q, hrun, hroot⟩ := hfrontier.prune_root chain r
    exact ⟨predicate, q, hrun, fun _ => hroot, fun hne => absurd rfl hne⟩
  · obtain ⟨predicate, q, hrun, hdetached⟩ := hfrontier.prune_detaches hid chain r
    exact ⟨predicate, q, hrun, fun heq => absurd heq hid, fun _ => hdetached⟩

/-- Below a chain of one node, the second side of a jump takes the chain with it. -/
theorem Calls.detaches_second :
    let w : Width := ⟨4, by decide, by decide⟩
    let values : List CodeValue := [0, 1, 2, 5, 6, 7]
    let lower : Array (Option Node) := #[some ⟨2, .child 4, .full, some 1⟩, none,
      some ⟨1, .absent, .full, some 2⟩]
    let upper : Array (Option Node) := #[some ⟨2, .full, .child 6, some 1⟩,
      some ⟨1, .full, .absent, some 5⟩, none]
    let t : Trie :=
      ⟨w, #[some ⟨8, .absent, .child 1, none⟩, some ⟨4, .child 5, .child 2, some 0⟩] ++ lower ++
        upper, 5⟩
    let p : Pruner :=
      ⟨⟨w, #[some ⟨8, .absent, .child 1, none⟩, some ⟨4, .absent, .child 2, some 0⟩] ++ lower ++
        #[none, none, none], 3⟩, 3, #[.chainNarrowed ⟨8, 0⟩, .allButOne ⟨15, 4⟩]⟩
    t.History w {v | v ∈ values} ∧ Calls (start t) p [] 2 ⟨12, 0⟩ ∧
      ∃ predicate q, p.prune [] 2 ⟨12, 0⟩ = pure (predicate, q) ∧ p.trie.Detached 2 q.trie := by
  intro w values lower upper t p
  let p₁ : Pruner := ⟨t, 1, #[.chainNarrowed ⟨8, 0⟩]⟩
  have hsorted : Trie.ofSorted w values = pure t := by cbv
  have hvalues : ∀ v ∈ values, w.contains v = true := by
    simp [values, w, Width.contains, Width.maxValue]
  have h : t.History w {v | v ∈ values} := .ofSorted hvalues hsorted
  have hempty : t.isEmpty = pure false := by cbv
  have hfull : t.isFull = pure false := by cbv
  have hturn : (start t).turn 0 .whole =
      pure (.jump [.and (.bitTest 8 0 true)] 1 ⟨8, 0⟩, p₁) := by cbv
  have hnode : p₁.trie.node 1 = pure ⟨4, .child 5, .child 2, some 0⟩ := by cbv
  have hprune : p₁.count.prune [] 5 (Region.fix ⟨8, 0⟩ 4 true) =
      pure (.bitTest 15 4 false, p) := by cbv
  have hroot : Calls (start t) (start t) [] 0 .whole := .root hempty hfull
  have hcall : Calls (start t) p [] 2 ⟨12, 0⟩ := hroot.off hturn hnode rfl hprune rfl
  obtain ⟨predicate, q, hrun, -, hdetached⟩ := Calls.detaches h hcall
  exact ⟨h, hcall, predicate, q, hrun, hdetached (by decide)⟩

end Pruner

end BitClassifier
