import BitClassifier.Proofs.Prune.Meaning
import BitClassifier.Proofs.Prune.Turn
import BitClassifier.Proofs.Trie.History

/-!
# Runs of the pruner

By induction on the weight of the subtree of the frontier, pruning it comes to its plan and empties
it (`exhausts`). Of a whole trie this leaves the root alone, so a run never ends with a fault
(`run_leaves_root`).
-/

namespace BitClassifier

open Subtree

namespace Pruner

variable {p : Pruner} {w : Width} {k : Spine} {s : Subtree} {r : Region} {id : Nat}

/-- Pruning the subtree of a frontier makes its plan, and empties its place. -/
def Exhausts (w : Width) (s : Subtree) : Prop :=
  ∀ ⦃p : Pruner⦄ ⦃k : Spine⦄ ⦃id : Nat⦄, p.trie.Represents w (plug k s) → s.slot = .child id →
    ∀ (chain : List Link) (r : Region), ∃ t',
      p.prune chain id r =
        pure (Link.joinAll chain (s.plan r).predicate, p.spend t' (s.plan r)) ∧
      t'.Represents w (climb false k s.bare)

/-- A jump at a fork both sides of which can be exhausted. -/
theorem branch_eq {bit : CodeValue} {off on : Subtree}
    (h : p.trie.Represents w (plug k (.node id bit off on))) (hoff : off.isNode) (hon : on.isNode)
    (hOff : Exhausts w off) (hOn : Exhausts w on) (r : Region) :
    ∃ t', p.branch id r = pure
        (.cond bit (on.plan (r.fix bit true)).predicate (off.plan (r.fix bit false)).predicate,
          p.spend t' (.fork bit (on.plan (r.fix bit true)) (off.plan (r.fix bit false)))) ∧
      t'.Represents w (climb false k (Subtree.node id bit off on).bare) := by
  have hnode := h.shows.node_eq
  obtain ⟨idOff, hslotOff⟩ := exists_slot_of_isNode hoff
  obtain ⟨idOn, hslotOn⟩ := exists_slot_of_isNode hon
  obtain ⟨t₁, hrunOn, h₁⟩ :=
    hOn (p := p.count) (k := ⟨id, bit, true, off⟩ :: k) h hslotOn [] (r.fix bit true)
  rw [climb_bare_cons hon, climb_fill_absent (ne_leaf_of_isNode hoff false)] at h₁
  obtain ⟨t₂, hrunOff, h₂⟩ := hOff (p := p.count.spend t₁ (on.plan (r.fix bit true)))
    (k := ⟨id, bit, false, .absent⟩ :: k) h₁ hslotOff [] (r.fix bit false)
  rw [climb_bare_cons hoff] at h₂
  refine ⟨t₂, ?_, h₂⟩
  rw [branch, hnode, pure_bind]
  simp only [hslotOn, hslotOff]
  rw [hrunOn, pure_bind]
  dsimp only
  rw [hrunOff, pure_bind, spend_fork p t₁ t₂ bit]
  rfl

/-- A minimal tree can be exhausted. -/
theorem exhausts (hmin : s.Minimal) : Exhausts w s := by
  induction hweight : s.weight using Nat.strong_induction_on generalizing s with
  | _ n ih =>
    -- for every place at once, since a turn may go on below the place where it began
    subst hweight
    intro p k id h hs chain r
    obtain ⟨out, hrun, hturned⟩ := turn_turned h hs hmin r
    rw [prune, hrun, pure_bind]
    cases hturned with
    | @done t' hrep => exact ⟨t', rfl, hrep⟩
    | @again t₁ links log j rest below r' hrep hslot hrestMin hlt hclimb hplan =>
      obtain ⟨t', hprune, hrep'⟩ := ih _ hlt hrestMin rfl (p := p.charge t₁ links.length log) hrep
        hslot (links ++ chain) r'
      refine ⟨t', ?_, hclimb ▸ hrep'⟩
      rw [List.append_nil]
      dsimp only
      rw [hprune, hplan, spend_behind, Link.joinAll_append]
      rfl
    | @jump t₁ links log j below bit off on r' hrep hoff hon hforkMin hle hclimb hplan =>
      have hOff : Exhausts w off := ih _ (by rw [weight] at hle; omega) hforkMin.2.1 rfl
      have hOn : Exhausts w on := ih _ (by rw [weight] at hle; omega) hforkMin.2.2 rfl
      obtain ⟨t', hbranch, hrep'⟩ :=
        branch_eq (p := p.charge t₁ links.length log) hrep hoff hon hOff hOn r'
      refine ⟨t', ?_, hclimb ▸ hrep'⟩
      rw [List.append_nil]
      dsimp only
      rw [hbranch, pure_bind, hplan, spend_behind, Link.joinAll_append]
      rfl

/-! ## Whole tries -/

variable {t : Trie}

/-- A root without nodes below is the only node. -/
theorem represents_root {b : Bool}
    (h : t.Represents w (.node 0 w.highBit (leaf b) (leaf b))) :
    t.len = 0 ∧ ∀ id, t.Live id ↔ id = 0 := by
  have hcells : ∀ q, (leaf b).cells q = 0 := by cases b <;> exact fun _ => rfl
  have hholds := h.shows.holds
  simp only [cells, hcells] at hholds
  refine ⟨Nat.succ.inj hholds.count, fun id => ?_⟩
  rw [Trie.Live, Option.isSome_iff_exists]
  simp [hholds.cell?_iff]

theorem resolve_eq (h : p.trie.Represents w s) :
    ∃ t' b, p.resolve = pure ((s.whole w).predicate, p.spend t' (s.whole w)) ∧
      t'.Represents w (.node 0 w.highBit (leaf b) (leaf b)) := by
  obtain ⟨off, on, rfl⟩ := label_eq_some.mp h.shows.root
  rw [resolve, h.shows.isEmpty, h.shows.isFull, pure_bind, whole]
  by_cases hempty : Subtree.node 0 w.highBit off on = .node 0 w.highBit .absent .absent
  · rw [if_pos (by simpa using hempty), if_pos hempty]
    exact ⟨p.trie, false, by rw [spend, charge_zero], hempty ▸ h⟩
  rw [if_neg (by simpa using hempty), if_neg hempty, pure_bind]
  by_cases hfull : Subtree.node 0 w.highBit off on = .node 0 w.highBit .full .full
  · rw [if_pos (by simpa using hfull), if_pos hfull]
    exact ⟨p.trie, true, by rw [spend, charge_zero], hfull ▸ h⟩
  rw [if_neg (by simpa using hfull), if_neg hfull]
  have hmin := h.sound.minimal (Bool.rec hempty hfull)
  obtain ⟨t', hrun, hrep⟩ := exhausts hmin (k := []) h rfl [] .whole
  exact ⟨t', false, hrun, hrep⟩

theorem run_eq (h : p.trie.Represents w s) :
    ∃ t' b, p.run = pure ((s.whole w).predicate, (p.spend t' (s.whole w)).report
        (.triePruned p.trie.len (p.spend t' (s.whole w)).comparisons)) ∧
      t'.Represents w (.node 0 w.highBit (leaf b) (leaf b)) := by
  obtain ⟨t', b, hresolve, hrep⟩ := resolve_eq h
  refine ⟨t', b, ?_, hrep⟩
  have hlen : (p.spend t' (s.whole w)).trie.len = 0 := (represents_root hrep).1
  rw [run, hresolve, pure_bind]
  dsimp only
  rw [if_pos hlen]

/-- A run in a trie with a history ends, and without a fault: every node it reads is live, a chain
of only children never ends in an empty slot, a jump is made on two nodes only, no node is given up
that is the root or holds another one, and what is left is the root alone. -/
theorem run_leaves_root {S : Set CodeValue} (h : t.History w S) :
    ∃ predicate q, (start t).run = pure (predicate, q) ∧ q.trie.len = 0 ∧
      ∀ id, q.trie.Live id ↔ id = 0 := by
  obtain ⟨s, hrep, -⟩ := h.represents
  obtain ⟨t', b, hrun, hroot⟩ := run_eq (p := start t) hrep
  exact ⟨_, _, hrun, represents_root hroot⟩

/-- All values but 0. -/
theorem run_leaves_root_hole :
    let w : Width := ⟨2, by decide, by decide⟩
    let t : Trie :=
      ⟨w, #[some ⟨2, .full, .child 1, none⟩, some ⟨1, .full, .absent, some 0⟩, none], 1⟩
    t.History w {v | v ∈ [1, 2, 3]} ∧
      ∃ predicate q, (start t).run = pure (predicate, q) ∧ q.trie.len = 0 ∧
        ∀ id, q.trie.Live id ↔ id = 0 := by
  intro w t
  have hsorted : Trie.ofSorted w [1, 2, 3] = pure t := by cbv
  have hvalues : ∀ v ∈ ([1, 2, 3] : List CodeValue), w.contains v = true := by
    simp [w, Width.contains, Width.maxValue]
  have h : t.History w {v | v ∈ [1, 2, 3]} := .ofSorted hvalues hsorted
  exact ⟨h, run_leaves_root h⟩

end Pruner

end BitClassifier
