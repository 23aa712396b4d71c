import BitClassifier.Proofs.Prune.Run
import BitClassifier.Proofs.Trie.WellFormed

/-!
# The states of a run

`Passes` lists the states through which the pruner goes while it takes the subtree of a frontier
apart: the state in which a turn begins, the states after each of the steps of the turn that can
change the trie, and then those of the turns that follow. In all of them the trie is well formed,
since a step can do nothing to a trie but clear slots of its nodes.
-/

namespace BitClassifier

open Subtree

namespace Pruner

/-- The state, the frontier and the region after the chain of only children is folded, if there is
something left. -/
inductive Folds (p : Pruner) (frontier : Nat) (r : Region) : Pruner → Nat → Region → Prop where
  | unchanged {q : Pruner} : p.pruneBase frontier r = pure (.unchanged, q) →
      Folds p frontier r q frontier r
  | narrowed {q : Pruner} {test : Predicate} {below : Nat} {r' : Region} :
      p.pruneBase frontier r = pure (.narrowed test below r', q) → Folds p frontier r q below r'

/-- The states that the pruner goes through to take the subtree of a frontier apart. -/
inductive Passes : Pruner → Nat → Region → Pruner → Prop where
  | here {p : Pruner} {frontier : Nat} {r : Region} : Passes p frontier r p
  | base {p q : Pruner} {frontier : Nat} {r : Region} {base : Base} :
      p.pruneBase frontier r = pure (base, q) → Passes p frontier r q
  | twins {p p₁ q : Pruner} {frontier below : Nat} {r r' : Region} {twin : Option Nat} :
      Folds p frontier r p₁ below r' → p₁.mergeTwins below = pure (twin, q) →
      Passes p frontier r q
  /-- Of the two sides around a hole one is emptied. -/
  | half {p p₁ p₂ q : Pruner} {frontier below : Nat} {r r' hole : Region} {n : Node} :
      Folds p frontier r p₁ below r' → p₁.mergeTwins below = pure (none, p₂) →
      p₂.trie.node below = pure n → n.on = .full ∨ n.off = .full →
      p₂.trie.findHole below r' = pure (some hole) →
      (p₂.report (.allButOne hole)).clear below (!decide (n.on = .full)) = pure q →
      Passes p frontier r q
  | top {p p₁ p₂ q : Pruner} {frontier below : Nat} {r r' : Region} {top : Top} :
      Folds p frontier r p₁ below r' → p₁.mergeTwins below = pure (none, p₂) →
      p₂.pruneTop below r' = pure (top, q) → Passes p frontier r q
  | again {p p₁ q : Pruner} {frontier below : Nat} {r r' : Region} {links : List Link} :
      p.turn frontier r = pure (.again links below r', p₁) → Passes p₁ below r' q →
      Passes p frontier r q
  | on {p p₁ q : Pruner} {frontier below on : Nat} {r r' : Region} {links : List Link} {n : Node} :
      p.turn frontier r = pure (.jump links below r', p₁) → p₁.trie.node below = pure n →
      n.on = .child on → Passes p₁.count on (r'.fix n.bit true) q → Passes p frontier r q
  | off {p p₁ p₂ q : Pruner} {frontier below on off : Nat} {r r' : Region} {links : List Link}
      {n : Node} {whenOn : Predicate} :
      p.turn frontier r = pure (.jump links below r', p₁) → p₁.trie.node below = pure n →
      n.on = .child on → p₁.count.prune [] on (r'.fix n.bit true) = pure (whenOn, p₂) →
      n.off = .child off → Passes p₂ off (r'.fix n.bit false) q → Passes p frontier r q

/-- The states that the pruner goes through in a whole run. -/
inductive Visits (p : Pruner) : Pruner → Prop where
  | start : Visits p p
  | prune {q : Pruner} : p.trie.isEmpty = pure false → p.trie.isFull = pure false →
      Passes p 0 .whole q → Visits p q

/-- The trie of a pruner represents some tree. -/
def Represented (w : Width) (p : Pruner) : Prop :=
  ∃ s, p.trie.Represents w s

/-- The frontier is the top of a minimal tree in what the trie represents. -/
def AtFrontier (w : Width) (p : Pruner) (id : Nat) : Prop :=
  ∃ k s, p.trie.Represents w (plug k s) ∧ s.slot = .child id ∧ s.Minimal

variable {p p₁ q : Pruner} {w : Width} {k : Spine} {s : Subtree} {r r' : Region} {id : Nat}

theorem AtFrontier.represented (h : p.AtFrontier w id) : p.Represented w := by
  obtain ⟨k, s, hrep, -, -⟩ := h
  exact ⟨plug k s, hrep⟩

/-! ## Single steps -/

theorem clear_represented {side : Bool} (h : p.Represented w) (hrun : p.clear id side = pure q) :
    q.Represented w := by
  obtain ⟨s, hrep⟩ := h
  obtain ⟨⟨m, t'⟩, hclear, hq⟩ := Run.bind_eq_pure.mp hrun
  obtain rfl := Run.pure_inj.mp hq
  obtain ⟨n, hnode, -⟩ := Run.bind_eq_pure.mp hclear
  have hlive : p.trie.Live id := by
    rw [Trie.node] at hnode
    cases hcell : p.trie.cell? id with
    | some m => rw [Trie.Live, hcell]; rfl
    | none => rw [hcell] at hnode; cases hnode
  obtain ⟨m', t'', s', hclear', hrep', -⟩ := hrep.clear_live hlive side
  obtain ⟨-, rfl⟩ := Run.pure_mk_inj.mp (hclear'.symm.trans hclear)
  exact ⟨s', hrep'⟩

theorem mergeTwins_represented {twin : Option Nat} (h : p.Represented w)
    (hrun : p.mergeTwins id = pure (twin, q)) : q.Represented w := by
  obtain ⟨n, -, hrest⟩ := Run.bind_eq_pure.mp hrun
  split at hrest
  · obtain ⟨same, -, hrest⟩ := Run.bind_eq_pure.mp hrest
    split at hrest
    · obtain ⟨p', hclear, hq⟩ := Run.bind_eq_pure.mp hrest
      obtain ⟨-, rfl⟩ := Run.pure_mk_inj.mp hq
      exact clear_represented (p := p.report _) h hclear
    · obtain ⟨-, rfl⟩ := Run.pure_mk_inj.mp hrest
      exact h
  · obtain ⟨-, rfl⟩ := Run.pure_mk_inj.mp hrest
    exact h

theorem pruneTop_represented {top : Top} (h : p.Represented w)
    (hrun : p.pruneTop id r = pure (top, q)) : q.Represented w := by
  obtain ⟨n, -, hrest⟩ := Run.bind_eq_pure.mp hrun
  split at hrest
  · obtain ⟨hole?, -, hrest⟩ := Run.bind_eq_pure.mp hrest
    split at hrest
    · obtain ⟨p₁, hfirst, hrest⟩ := Run.bind_eq_pure.mp hrest
      obtain ⟨p₂, hsecond, hq⟩ := Run.bind_eq_pure.mp hrest
      obtain ⟨-, rfl⟩ := Run.pure_mk_inj.mp hq
      show p₂.Represented w
      exact clear_represented (clear_represented (p := p.report _) h hfirst) hsecond
    · obtain ⟨p₁, hclear, hq⟩ := Run.bind_eq_pure.mp hrest
      obtain ⟨-, rfl⟩ := Run.pure_mk_inj.mp hq
      show p₁.Represented w
      exact clear_represented h hclear
  · obtain ⟨on, -, hrest⟩ := Run.bind_eq_pure.mp hrest
    obtain ⟨off, -, hrest⟩ := Run.bind_eq_pure.mp hrest
    split at hrest
    · obtain ⟨p₁, hclear, hq⟩ := Run.bind_eq_pure.mp hrest
      obtain ⟨-, rfl⟩ := Run.pure_mk_inj.mp hq
      show p₁.Represented w
      exact clear_represented (p := p.report _) h hclear
    · obtain ⟨-, rfl⟩ := Run.pure_mk_inj.mp hrest
      exact h

theorem AtFrontier.pruneBase {base : Base} (h : p.AtFrontier w id)
    (hrun : p.pruneBase id r = pure (base, q)) : q.Represented w := by
  obtain ⟨k, s, h, hs, hmin⟩ := h
  -- a minimal tree has no chain to an empty side, at which the walk would fail
  have hcore : s.core.2 ≠ absent := by
    rcases hmin.core_cases (ne_leaf_of_isNode (isNode_of_slot hs) false) with hfull | ⟨hforked, -⟩
    · simp [hfull]
    · rintro habsent
      rw [habsent] at hforked
      exact hforked
  rw [Pruner.pruneBase, foldChain_eq id h.shows hs hcore] at hrun
  unfold foldEnd at hrun
  split at hrun
  · obtain ⟨p₁, hclear, hq⟩ := Run.bind_eq_pure.mp hrun
    obtain ⟨-, rfl⟩ := Run.pure_mk_inj.mp hq
    show p₁.Represented w
    exact clear_represented (p := p.report _) ⟨_, h⟩ hclear
  · split at hrun
    · obtain ⟨-, rfl⟩ := Run.pure_mk_inj.mp hrun
      exact ⟨_, h⟩
    · obtain ⟨-, rfl⟩ := Run.pure_mk_inj.mp hrun
      exact ⟨_, h⟩
  · obtain ⟨-, rfl⟩ := Run.pure_mk_inj.mp hrun
    exact ⟨_, h⟩

theorem AtFrontier.folds {below : Nat} (h : p.AtFrontier w id)
    (hfolds : Folds p id r p₁ below r') : p₁.Represented w := by
  cases hfolds with
  | unchanged hrun => exact h.pruneBase hrun
  | narrowed hrun => exact h.pruneBase hrun

/-! ## Runs -/

/-- A trie that is neither empty nor full is taken apart from such a frontier. -/
theorem Represented.atFrontier (h : p.Represented w) (hempty : p.trie.isEmpty = pure false)
    (hfull : p.trie.isFull = pure false) : p.AtFrontier w 0 := by
  obtain ⟨s, h⟩ := h
  obtain ⟨off, on, rfl⟩ := label_eq_some.mp h.shows.root
  rw [h.shows.isEmpty, Run.pure_inj, decide_eq_false_iff_not] at hempty
  rw [h.shows.isFull, Run.pure_inj, decide_eq_false_iff_not] at hfull
  exact ⟨[], _, h, rfl, h.sound.minimal (Bool.rec hempty hfull)⟩

theorem turned_of_turn {out : Turn × Pruner} (h : p.trie.Represents w (plug k s))
    (hs : s.slot = .child id) (hmin : s.Minimal) (hturn : p.turn id r = pure out) :
    Turned w k s r p [] out := by
  obtain ⟨out', hrun, hturned⟩ := turn_turned h hs hmin r
  rwa [Run.pure_inj.mp (hturn.symm.trans hrun)]

/-- A turn that leaves something goes on at such a frontier. -/
theorem AtFrontier.again {links : List Link} {below : Nat} (h : p.AtFrontier w id)
    (hturn : p.turn id r = pure (.again links below r', p₁)) : p₁.AtFrontier w below := by
  obtain ⟨k, s, hrep, hs, hmin⟩ := h
  cases turned_of_turn hrep hs hmin hturn with
  | again hrep' hslot hrestMin => exact ⟨_, _, hrep', hslot, hrestMin⟩

/-- The side with the bit of a jump. -/
theorem AtFrontier.on {links : List Link} {below on : Nat} {n : Node} (h : p.AtFrontier w id)
    (hturn : p.turn id r = pure (.jump links below r', p₁)) (hnode : p₁.trie.node below = pure n)
    (hon : n.on = .child on) : p₁.count.AtFrontier w on := by
  obtain ⟨k, s, hrep, hs, hmin⟩ := h
  cases turned_of_turn hrep hs hmin hturn with
  | @jump _ _ _ j _ bit off on _ hrep' _ _ hforkMin =>
    obtain rfl := Run.pure_inj.mp (hrep'.shows.node_eq.symm.trans hnode)
    exact ⟨⟨below, bit, true, off⟩ :: (j ++ k), on, hrep', hon, hforkMin.2.2⟩

/-- The side without the bit of a jump, which the pruning of the other side leaves as it is. -/
theorem AtFrontier.off {links : List Link} {below on off : Nat} {n : Node} {whenOn : Predicate}
    (h : p.AtFrontier w id) (hturn : p.turn id r = pure (.jump links below r', p₁))
    (hnode : p₁.trie.node below = pure n) (hon : n.on = .child on)
    (hprune : p₁.count.prune [] on (r'.fix n.bit true) = pure (whenOn, q))
    (hoff : n.off = .child off) : q.AtFrontier w off := by
  obtain ⟨k, s, hrep, hs, hmin⟩ := h
  cases turned_of_turn hrep hs hmin hturn with
  | @jump t₁ links log j _ bit off on _ hrep' hoffNode honNode hforkMin =>
    obtain rfl := Run.pure_inj.mp (hrep'.shows.node_eq.symm.trans hnode)
    have hexhausts := exhausts (w := w) hforkMin.2.2
    obtain ⟨t₂, hprune', hrep₂⟩ := hexhausts (p := (p.charge t₁ links.length log).count)
      (k := ⟨below, bit, true, off⟩ :: (j ++ k)) hrep' hon [] _
    obtain ⟨-, rfl⟩ := Run.pure_mk_inj.mp (hprune'.symm.trans hprune)
    rw [climb_bare_cons honNode, climb_fill_absent (ne_leaf_of_isNode hoffNode false)] at hrep₂
    exact ⟨⟨below, bit, false, .absent⟩ :: (j ++ k), off, hrep₂, hoff, hforkMin.2.1⟩

/-- From such a frontier the pruner only goes through tries that represent trees. -/
theorem Passes.represented (hpass : Passes p id r q) (h : p.AtFrontier w id) :
    q.Represented w := by
  induction hpass with
  | here => exact h.represented
  | base hrun => exact h.pruneBase hrun
  | twins hfolds hmerge => exact mergeTwins_represented (h.folds hfolds) hmerge
  | half hfolds hmerge _ _ _ hclear =>
    have hmerged := mergeTwins_represented (h.folds hfolds) hmerge
    exact clear_represented (p := report _ _) hmerged hclear
  | top hfolds hmerge htop =>
    exact pruneTop_represented (mergeTwins_represented (h.folds hfolds) hmerge) htop
  | again hturn _ ih => exact ih (h.again hturn)
  | on hturn hnode hon _ ih => exact ih (h.on hturn hnode hon)
  | off hturn hnode hon hprune hoff _ ih => exact ih (h.off hturn hnode hon hprune hoff)

/-- Every state of a whole run has a trie that represents a tree. -/
theorem Visits.represented (hvisit : p.Visits q) (h : p.Represented w) : q.Represented w := by
  cases hvisit with
  | start => exact h
  | prune hempty hfull hpass => exact hpass.represented (h.atFrontier hempty hfull)

end Pruner

/-- Over any history the trie is well formed, and it stays so in every state through which the
pruner goes when it takes the trie apart. -/
theorem Trie.History.well_formed_throughout {t : Trie} {w : Width} {S : Set CodeValue}
    (h : t.History w S) :
    t.WellFormed ∧ ∀ q, (Pruner.start t).Visits q → q.trie.WellFormed := by
  obtain ⟨s, hrep, -⟩ := h.represents
  refine ⟨hrep.wellFormed, fun q hvisit => ?_⟩
  obtain ⟨s', hrep'⟩ := hvisit.represented ⟨s, hrep⟩
  exact hrep'.wellFormed

/-- Two nodes below the root: 0 and 3. -/
theorem Trie.History.well_formed_throughout_pair :
    let w : Width := ⟨2, by decide, by decide⟩
    let t : Trie :=
      ⟨w, #[some ⟨2, .child 2, .child 1, none⟩, some ⟨1, .absent, .full, some 0⟩,
        some ⟨1, .full, .absent, some 0⟩], 2⟩
    t.WellFormed ∧ ∀ q, (Pruner.start t).Visits q → q.trie.WellFormed := by
  intro w t
  have hsorted : Trie.ofSorted w [0, 3] = pure t := by cbv
  have hvalues : ∀ v ∈ ([0, 3] : List CodeValue), w.contains v = true := by
    simp [w, Width.contains, Width.maxValue]
  exact Trie.History.well_formed_throughout (.ofSorted hvalues hsorted)

end BitClassifier
