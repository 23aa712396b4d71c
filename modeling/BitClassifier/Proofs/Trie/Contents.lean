import BitClassifier.Proofs.Ascending
import BitClassifier.Proofs.Trie.Insert

/-!
# The set of a trie

What a trie that represents a tree answers, and how the operations change the set: an insertion adds
one value (`Represents.insert`), and clearing a slot takes out the values that lead there
(`Represents.clear`, `accepts_climb_absent`).
-/

namespace BitClassifier

open Subtree

namespace Trie

variable {t : Trie} {w : Width} {k : Spine} {f : Frame} {s x : Subtree} {id : Nat}

/-! ## Questions -/

theorem Shows.accepts (h : t.Shows w (plug k s)) (hs : s.slot = .child id) (c : CodeValue) :
    t.accepts c id = pure (s.accepts c) := by
  induction s generalizing k id with
  | absent => cases hs
  | full => cases hs
  | node id' bit off on ihOff ihOn =>
    obtain rfl : id' = id := Slot.child.inj hs
    rw [Trie.accepts, h.node_eq, pure_bind, Subtree.accepts]
    cases hits c bit with
    | false =>
      cases off with
      | absent => rfl
      | full => rfl
      | node below bit' off' on' => exact ihOff (k := ⟨id', bit, false, on⟩ :: k) h rfl
    | true =>
      cases on with
      | absent => rfl
      | full => rfl
      | node below bit' off' on' => exact ihOn (k := ⟨id', bit, true, off⟩ :: k) h rfl

/-- A membership test reads the stored tree. -/
theorem Shows.contains (h : t.Shows w s) (c : CodeValue) : t.contains c = pure (s.accepts c) := by
  obtain ⟨off, on, rfl⟩ := label_eq_some.mp h.root
  exact Shows.accepts (k := []) h rfl c

theorem Shows.isEmpty (h : t.Shows w s) :
    t.isEmpty = pure (decide (s = .node 0 w.highBit .absent .absent)) := by
  obtain ⟨off, on, rfl⟩ := label_eq_some.mp h.root
  rw [Trie.isEmpty, Shows.node_eq (k := []) h, pure_bind]
  simp [Bool.and_comm]

theorem Shows.isFull (h : t.Shows w s) :
    t.isFull = pure (decide (s = .node 0 w.highBit .full .full)) := by
  obtain ⟨off, on, rfl⟩ := label_eq_some.mp h.root
  rw [Trie.isFull, Shows.node_eq (k := []) h, pure_bind]
  simp [Bool.and_comm]

/-! ## Changes -/

theorem empty_represents (w : Width) :
    (empty w).Represents w (.node 0 w.highBit .absent .absent) where
  shows := {
    holds := {
      width := rfl
      nodup := by simp [cells]
      cell?_iff := by
        intro id n
        cases id <;> simp [cell?, empty, cells, slot, Node.bare, eq_comm]
      count := rfl }
    root := rfl }
  sound := {
    label := rfl
    fits := fits_root.mpr ⟨fits_absent, fits_absent⟩
    sides := ⟨trivial, trivial⟩ }

theorem Represents.insertAll {values : List CodeValue} (h : t.Represents w s)
    (hvalues : ∀ v ∈ values, w.contains v = true) :
    ∃ t' s', t.insertAll values = pure t' ∧ t'.Represents w s' ∧
      ∀ c, s'.accepts c = true ↔ s.accepts c = true ∨ w.residue c ∈ values := by
  induction values generalizing t s with
  | nil => exact ⟨t, s, rfl, h, fun c => by simp⟩
  | cons v values ih =>
    rw [List.forall_mem_cons] at hvalues
    obtain ⟨t₁, s₁, hinsert, h₁, haccepts₁⟩ := h.insert hvalues.1
    obtain ⟨t₂, s₂, hall, h₂, haccepts₂⟩ := ih h₁ hvalues.2
    refine ⟨t₂, s₂, ?_, h₂, fun c => ?_⟩
    · rw [Trie.insertAll, hinsert, pure_bind]
      exact hall
    · rw [haccepts₂, haccepts₁, Bool.or_eq_true, decide_eq_true_iff, List.mem_cons, or_assoc]

/-- A trie that is built from a list holds the listed values. -/
theorem ofSorted_represents {values : List CodeValue}
    (hvalues : ∀ v ∈ values, w.contains v = true) :
    ∃ t' s', ofSorted w values = pure t' ∧ t'.Represents w s' ∧
      ∀ c, s'.accepts c = true ↔ w.residue c ∈ values := by
  obtain ⟨t', s', hrun, hrep, haccepts⟩ := (empty_represents w).insertAll
    fun v hv => hvalues v (mem_eraseReps.mp hv)
  refine ⟨t', s', hrun, hrep, fun c => ?_⟩
  rw [haccepts, mem_eraseReps]
  simp [Subtree.accepts]

/-- Clearing a slot empties a place and climbs from there. -/
theorem Represents.clear (h : t.Represents w (plug k (f.fill x))) :
    ∃ m t', t.clear f.id f.side = pure (m, t') ∧
      t'.Represents w (climb false k (f.fill .absent)) := by
  obtain ⟨m, t', hrun, hshows, -⟩ := h.shows.clear
  obtain ⟨n, ⟨hbit, hother, hotherMin, habove⟩, -⟩ :=
    exists_above (k := f :: k) h.sound.fits h.sound.sides
  refine ⟨m, t', hrun, hshows, ?_⟩
  refine h.sound.climb habove (by simp) (by simp) ?_ ?_ (shrink_fill_of_ne (by simp))
  · exact (f.fits_fill _).mpr ⟨hbit, fits_absent, hother⟩
  · exact sidesMinimal_fill.mpr ⟨trivial, hotherMin⟩

end Trie

end BitClassifier
