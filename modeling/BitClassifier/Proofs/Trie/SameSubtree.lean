import BitClassifier.Proofs.Prune.Meaning
import BitClassifier.Proofs.Prune.Searches
import BitClassifier.Proofs.Subtree.Renumber
import BitClassifier.Proofs.Trie.WellFormed

/-!
# Equal subtrees

`sameSubtree` compares shapes: it asks whether two slots have nodes and accepting slots in the same
places. In a trie with a history this decides more, namely whether the two slots accept the same
values (`History.sameSubtree_iff`), since what hangs in a slot of a live node is minimal and a
minimal tree is settled by its meaning.

The slots have to belong to nodes that test the same bit. What is left of a value below such a slot
is a suffix: the bits under the tested one, or a value below it.
-/

namespace BitClassifier

open Subtree BitVec

namespace Subtree

variable {s s' : Subtree} {m : Nat}

theorem sameShape_of_unnumbered (h : s.unnumbered = s'.unnumbered) : s.sameShape s' = true := by
  induction s generalizing s' with
  | absent =>
    obtain rfl := renumber_eq_absent.mp h.symm
    rfl
  | full =>
    obtain rfl := renumber_eq_full.mp h.symm
    rfl
  | node id bit off on ihOff ihOn =>
    cases s' with
    | absent => cases h
    | full => cases h
    | node id' bit' off' on' =>
      obtain ⟨-, -, hOff, hOn⟩ := Subtree.node.injEq .. ▸ h
      rw [sameShape, ihOff hOff, ihOn hOn, Bool.and_self]

/-- Minimal trees of one level have the same shape exactly if they have the same meaning. -/
theorem Minimal.sameShape_iff (hmin : s.Minimal) (hmin' : s'.Minimal) (hm : m ≤ 32)
    (hfit : s.Fits m) (hfit' : s'.Fits m) :
    s.sameShape s' = true ↔ ∀ c, s.accepts c = s'.accepts c := by
  constructor
  · intro hshape c
    exact sameShape_accepts hshape hfit hfit'
  · intro h
    exact sameShape_of_unnumbered (hmin.unnumbered_eq hmin' hm hfit hfit' h)

/-- A tree of level `m` is settled by the values below `2 ^ m`. -/
theorem accepts_eq_iff_suffixes (hm : m < 32) (hfit : s.Fits m) (hfit' : s'.Fits m) :
    (∀ c, s.accepts c = s'.accepts c) ↔
      ∀ suffix, suffix < twoPow 32 m → s.accepts suffix = s'.accepts suffix := by
  constructor
  · exact fun h suffix _ => h suffix
  · intro h c
    obtain ⟨d, hlt, hagree⟩ := exists_lt_agreeBelow hm c
    have hle := Nat.le_of_lt hm
    rw [← accepts_congr hle hfit hagree, ← accepts_congr hle hfit' hagree]
    exact h d hlt

end Subtree

namespace Trie

/-- Whether a value is accepted below what is in a slot. -/
def acceptsBelow (t : Trie) (c : CodeValue) : Slot → Run Bool
  | .absent => return false
  | .full => return true
  | .child id => t.accepts c id

variable {t : Trie} {w : Width} {k : Spine} {s x : Subtree} {S : Set CodeValue} {id id' : Nat}
  {n n' : Node}

theorem Shows.acceptsBelow (h : t.Shows w (plug k x)) (c : CodeValue) :
    t.acceptsBelow c x.slot = pure (x.accepts c) := by
  cases x with
  | absent => rfl
  | full => rfl
  | node id bit off on => exact h.accepts rfl c

/-- What hangs in a slot of a live node is a minimal tree of the level below. -/
theorem Represents.exists_slot (h : t.Represents w s) (hcell : t.cell? id = some n)
    (side : Bool) :
    ∃ (k : Spine) (x : Subtree) (m : Nat), s = plug k x ∧ n.slot side = x.slot ∧
      m < 32 ∧ n.bit = twoPow 32 m ∧ x.Fits m ∧ x.Minimal := by
  obtain ⟨k, bit, off, on, rfl, rfl⟩ := h.shows.exists_node hcell
  have hplace : plug k (.node id bit off on) =
      plug (⟨id, bit, side, pick (!side) off on⟩ :: k) (pick side off on) := by
    rw [plug, fill_pick]
  rw [hplace] at h
  obtain ⟨m, habove, hfit, -, hmin⟩ := exists_above h.sound.fits h.sound.sides
  exact ⟨_, _, m, hplace, slot_pick .., habove.2.2.2.lt_widest, habove.1, hfit,
    hmin (List.cons_ne_nil _ _)⟩

/-- Slots of live nodes that test the same bit are the same exactly if they accept the same
suffixes, whatever operations made the trie. Every suffix is either accepted or not, and the
comparison ends. -/
theorem History.sameSubtree_iff (h : t.History w S) (hcell : t.cell? id = some n)
    (hcell' : t.cell? id' = some n') (hbit : n'.bit = n.bit) (side side' : Bool) :
    ∃ (accepted accepted' : CodeValue → Bool) (same : Bool),
      (∀ c, t.acceptsBelow c (n.slot side) = pure (accepted c)) ∧
      (∀ c, t.acceptsBelow c (n'.slot side') = pure (accepted' c)) ∧
      t.sameSubtree (n.slot side) (n'.slot side') = pure same ∧
      (same = true ↔ ∀ suffix, suffix < n.bit → accepted suffix = accepted' suffix) := by
  obtain ⟨s, hrep, -⟩ := h.represents
  obtain ⟨k, x, m, hplace, hslot, hm, hn, hfit, hmin⟩ := hrep.exists_slot hcell side
  obtain ⟨k', x', m', hplace', hslot', hm', hn', hfit', hmin'⟩ := hrep.exists_slot hcell' side'
  -- the tested bits are equal, so the two trees are on one level
  obtain rfl : m = m' := twoPow_inj hm (hn.symm.trans (hbit.symm.trans hn'))
  have hshows := hplace ▸ hrep.shows
  have hshows' := hplace' ▸ hrep.shows
  rw [hslot, hslot', hn]
  refine ⟨x.accepts, x'.accepts, x.sameShape x', hshows.acceptsBelow, hshows'.acceptsBelow, ?_, ?_⟩
  · rw [sameSubtree, hshows.sameAll hshows']
    cases x.sameShape x' <;> simp [sameAll]
  · rw [hmin.sameShape_iff hmin' (Nat.le_of_lt hm) hfit hfit',
      accepts_eq_iff_suffixes hm hfit hfit']

/-- The two sides of the root hold 0 and 2. The upper half was complete and cleared in between, so
its node is younger than that of the lower half. -/
theorem History.sameSubtree_iff_refilled :
    let w : Width := ⟨2, by decide, by decide⟩
    let n : Node := ⟨2, .child 3, .child 1, none⟩
    let t : Trie :=
      ⟨w, #[some n, some ⟨1, .absent, .full, some 0⟩, none, some ⟨1, .absent, .full, some 0⟩], 2⟩
    (∃ S, t.History w S) ∧ t.cell? 0 = some n ∧
      ∃ (accepted accepted' : CodeValue → Bool) (same : Bool),
        (∀ c, t.acceptsBelow c (.child 3) = pure (accepted c)) ∧
        (∀ c, t.acceptsBelow c (.child 1) = pure (accepted' c)) ∧
        t.sameSubtree (.child 3) (.child 1) = pure same ∧
        (same = true ↔ ∀ suffix, suffix < 2#32 → accepted suffix = accepted' suffix) := by
  intro w n t
  let t₁ : Trie :=
    ⟨w, #[some ⟨2, .full, .child 1, none⟩, some ⟨1, .absent, .full, some 0⟩, none], 1⟩
  let t₂ : Trie :=
    ⟨w, #[some ⟨2, .absent, .child 1, none⟩, some ⟨1, .absent, .full, some 0⟩, none], 1⟩
  have hsorted : Trie.ofSorted w [0, 2, 3] = pure t₁ := by cbv
  have hvalues : ∀ v ∈ ([0, 2, 3] : List CodeValue), w.contains v = true := by
    simp [w, Width.contains, Width.maxValue]
  have hclear : t₁.clear 0 true = pure (0, t₂) := by cbv
  have hinsert : t₂.insert 2 = pure (true, t) := by cbv
  have hlive : t₁.Live 0 := rfl
  have hcleared := History.clear (.ofSorted hvalues hsorted) hlive hclear
  have h := History.insert hcleared (by decide) hinsert
  have hcell : t.cell? 0 = some n := rfl
  exact ⟨⟨_, h⟩, hcell, History.sameSubtree_iff h hcell hcell rfl true false⟩

end Trie

end BitClassifier
