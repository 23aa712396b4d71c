import BitClassifier.Proofs.Subtree.Spine

/-!
# Sound trees

The tree of a trie between two operations is sound: its root is node 0, its nodes test one bit of
the domain after another, and both sides of the root are minimal. The root itself may hold the same
leaf on both sides, since it is never removed.

`Above w k n` is what a place at level `n` of a sound tree knows of the frames above it. Climbing
from a place brings a sound tree back (`Sound.climb`).
-/

namespace BitClassifier

namespace Subtree

/-- The number and the bit of a node. -/
def label : Subtree → Option (Nat × CodeValue)
  | node id bit _ _ => some (id, bit)
  | _ => none

/-- Both sides are minimal. -/
def SidesMinimal : Subtree → Prop
  | node _ _ off on => off.Minimal ∧ on.Minimal
  | _ => True

/-- The tree of a trie between two operations. -/
structure Sound (w : Width) (s : Subtree) : Prop where
  label : s.label = some (0, w.highBit)
  fits : s.Fits w.bits
  sides : s.SidesMinimal

theorem fits_root {w : Width} {id : Nat} {off on : Subtree} :
    (node id w.highBit off on).Fits w.bits ↔ off.Fits (w.bits - 1) ∧ on.Fits (w.bits - 1) := by
  obtain ⟨m, hm⟩ : ∃ m, w.bits = m + 1 := Nat.exists_eq_add_of_le' w.one_le
  simp [Width.highBit, hm, Fits]

/-- The frames above a place at level `n` of a sound tree. -/
def Above (w : Width) : Spine → (n : Nat) → Prop
  | [], n => n = w.bits
  | f :: k, n => f.bit = BitVec.twoPow 32 n ∧ f.other.Fits n ∧ f.other.Minimal ∧ Above w k (n + 1)

variable {w : Width} {k : Spine} {n : Nat} {s s' : Subtree} {b : Bool}

theorem label_eq_some {id : Nat} {bit : CodeValue} :
    s.label = some (id, bit) ↔ ∃ off on, s = .node id bit off on := by
  cases s <;> simp [label]

@[simp] theorem label_fill (f : Frame) (s : Subtree) : (f.fill s).label = some (f.id, f.bit) := by
  unfold Frame.fill
  split <;> rfl

@[simp] theorem isNode_fill (f : Frame) (s : Subtree) : (f.fill s).isNode = true := by
  unfold Frame.fill
  split <;> rfl

theorem sidesMinimal_fill {f : Frame} :
    (f.fill s).SidesMinimal ↔ s.Minimal ∧ f.other.Minimal := by
  unfold Frame.fill
  split
  · exact and_comm
  · exact Iff.rfl

theorem Minimal.sidesMinimal (h : s.Minimal) : s.SidesMinimal := by
  cases s with
  | absent => trivial
  | full => trivial
  | node id bit off on => exact h.2

theorem minimal_fill {f : Frame} :
    (f.fill s).Minimal ↔
      (∀ b, ¬(s = leaf b ∧ f.other = leaf b)) ∧ s.Minimal ∧ f.other.Minimal := by
  unfold Frame.fill
  split
  · simp only [Minimal, and_comm]
  · rfl

theorem label_plug_congr (h : s.label = s'.label) : (plug k s).label = (plug k s').label := by
  induction k generalizing s s' with
  | nil => exact h
  | cons f k ih => exact ih (by simp)

theorem label_climb (k : Spine) (s : Subtree) : (climb b k s).label = (plug k s).label := by
  induction k generalizing s with
  | nil => rfl
  | cons f k ih =>
    rw [climb, ih, plug]
    exact label_plug_congr (by simp)

/-! ## Answers

A minimal tree gives both answers unless it is a leaf. The bits above the tree do not matter.
-/

/-- A value that leads to a side of a node is given the answer of this side, which looks at the
lower bits only. -/
theorem accepts_fill_of_side {f : Frame} {c d : CodeValue} (hn : n < 32)
    (hfit : (f.fill s).Fits (n + 1)) (hbelow : AgreeBelow n d c) (hside : d.getLsbD n = f.side) :
    (f.fill s).accepts d = s.accepts c := by
  obtain ⟨hbit, hs, -⟩ := (f.fits_fill s).mp hfit
  rw [Frame.accepts_fill, hbit, hits_twoPow hn, if_pos hside,
    accepts_congr (Nat.le_of_lt hn) hs hbelow]

/-- An answer that is given on one side of a node is given by the node. -/
theorem exists_accepts_fill {f : Frame} {c : CodeValue} (hn : n < 32)
    (hfit : (f.fill s).Fits (n + 1)) (h : ∃ d, AgreeFrom n d c ∧ s.accepts d = b) :
    ∃ d, AgreeFrom (n + 1) d c ∧ (f.fill s).accepts d = b := by
  obtain ⟨d, hd, hacc⟩ := h
  obtain ⟨e, hbelow, hside, habove⟩ := exists_set_bit hn d f.side
  refine ⟨e, fun i hi => (habove i hi).trans (hd i (Nat.le_of_succ_le hi)), ?_⟩
  rw [accepts_fill_of_side hn hfit hbelow hside, hacc]

theorem Minimal.exists_accepts (hs : s.Minimal) (hn : n ≤ 32) (hfit : s.Fits n)
    (hne : s ≠ leaf (!b)) (c : CodeValue) : ∃ d, AgreeFrom n d c ∧ s.accepts d = b := by
  induction s generalizing n with
  | absent => exact ⟨c, .refl n c, by cases b <;> simp_all [accepts]⟩
  | full => exact ⟨c, .refl n c, by cases b <;> simp_all [accepts]⟩
  | node id bit off on ihOff ihOn =>
    obtain ⟨m, rfl⟩ := hfit.pos
    obtain ⟨hpair, hOff, hOn⟩ := hs
    -- by minimality one side is not the leaf for the opposite answer, and that side gives `b`
    by_cases hon : on = leaf (!b)
    · have hoff : off ≠ leaf (!b) := fun hoff => hpair (!b) ⟨hoff, hon⟩
      exact exists_accepts_fill (f := ⟨id, bit, false, on⟩) hn hfit
        (ihOff hOff (Nat.le_of_lt hn) hfit.2.1 hoff)
    · exact exists_accepts_fill (f := ⟨id, bit, true, off⟩) hn hfit
        (ihOn hOn (Nat.le_of_lt hn) hfit.2.2 hon)

/-- A sound tree gives one answer only if both sides of its root are the leaf for it. -/
theorem Sound.accepts_all_iff (h : Sound w s) (b : Bool) :
    (∀ c, s.accepts c = b) ↔ s = .node 0 w.highBit (leaf b) (leaf b) := by
  obtain ⟨off, on, rfl⟩ := label_eq_some.mp h.label
  constructor
  · intro hall
    have hfit := h.fits
    obtain ⟨m, hm⟩ := hfit.pos
    have hlt : m < 32 := by
      have := w.le_widest
      omega
    rw [hm] at hfit
    have hside (f : Frame) (x : Subtree) (hfill : f.fill x = .node 0 w.highBit off on)
        (hx : x.Minimal) : x = leaf b := by
      rw [← hfill] at hall hfit
      by_contra hne
      have hgive := hx.exists_accepts (b := !b) (Nat.le_of_lt hlt) ((f.fits_fill x).mp hfit).2.1
        (by simpa using hne) 0
      obtain ⟨d, -, hd⟩ := exists_accepts_fill hlt hfit hgive
      rw [hall d] at hd
      cases b <;> cases hd
    rw [hside ⟨0, w.highBit, false, on⟩ off rfl h.sides.1,
      hside ⟨0, w.highBit, true, off⟩ on rfl h.sides.2]
  · intro heq c
    cases heq
    simp [accepts]

/-- A sound tree that gives both answers is minimal. -/
theorem Sound.minimal (h : Sound w s)
    (hne : ∀ b, s ≠ .node 0 w.highBit (leaf b) (leaf b)) : s.Minimal := by
  obtain ⟨off, on, rfl⟩ := label_eq_some.mp h.label
  refine ⟨fun b hb => hne b ?_, h.sides⟩
  rw [hb.1, hb.2]

/-! ## Down a spine -/

/-- What a sound tree says at a place inside. -/
theorem exists_above (hfit : (plug k s).Fits w.bits) (hsides : (plug k s).SidesMinimal) :
    ∃ n, Above w k n ∧ s.Fits n ∧ s.SidesMinimal ∧ (k ≠ [] → s.Minimal) := by
  induction k generalizing s with
  | nil => exact ⟨w.bits, rfl, hfit, hsides, fun h => absurd rfl h⟩
  | cons f k ih =>
    obtain ⟨m, habove, hfill, hfillSides, -⟩ := ih hfit hsides
    obtain ⟨n, rfl⟩ := f.fits_fill_pos s hfill
    obtain ⟨hbit, hs, hother⟩ := (f.fits_fill s).mp hfill
    obtain ⟨hmin, hotherMin⟩ := sidesMinimal_fill.mp hfillSides
    exact ⟨n, ⟨hbit, hother, hotherMin, habove⟩, hs, hmin.sidesMinimal, fun _ => hmin⟩

theorem Above.le (h : Above w k n) : n ≤ w.bits := by
  induction k generalizing n with
  | nil => exact Nat.le_of_eq h
  | cons f k ih => exact Nat.le_of_succ_le (ih h.2.2.2)

theorem Above.lt_widest (h : Above w k (n + 1)) : n < 32 :=
  Nat.lt_of_lt_of_le h.le w.le_widest

/-- A value that leads to a place fixes the bits of the values that do. -/
theorem Above.follows_iff {v : CodeValue} (h : Above w k n) (hv : Follows k v) (c : CodeValue) :
    Follows k c ↔ ∀ i, n ≤ i → i < w.bits → c.getLsbD i = v.getLsbD i := by
  induction k generalizing n with
  | nil =>
    obtain rfl : n = w.bits := h
    exact ⟨fun _ i hle hlt => absurd hlt (Nat.not_lt.mpr hle), fun _ => follows_nil c⟩
  | cons f k ih =>
    obtain ⟨hbit, -, -, habove⟩ := h
    rw [follows_cons] at hv ⊢
    have hn := habove.lt_widest
    rw [ih habove hv.2, ← hv.1, hbit, hits_twoPow hn, hits_twoPow hn]
    constructor
    · rintro ⟨hc, htail⟩ i hle hlt
      rcases Nat.eq_or_lt_of_le hle with rfl | hi
      · exact hc
      · exact htail i hi hlt
    · intro hall
      exact ⟨hall n (Nat.le_refl n) habove.le, fun i hle => hall i (Nat.le_of_succ_le hle)⟩

/-! ## Back up -/

theorem Fits.shrink (h : s.Fits n) (b : Bool) : (s.shrink b).Fits n := by
  cases s with
  | absent => exact h
  | full => exact h
  | node id bit off on =>
    rw [Subtree.shrink]
    split
    · cases b <;> simp
    · exact h

theorem SidesMinimal.shrink (h : s.SidesMinimal) (hopp : s.shrink (!b) = s) :
    (s.shrink b).Minimal := by
  cases s with
  | absent => trivial
  | full => trivial
  | node id bit off on =>
    rw [Subtree.shrink]
    split
    · cases b <;> trivial
    · rename_i hb
      refine ⟨fun b' hb' => ?_, h⟩
      rcases Bool.eq_or_eq_not b' b with rfl | rfl
      · exact hb hb'
      · rw [Subtree.shrink, if_pos hb'] at hopp
        cases b <;> simp at hopp

theorem shrink_ne_leaf_not (hnode : s.isNode) : s.shrink b ≠ leaf (!b) := by
  cases s with
  | absent => simp [isNode] at hnode
  | full => simp [isNode] at hnode
  | node id bit off on =>
    rw [Subtree.shrink]
    split <;> cases b <;> simp

/-- Climbing from a node whose sides are fine gives a tree whose sides are fine, unless the node has
the opposite leaf on both sides. -/
theorem Above.climb (h : Above w k n) (hnode : s.isNode) (hfit : s.Fits n)
    (hsides : s.SidesMinimal) (hopp : s.shrink (!b) = s) :
    (climb b k s).Fits w.bits ∧ (climb b k s).SidesMinimal := by
  induction k generalizing s n with
  | nil =>
    obtain rfl : n = w.bits := h
    exact ⟨hfit, hsides⟩
  | cons f k ih =>
    obtain ⟨hbit, hother, hotherMin, habove⟩ := h
    refine ih habove (by simp) ?_ ?_ (shrink_fill_of_ne (shrink_ne_leaf_not hnode))
    · exact (f.fits_fill _).mpr ⟨hbit, hfit.shrink b, hother⟩
    · exact sidesMinimal_fill.mpr ⟨hsides.shrink hopp, hotherMin⟩

/-- A place of a sound tree can be given to another node with the same number and bit. -/
theorem Sound.climb {s s' : Subtree} (h : Sound w (plug k s)) (habove : Above w k n)
    (hlabel : s'.label = s.label) (hnode : s'.isNode) (hfit : s'.Fits n)
    (hsides : s'.SidesMinimal) (hopp : s'.shrink (!b) = s') : Sound w (climb b k s') where
  label := by rw [label_climb, label_plug_congr hlabel, h.label]
  fits := (habove.climb hnode hfit hsides hopp).1
  sides := (habove.climb hnode hfit hsides hopp).2

end Subtree

end BitClassifier
