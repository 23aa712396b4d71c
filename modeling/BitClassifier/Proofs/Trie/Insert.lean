import BitClassifier.Proofs.Trie.Clear
import BitClassifier.Proofs.Trie.Entries

/-!
# Inserting a value

An insertion follows the way of a value down the tree. If the way ends in an empty place, it is
completed there with new nodes, one for each level that is left, which are numbered downwards: a
`sprout`. The climb from the lowest place then gives a sound tree again (`Represents.insert_new`).
What is accepted afterwards follows from that (`Represents.insert`).
-/

namespace BitClassifier

open Subtree BitVec

namespace Subtree

/-- The way of a value through `n` levels. The nodes are numbered from `id` downwards. -/
def sprout (v : CodeValue) : (n id : Nat) → Subtree
  | 0, _ => full
  | n + 1, id =>
    (⟨id, twoPow 32 n, hits v (twoPow 32 n), absent⟩ : Frame).fill (sprout v n (id + 1))

section Sprouts

variable {v c : CodeValue} {n : Nat}

theorem sprout_ne_absent (v : CodeValue) (n id : Nat) : sprout v n id ≠ absent := by
  cases n with
  | zero => simp [sprout]
  | succ n => exact ne_leaf_of_isNode (isNode_fill _ _) false

theorem fits_sprout (v : CodeValue) (n id : Nat) : (sprout v n id).Fits n := by
  induction n generalizing id with
  | zero => trivial
  | succ n ih => exact (Frame.fits_fill _ _).mpr ⟨rfl, ih (id + 1), fits_absent⟩

theorem minimal_sprout (v : CodeValue) (n id : Nat) : (sprout v n id).Minimal := by
  induction n generalizing id with
  | zero => trivial
  | succ n ih =>
    refine minimal_fill.mpr ⟨?_, ih (id + 1), trivial⟩
    rintro (_ | _) ⟨hsprout, hother⟩
    · exact sprout_ne_absent v n (id + 1) hsprout
    · cases hother

/-- A sprout accepts the value for which it was made, as far as its levels can tell. -/
theorem accepts_sprout (hn : n ≤ 32) (id : Nat) :
    (sprout v n id).accepts c = true ↔ AgreeBelow n c v := by
  induction n generalizing id with
  | zero => exact ⟨fun _ i hi => absurd hi (Nat.not_lt_zero i), fun _ => rfl⟩
  | succ n ih =>
    rw [sprout, Frame.accepts_fill, hits_twoPow hn, hits_twoPow hn, agreeBelow_succ,
      ← ih (Nat.le_of_lt hn) (id + 1)]
    by_cases hbit : c.getLsbD n = v.getLsbD n
    · simp [hbit]
    · simp [hbit, accepts]

end Sprouts

end Subtree

namespace Trie

/-- The sound tree that a trie stores between two operations. -/
structure Represents (t : Trie) (w : Width) (s : Subtree) : Prop where
  shows : t.Shows w s
  sound : s.Sound w

variable {t : Trie} {w : Width} {k : Spine} {f : Frame} {s : Subtree} {n : Nat} {v : CodeValue}

/-- All nodes but the root are counted. -/
theorem Represents.len_add_one (h : t.Represents w s) : t.len + 1 = s.size :=
  h.shows.holds.count.trans (card_cells s none)

/-- A new node takes the place of `absent`. -/
theorem Shows.alloc (h : t.Shows w (plug k (f.fill .absent))) (bit : CodeValue) :
    ∃ t', (t.alloc (.bare bit (some f.id))).2.putSlot f.id f.side (.child t.nodes.size) = pure t' ∧
      t'.Shows w (plug k (f.fill (.node t.nodes.size bit .absent .absent))) ∧
      t'.nodes.size = t.nodes.size + 1 := by
  have hnew := h.opened.alloc (.bare bit (some f.id))
  rw [Multiset.cons_swap] at hnew
  obtain ⟨t', hput, h'⟩ := hnew.putSlot f.side (.child t.nodes.size)
  refine ⟨t', hput, h.closed ?_, ?_⟩
  · rw [Frame.node_put] at h'
    simpa [cells, slot, Node.bare] using h'
  · rw [putSlot_size hput]
    exact Array.size_push _

theorem Shows.descend_eq (h : t.Shows w (plug k (f.fill s))) (hside : hits v f.bit = f.side) :
    descend v t f.id = (match s.slot with
      | .full => pure (none, t)
      | .child below => descend v t below
      | .absent =>
        if f.bit = 1#32 then do
          let t ← t.putSlot f.id f.side .full
          return (some f.id, t)
        else do
          let new := t.nodes.size
          let t ← (t.alloc (.bare (f.bit >>> 1) (some f.id))).2.putSlot f.id f.side (.child new)
          descend v t new) := by
  rw [Trie.descend, h.node, pure_bind, Frame.node_bit, hside]
  simp only [Frame.node_slot]
  rfl

/-- From an empty side on, the way is made of new nodes. -/
theorem Shows.sprouts (h : t.Shows w (plug k (f.fill .absent))) (habove : Above w (f :: k) n)
    (hside : hits v f.bit = f.side) :
    ∃ (t' : Trie) (j : Spine) (g : Frame),
      descend v t f.id = pure (some g.id, t') ∧ t'.Shows w (plug j (g.fill .full)) ∧
      climb true j (g.fill .full) = climb true k (f.fill (sprout v n t.nodes.size)) ∧
      t'.nodes.size = t.nodes.size + n := by
  induction n generalizing t k f with
  | zero =>
    have hbit : f.bit = 1#32 := habove.1.trans ((twoPow_eq_one_iff (by decide)).mpr rfl)
    obtain ⟨t', hput, h'⟩ := h.opened.putSlot f.side .full
    rw [Frame.node_put] at h'
    refine ⟨t', k, f, ?_, h.closed h', rfl, putSlot_size hput⟩
    rw [h.descend_eq hside, slot_absent]
    simp only [if_pos hbit]
    rw [hput, pure_bind]
  | succ m ih =>
    have hm : m + 1 < 32 := habove.2.2.2.lt_widest
    have hhalf : f.bit >>> 1 = BitVec.twoPow 32 m := by rw [habove.1, twoPow_succ_half hm]
    have hone : f.bit ≠ 1#32 := by
      rw [habove.1]
      exact fun hone => absurd ((twoPow_eq_one_iff hm).mp hone) (Nat.succ_ne_zero m)
    obtain ⟨t₁, hput, h₁, hsize₁⟩ := h.alloc (f.bit >>> 1)
    -- the new node, seen from the side on which the way goes on
    let e : Frame := ⟨t.nodes.size, twoPow 32 m, hits v (twoPow 32 m), .absent⟩
    have he : e.fill .absent = .node t.nodes.size (f.bit >>> 1) .absent .absent := by
      simp [e, Frame.fill, hhalf]
    rw [← he] at h₁
    obtain ⟨t', j, g, hrun, hshows, hclimb, hsize⟩ :=
      ih (f := e) (k := f :: k) h₁ ⟨rfl, fits_absent, trivial, habove⟩ rfl
    refine ⟨t', j, g, ?_, hshows, ?_, by omega⟩
    · rw [h.descend_eq hside, slot_absent]
      simp only [if_neg hone]
      rw [hput, pure_bind]
      exact hrun
    · -- the new node has nothing on its other side, so it stays
      rw [hclimb, climb, shrink_fill_of_other (by simp [e]), hsize₁]
      rfl

/-- The way down to the place of a value. If the value is accepted already, nothing is changed, and
otherwise the way ends in an empty place. -/
theorem Shows.descend {id : Nat} (h : t.Shows w (plug k s)) (hs : s.slot = .child id)
    (habove : Above w k n) (hfit : s.Fits n) (hsides : s.SidesMinimal) (hfollow : Follows k v) :
    (s.accepts v = true → descend v t id = pure (none, t)) ∧
      (s.accepts v = false → ∃ (j : Spine) (g : Frame) (m : Nat),
        plug k s = plug j (g.fill .absent) ∧ Above w (g :: j) m ∧
        Follows (g :: j) v ∧ Trie.descend v t id = Trie.descend v t g.id) := by
  induction n generalizing k s id with
  | zero =>
    obtain ⟨bit, off, on, rfl⟩ := slot_eq_child.mp hs
    exact hfit.elim
  | succ m ih =>
    obtain ⟨bit, off, on, rfl⟩ := slot_eq_child.mp hs
    obtain ⟨f, x, rfl, hside, hfill⟩ := exists_fill_hits v id bit off on
    rw [hfill] at h hfit hsides ⊢
    obtain ⟨hbit, hx, hother⟩ := (f.fits_fill x).mp hfit
    obtain ⟨hxMin, hotherMin⟩ := sidesMinimal_fill.mp hsides
    have hinside : Above w (f :: k) m := ⟨hbit, hother, hotherMin, habove⟩
    have hbelow : Follows (f :: k) v := follows_cons.mpr ⟨hside, hfollow⟩
    rw [Frame.accepts_fill, if_pos hside]
    have hstep := h.descend_eq hside
    cases x with
    | absent =>
      exact ⟨fun hacc => (Bool.false_ne_true hacc).elim,
        fun _ => ⟨k, f, m, rfl, hinside, hbelow, rfl⟩⟩
    | full => exact ⟨fun _ => hstep, fun hacc => (Bool.false_ne_true hacc.symm).elim⟩
    | node below bit' off' on' =>
      obtain ⟨hyes, hno⟩ := ih (k := f :: k) h rfl hinside hx hxMin.sidesMinimal hbelow
      refine ⟨fun hacc => hstep.trans (hyes hacc), fun hacc => ?_⟩
      obtain ⟨j, g, i, hplace, habove', hfollow', hrun⟩ := hno hacc
      exact ⟨j, g, i, hplace, habove', hfollow', hstep.trans hrun⟩

/-- A value that is accepted already changes nothing. -/
theorem Represents.insert_known (h : t.Represents w s) (hv : w.contains v = true)
    (hacc : s.accepts v = true) : t.insert v = pure (false, t) := by
  obtain ⟨off, on, rfl⟩ := label_eq_some.mp h.shows.root
  have hdescend := (Shows.descend (k := []) h.shows rfl rfl h.sound.fits h.sound.sides
    (follows_nil v)).1 hacc
  rw [Trie.insert, h.shows.holds.width, if_pos hv, hdescend]
  rfl

/-- The way of a new value is completed in an empty place, and the climb starts there. -/
theorem Represents.insert_new (h : t.Represents w s) (hv : w.contains v = true)
    (hacc : s.accepts v = false) :
    ∃ t' k f n, s = plug k (f.fill .absent) ∧ Above w (f :: k) n ∧ Follows (f :: k) v ∧
      t.insert v = pure (true, t') ∧
      t'.Represents w (climb true k (f.fill (sprout v n t.nodes.size))) ∧
      t'.nodes.size = t.nodes.size + n := by
  obtain ⟨off, on, rfl⟩ := label_eq_some.mp h.shows.root
  obtain ⟨k, f, n, hplace, habove, hfollow, hdown⟩ :=
    (Shows.descend (k := []) h.shows rfl rfl h.sound.fits h.sound.sides (follows_nil v)).2 hacc
  have hshows : t.Shows w (plug k (f.fill .absent)) := hplace ▸ h.shows
  obtain ⟨t₁, j, g, hrun, h₁, hclimb, hsize⟩ :=
    hshows.sprouts habove (follows_cons.mp hfollow).1
  obtain ⟨m, t₂, hcascade, h₂, -⟩ := h₁.cascade (g.fill_slot _) true
  rw [hclimb] at h₂
  have htrim : t₁.trimUp g.id = pure (m, t₂) := hcascade
  refine ⟨t₂, k, f, n, hplace, habove, hfollow, ?_, ⟨h₂, ?_⟩, ?_⟩
  · simp [Trie.insert, h.shows.holds.width, hv, hdown, hrun, htrim]
  · obtain ⟨hbit, hother, hotherMin, hupper⟩ := habove
    obtain ⟨hfit, hsides⟩ := hupper.climb (b := true) (s := f.fill (sprout v n t.nodes.size))
      (isNode_fill _ _) ((f.fits_fill _).mpr ⟨hbit, fits_sprout v n _, hother⟩)
      (sidesMinimal_fill.mpr ⟨minimal_sprout v n _, hotherMin⟩)
      (shrink_fill_of_ne (sprout_ne_absent v n _))
    exact ⟨h₂.root, hfit, hsides⟩
  · rw [cascade_size hcascade, hsize]

/-- The completed way leads to the new value and to no other value of the domain. -/
theorem accepts_climb_sprout (h : Above w (f :: k) n) (hfollow : Follows (f :: k) v)
    (hv : w.contains v = true) (id : Nat) (c : CodeValue) :
    (climb true k (f.fill (sprout v n id))).accepts c =
      ((plug k (f.fill .absent)).accepts c || decide (w.residue c = v)) := by
  rw [accepts_climb]
  show (plug (f :: k) (sprout v n id)).accepts c = ((plug (f :: k) .absent).accepts c || _)
  rw [Bool.eq_iff_iff, Bool.or_eq_true, decide_eq_true_iff, Width.residue_eq_iff hv]
  have hn : n ≤ 32 := Nat.le_trans h.le w.le_widest
  by_cases hc : Follows (f :: k) c
  · rw [accepts_plug_of_follows hc, accepts_plug_of_follows hc, accepts_sprout hn]
    simp only [Subtree.accepts, Bool.false_eq_true, false_or]
    have hupper := (h.follows_iff hfollow c).mp hc
    constructor
    · intro hagree i hi
      rcases Nat.lt_or_ge i n with hlow | hhigh
      · exact hagree i hlow
      · exact hupper i hhigh hi
    · exact fun hagree => hagree.mono h.le
  · rw [accepts_plug_of_not_follows hc _ .absent]
    refine (or_iff_left fun hagree => hc ?_).symm
    exact (h.follows_iff hfollow c).mpr fun i _ hi => hagree i hi

/-- An insertion tells whether the value is new and adds it to the set. -/
theorem Represents.insert (h : t.Represents w s) (hv : w.contains v = true) :
    ∃ t' s', t.insert v = pure (!s.accepts v, t') ∧ t'.Represents w s' ∧
      ∀ c, s'.accepts c = (s.accepts c || decide (w.residue c = v)) := by
  cases hacc : s.accepts v with
  | true =>
    refine ⟨t, s, h.insert_known hv hacc, h, fun c => ?_⟩
    by_cases hc : w.residue c = v
    · have hagree := (Width.residue_eq_iff hv c).mp hc
      rw [accepts_congr w.le_widest h.sound.fits hagree, hacc]
      rfl
    · simp [hc]
  | false =>
    obtain ⟨t', k, f, n, rfl, habove, hfollow, hrun, h', -⟩ := h.insert_new hv hacc
    exact ⟨t', _, hrun, h', accepts_climb_sprout habove hfollow hv _⟩

end Trie

end BitClassifier
