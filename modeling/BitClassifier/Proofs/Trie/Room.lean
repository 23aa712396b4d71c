import BitClassifier.Proofs.Trie.Numbers

/-!
# Room for entries

Entries are never used again, so while a trie is built its array only grows. What bounds it is that
values stay covered: a node is made in an empty place only, and a place that is filled never becomes
empty again. `Subtree.room` counts the nodes that empty places can still get. Insertions only turn
room into entries (`Represents.insert_room`), so there are never more entries than a trie of the
width has places for nodes (`insertAll_numbers_fit`).
-/

namespace BitClassifier

open Subtree

namespace Subtree

/-- How many nodes the empty places of a tree of `n` levels can get. -/
def room : Subtree → (n : Nat) → Nat
  | absent, n => 2 ^ n - 1
  | full, _ => 0
  | node _ _ off on, n => off.room (n - 1) + on.room (n - 1)

variable {k : Spine} {s s' : Subtree} {n : Nat}

theorem room_absent_succ (n : Nat) : absent.room (n + 1) = 2 * absent.room n + 1 := by
  have := Nat.one_le_two_pow (n := n)
  simp only [room, pow_succ]
  omega

theorem room_fill (f : Frame) (s : Subtree) (n : Nat) :
    (f.fill s).room (n + 1) = s.room n + f.other.room n := by
  unfold Frame.fill
  split
  · exact Nat.add_comm _ _
  · rfl

/-- The room in a place is a summand of the whole room. -/
theorem room_plug_add (k : Spine) (s s' : Subtree) (n : Nat) :
    (plug k s).room (n + k.length) + s'.room n = (plug k s').room (n + k.length) + s.room n := by
  induction k generalizing s s' n with
  | nil => exact Nat.add_comm _ _
  | cons f k ih =>
    have hplug := ih (f.fill s) (f.fill s') (n + 1)
    have hlevels : n + (k.length + 1) = n + 1 + k.length := by omega
    rw [room_fill, room_fill] at hplug
    rw [plug, plug, List.length_cons, hlevels]
    omega

theorem room_shrink (s : Subtree) (n : Nat) : (s.shrink true).room n = s.room n := by
  cases s with
  | absent => rfl
  | full => rfl
  | node id bit off on =>
    rw [shrink]
    split
    · rename_i h
      rw [h.1, h.2]
      rfl
    · rfl

/-- Folding full nodes makes no room. -/
theorem room_climb (k : Spine) (s : Subtree) (n : Nat) :
    (climb true k s).room (n + k.length) = (plug k s).room (n + k.length) := by
  induction k generalizing s n with
  | nil => rfl
  | cons f k ih =>
    have hplug := room_plug_add k (f.fill (s.shrink true)) (f.fill s) (n + 1)
    rw [room_fill, room_fill, room_shrink] at hplug
    have hlevels : n + (k.length + 1) = n + 1 + k.length := by omega
    rw [climb, plug, List.length_cons, hlevels, ih]
    exact Nat.add_right_cancel hplug

/-- A sprout turns as much room into nodes as it has levels. -/
theorem room_sprout (v : CodeValue) (n id : Nat) : (sprout v n id).room n + n = absent.room n := by
  induction n generalizing id with
  | zero => rfl
  | succ n ih =>
    have hbelow := ih (id + 1)
    rw [sprout, room_fill, room_absent_succ]
    dsimp only
    omega

end Subtree

namespace Trie

variable {t : Trie} {w : Width} {s : Subtree} {v : CodeValue} {values : List CodeValue}

/-- An insertion turns room into entries. -/
theorem Represents.insert_room (h : t.Represents w s) (hv : w.contains v = true) :
    ∃ new t' s', t.insert v = pure (new, t') ∧ t'.Represents w s' ∧
      t'.nodes.size + s'.room w.bits = t.nodes.size + s.room w.bits := by
  cases hacc : s.accepts v with
  | true => exact ⟨false, t, s, h.insert_known hv hacc, h, rfl⟩
  | false =>
    obtain ⟨t', k, f, n, rfl, habove, -, hrun, h', hsize⟩ := h.insert_new hv hacc
    have hlevels : w.bits = n + 1 + k.length := by
      have := habove.length_add
      rw [List.length_cons] at this
      omega
    have hclimb := room_climb k (f.fill (sprout v n t.nodes.size)) (n + 1)
    have hplug := room_plug_add k (f.fill (sprout v n t.nodes.size)) (f.fill absent) (n + 1)
    have hsprout := room_sprout v n t.nodes.size
    rw [room_fill, room_fill] at hplug
    refine ⟨true, t', _, hrun, h', ?_⟩
    rw [hlevels, hclimb]
    omega

/-- Over any insertions, entries and room stay the same number together. -/
theorem Represents.insertAll_room (h : t.Represents w s)
    (hvalues : ∀ v ∈ values, w.contains v = true) :
    ∃ t' s', t.insertAll values = pure t' ∧ t'.Represents w s' ∧
      t'.nodes.size + s'.room w.bits = t.nodes.size + s.room w.bits := by
  induction values generalizing t s with
  | nil => exact ⟨t, s, rfl, h, rfl⟩
  | cons v values ih =>
    rw [List.forall_mem_cons] at hvalues
    obtain ⟨new, t₁, s₁, hrun₁, h₁, hroom₁⟩ := h.insert_room hvalues.1
    obtain ⟨t₂, s₂, hrun₂, h₂, hroom₂⟩ := ih h₁ hvalues.2
    refine ⟨t₂, s₂, ?_, h₂, hroom₂.trans hroom₁⟩
    rw [Trie.insertAll, hrun₁, pure_bind]
    exact hrun₂

/-- A new trie has its root and room for all other nodes of its width. -/
theorem empty_room (w : Width) :
    (Trie.empty w).nodes.size + (Subtree.node 0 w.highBit absent absent).room w.bits =
      2 ^ w.bits - 1 := by
  obtain ⟨n, hn⟩ := Nat.exists_eq_add_one.mpr w.one_le
  have hone : (Trie.empty w).nodes.size = 1 := rfl
  have hroot : (Subtree.node 0 w.highBit absent absent).room (n + 1) =
      absent.room n + absent.room n := rfl
  show _ = absent.room w.bits
  rw [hn, hone, hroot, room_absent_succ]
  omega

/-- However a new trie is filled, it never has more than `2 ^ w - 1` entries. So the next insertion,
whatever its value, gives new nodes the numbers from the number of entries on, and all of these are
below the largest number of 32 bits. -/
theorem insertAll_numbers_fit (hvalues : ∀ v ∈ values, w.contains v = true) :
    ∃ t, (Trie.empty w).insertAll values = pure t ∧ t.nodes.size ≤ 2 ^ w.bits - 1 ∧
      ∀ v, w.contains v = true → ∃ new t', t.insert v = pure (new, t') ∧
        t'.nodes.size ≤ 2 ^ w.bits - 1 ∧
        t.handedOut t' v = List.range' t.nodes.size (t'.nodes.size - t.nodes.size) ∧
        ∀ id ∈ t.handedOut t' v, id ≤ 2 ^ 32 - 2 ∧ (BitVec.ofNat 32 id).toNat = id := by
  have hempty := empty_room w
  have hwidest : 2 ^ w.bits ≤ 2 ^ 32 := Nat.pow_le_pow_right (by decide) w.le_widest
  obtain ⟨t, s, hrun, h, hroom⟩ := (empty_represents w).insertAll_room hvalues
  refine ⟨t, hrun, by omega, fun v hv => ?_⟩
  obtain ⟨new, t', s', hinsert, h', hroom'⟩ := h.insert_room hv
  obtain ⟨new', t₁, s₁, n, hinsert', -, -, hsize, hout⟩ := h.insert_steady hv
  obtain ⟨rfl, rfl⟩ := Run.pure_mk_inj.mp (hinsert.symm.trans hinsert')
  have hgrown : t'.nodes.size - t.nodes.size = n := by omega
  refine ⟨new, t', hinsert, by omega, by rw [hgrown, hout], fun id hid => ?_⟩
  rw [hout, List.mem_range'_1] at hid
  have hle : id ≤ 2 ^ 32 - 2 := by omega
  exact ⟨hle, by rw [BitVec.toNat_ofNat, Nat.mod_eq_of_lt (by omega)]⟩

/-- The value 2 comes twice and takes one node, and 0 takes the last one of two bits. -/
theorem insertAll_numbers_fit_twice :
    let w : Width := ⟨2, by decide, by decide⟩
    let half : Node := ⟨1, .absent, .full, some 0⟩
    let t : Trie := ⟨w, #[some ⟨2, .child 1, .absent, none⟩, some half], 1⟩
    let t' : Trie := ⟨w, #[some ⟨2, .child 1, .child 2, none⟩, some half, some half], 2⟩
    (∀ v ∈ ([2, 2] : List CodeValue), w.contains v = true) ∧
      (Trie.empty w).insertAll [2, 2] = pure t ∧ t.insert 0 = pure (true, t') ∧
      t'.nodes.size ≤ 2 ^ 2 - 1 ∧ t.handedOut t' 0 = [2] := by
  intro w half t t'
  have hvalues : ∀ v ∈ ([2, 2] : List CodeValue), w.contains v = true := by
    simp [w, Width.contains, Width.maxValue]
  have hall : (Trie.empty w).insertAll [2, 2] = pure t := by cbv
  have hinsert : t.insert 0 = pure (true, t') := by cbv
  obtain ⟨t₁, hall₁, -, hnext⟩ := insertAll_numbers_fit hvalues
  obtain rfl := Run.pure_inj.mp (hall₁.symm.trans hall)
  obtain ⟨new, t₂, hinsert₁, hsize, hout, -⟩ := hnext 0 (by decide)
  obtain ⟨rfl, rfl⟩ := Run.pure_mk_inj.mp (hinsert₁.symm.trans hinsert)
  exact ⟨hvalues, hall, hinsert, hsize, hout⟩

end Trie

end BitClassifier
