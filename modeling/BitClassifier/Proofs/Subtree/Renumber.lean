import BitClassifier.Proofs.Subtree.Sound

/-!
# Renumbered trees

The numbers of the nodes are the only part of a tree that its history can leave a mark on. A minimal
tree is settled by its meaning, its numbers apart (`Minimal.unnumbered_eq`), and trees that differ
in their numbers only are renamings of each other (`exists_renumber`).
-/

namespace BitClassifier

/-- A slot after its node got another number. -/
def Slot.renumber (ρ : Nat → Nat) : Slot → Slot
  | child id => child (ρ id)
  | s => s

/-- A node after it and its neighbours got other numbers. -/
def Node.renumber (ρ : Nat → Nat) (n : Node) : Node :=
  ⟨n.bit, n.on.renumber ρ, n.off.renumber ρ, n.parent.map ρ⟩

theorem Node.slot_renumber (ρ : Nat → Nat) (n : Node) (side : Bool) :
    (n.renumber ρ).slot side = (n.slot side).renumber ρ := by
  cases side <;> rfl

namespace Subtree

/-- Gives the nodes other numbers. -/
def renumber (ρ : Nat → Nat) : Subtree → Subtree
  | absent => absent
  | full => full
  | node id bit off on => node (ρ id) bit (off.renumber ρ) (on.renumber ρ)

/-- A tree without the difference that numbers make. -/
def unnumbered (s : Subtree) : Subtree :=
  s.renumber fun _ => 0

/-- The numbers of the nodes. -/
def numbers : Subtree → Multiset Nat
  | absent => 0
  | full => 0
  | node id _ off on => id ::ₘ (off.numbers + on.numbers)

variable {w : Width} {s s' off on off' on' : Subtree} {ρ σ : Nat → Nat} {id id' n : Nat}
  {bit : CodeValue} {b : Bool}

@[simp] theorem renumber_full : full.renumber ρ = full := rfl

@[simp] theorem renumber_eq_absent : s.renumber ρ = absent ↔ s = absent := by
  cases s <;> simp [renumber]

@[simp] theorem renumber_eq_full : s.renumber ρ = full ↔ s = full := by
  cases s <;> simp [renumber]

@[simp] theorem slot_renumber (ρ : Nat → Nat) (s : Subtree) :
    (s.renumber ρ).slot = s.slot.renumber ρ := by
  cases s <;> rfl

theorem map_fst_cells (s : Subtree) (p : Option Nat) : (s.cells p).map Prod.fst = s.numbers := by
  induction s generalizing p with
  | absent => rfl
  | full => rfl
  | node id bit off on ihOff ihOn =>
    rw [cells, numbers, Multiset.map_cons, Multiset.map_add, ihOff, ihOn]

theorem cells_renumber (ρ : Nat → Nat) (s : Subtree) (p : Option Nat) :
    (s.renumber ρ).cells (p.map ρ) =
      (s.cells p).map fun cell => (ρ cell.1, cell.2.renumber ρ) := by
  induction s generalizing p with
  | absent => rfl
  | full => rfl
  | node id bit off on ihOff ihOn =>
    rw [renumber, cells, cells, Multiset.map_cons, Multiset.map_add, ← ihOff, ← ihOn, slot_renumber,
      slot_renumber]
    rfl

theorem numbers_renumber (ρ : Nat → Nat) (s : Subtree) :
    (s.renumber ρ).numbers = s.numbers.map ρ := by
  induction s with
  | absent => rfl
  | full => rfl
  | node id bit off on ihOff ihOn =>
    rw [renumber, numbers, numbers, Multiset.map_cons, Multiset.map_add, ihOff, ihOn]

/-- Only the numbers that are in use matter. -/
theorem renumber_congr (h : ∀ id ∈ s.numbers, ρ id = σ id) : s.renumber ρ = s.renumber σ := by
  induction s with
  | absent => rfl
  | full => rfl
  | node id bit off on ihOff ihOn =>
    rw [numbers, Multiset.forall_mem_cons] at h
    rw [renumber, renumber, h.1, ihOff fun i hi => h.2 i (Multiset.mem_add.mpr (.inl hi)),
      ihOn fun i hi => h.2 i (Multiset.mem_add.mpr (.inr hi))]

/-- Trees that differ in their numbers only are renamings of each other. -/
theorem exists_renumber (h : s.unnumbered = s'.unnumbered) (hs : s.numbers.Nodup) :
    ∃ ρ, s.renumber ρ = s' := by
  induction s generalizing s' with
  | absent => exact ⟨fun _ => 0, (renumber_eq_absent.mp h.symm).symm⟩
  | full => exact ⟨fun _ => 0, (renumber_eq_full.mp h.symm).symm⟩
  | node id bit off on ihOff ihOn =>
    cases s' with
    | absent => cases h
    | full => cases h
    | node id' bit' off' on' =>
      obtain ⟨-, rfl, hOff, hOn⟩ := Subtree.node.injEq .. ▸ h
      rw [numbers, Multiset.nodup_cons, Multiset.mem_add, not_or, Multiset.nodup_add] at hs
      obtain ⟨⟨hidOff, hidOn⟩, hnodupOff, hnodupOn, hdisjoint⟩ := hs
      obtain ⟨ρ, rfl⟩ := ihOff hOff hnodupOff
      obtain ⟨σ, rfl⟩ := ihOn hOn hnodupOn
      -- the two renamings are put together, which works since the numbers of the two sides differ
      let τ i := if i = id then id' else if i ∈ off.numbers then ρ i else σ i
      refine ⟨τ, ?_⟩
      have hroot : τ id = id' := if_pos rfl
      have hoff : off.renumber τ = off.renumber ρ := renumber_congr fun i hi => by
        have hne : i ≠ id := fun heq => hidOff (heq ▸ hi)
        simp only [τ, if_neg hne, if_pos hi]
      have hon : on.renumber τ = on.renumber σ := renumber_congr fun i hi => by
        have hne : i ≠ id := fun heq => hidOn (heq ▸ hi)
        have hother : i ∉ off.numbers := fun hmem => Multiset.disjoint_left.mp hdisjoint hmem hi
        simp only [τ, if_neg hne, if_neg hother]
      rw [renumber, hroot, hoff, hon]

/-! ## Trees with one meaning -/

/-- The two sides of a node answer like the values of its two halves. -/
theorem accepts_sides (hn : n < 32) (hs : (node id bit off on).Fits (n + 1))
    (hs' : (node id' bit off' on').Fits (n + 1))
    (h : ∀ c, (node id bit off on).accepts c = (node id' bit off' on').accepts c) :
    (∀ c, off.accepts c = off'.accepts c) ∧ ∀ c, on.accepts c = on'.accepts c := by
  obtain ⟨rfl, hOff, hOn⟩ := hs
  obtain ⟨-, hOff', hOn'⟩ := hs'
  have hle := Nat.le_of_lt hn
  constructor <;> intro c
  · obtain ⟨d, hbelow, hbit, -⟩ := exists_set_bit hn c false
    have hd := h d
    rwa [accepts, accepts, hits_twoPow hn, hbit, if_neg Bool.false_ne_true,
      if_neg Bool.false_ne_true, accepts_congr hle hOff hbelow,
      accepts_congr hle hOff' hbelow] at hd
  · obtain ⟨d, hbelow, hbit, -⟩ := exists_set_bit hn c true
    have hd := h d
    rwa [accepts, accepts, hits_twoPow hn, hbit, if_pos rfl, if_pos rfl,
      accepts_congr hle hOn hbelow, accepts_congr hle hOn' hbelow] at hd

/-- A minimal tree with one answer is the leaf for it. -/
theorem Minimal.eq_leaf (hmin : s.Minimal) (hn : n ≤ 32) (hfit : s.Fits n)
    (h : ∀ c, s.accepts c = b) : s = leaf b := by
  by_contra hne
  obtain ⟨d, -, hd⟩ := hmin.exists_accepts (b := !b) hn hfit (by rwa [Bool.not_not]) 0
  rw [h d] at hd
  cases b <;> cases hd

/-- A minimal tree is settled by its meaning, its numbers apart. -/
theorem Minimal.unnumbered_eq (hmin : s.Minimal) (hmin' : s'.Minimal) (hn : n ≤ 32)
    (hfit : s.Fits n) (hfit' : s'.Fits n) (h : ∀ c, s.accepts c = s'.accepts c) :
    s.unnumbered = s'.unnumbered := by
  induction s generalizing s' n with
  | absent => rw [hmin'.eq_leaf (b := false) hn hfit' fun c => (h c).symm]; rfl
  | full => rw [hmin'.eq_leaf (b := true) hn hfit' fun c => (h c).symm]; rfl
  | node id bit off on ihOff ihOn =>
    cases s' with
    | absent => exact absurd (hmin.eq_leaf (b := false) hn hfit h) (by simp)
    | full => exact absurd (hmin.eq_leaf (b := true) hn hfit h) (by simp)
    | node id' bit' off' on' =>
      obtain ⟨m, rfl⟩ := hfit.pos
      obtain rfl : bit = bit' := hfit.1.trans hfit'.1.symm
      obtain ⟨hOff, hOn⟩ := accepts_sides hn hfit hfit' h
      have hle := Nat.le_of_lt hn
      have hoff := ihOff hmin.2.1 hmin'.2.1 hle hfit.2.1 hfit'.2.1 hOff
      have hon := ihOn hmin.2.2 hmin'.2.2 hle hfit.2.2 hfit'.2.2 hOn
      rw [unnumbered, renumber, ← unnumbered, ← unnumbered, hoff, hon]
      rfl

/-- The tree of a trie is settled by its meaning, its numbers apart. -/
theorem Sound.unnumbered_eq (h : Sound w s) (h' : Sound w s')
    (haccepts : ∀ c, s.accepts c = s'.accepts c) : s.unnumbered = s'.unnumbered := by
  obtain ⟨off, on, rfl⟩ := label_eq_some.mp h.label
  obtain ⟨off', on', rfl⟩ := label_eq_some.mp h'.label
  obtain ⟨m, hm⟩ := h.fits.pos
  have hlt : m < 32 := by
    have := w.le_widest
    omega
  have hfit := hm ▸ h.fits
  have hfit' := hm ▸ h'.fits
  obtain ⟨hOff, hOn⟩ := accepts_sides hlt hfit hfit' haccepts
  have hle := Nat.le_of_lt hlt
  have hoff := h.sides.1.unnumbered_eq h'.sides.1 hle hfit.2.1 hfit'.2.1 hOff
  have hon := h.sides.2.unnumbered_eq h'.sides.2 hle hfit.2.2 hfit'.2.2 hOn
  rw [unnumbered, renumber, ← unnumbered, ← unnumbered, hoff, hon]
  rfl

end Subtree

end BitClassifier
