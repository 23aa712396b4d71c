import BitClassifier.Proofs.Subtree.Sound

/-!
# Chains of only children

A frame with nothing on its other side belongs to an only child. `core` follows only children from
the top of a tree as far as they go; what is left is a leaf or a node with something on both sides
(a fork). Emptying the last node of such a chain and climbing from there comes to the same as
emptying its first node (`climb_bare_append`).
-/

namespace BitClassifier

namespace Subtree

/-- A node with nothing on both of its sides. -/
def bare : Subtree → Subtree
  | node id bit _ _ => node id bit absent absent
  | s => s

/-- Every node of the spine has an only child. -/
def Lone (j : Spine) : Prop :=
  ∀ f ∈ j, f.other = absent

/-- A node with something on both sides. -/
def Forked : Subtree → Prop
  | node _ _ off on => off ≠ absent ∧ on ≠ absent
  | _ => False

/-- The chain of only children at the top of a tree, and what hangs below it. -/
def core : Subtree → Spine × Subtree
  | absent => ([], absent)
  | full => ([], full)
  | node id bit off on =>
    if off = absent then (on.core.1 ++ [⟨id, bit, true, off⟩], on.core.2)
    else if on = absent then (off.core.1 ++ [⟨id, bit, false, on⟩], off.core.2)
    else ([], node id bit off on)

variable {s x off on : Subtree} {id : Nat} {bit : CodeValue} {f : Frame} {j k : Spine}

theorem lone_nil : Lone [] :=
  List.forall_mem_nil _

theorem lone_cons : Lone (f :: j) ↔ f.other = absent ∧ Lone j :=
  List.forall_mem_cons

theorem Lone.append (hj : Lone j) (hk : Lone k) : Lone (j ++ k) := by
  intro f hf
  rcases List.mem_append.mp hf with h | h
  · exact hj f h
  · exact hk f h

/-- A tree is its core at the end of its chain. -/
theorem plug_core (s : Subtree) : plug s.core.1 s.core.2 = s := by
  induction s with
  | absent => rfl
  | full => rfl
  | node id bit off on ihOff ihOn =>
    rw [core]
    split
    · rw [plug_append, ihOn]
      rfl
    · split
      · rw [plug_append, ihOff]
        rfl
      · rfl

theorem lone_core (s : Subtree) : Lone s.core.1 := by
  induction s with
  | absent => exact lone_nil
  | full => exact lone_nil
  | node id bit off on ihOff ihOn =>
    rw [core]
    split
    · rename_i hoff
      exact ihOn.append (lone_cons.mpr ⟨hoff, lone_nil⟩)
    · split
      · rename_i hon
        exact ihOff.append (lone_cons.mpr ⟨hon, lone_nil⟩)
      · exact lone_nil

theorem isNode_of_forked (h : s.Forked) : s.isNode := by
  cases s with
  | absent => exact h.elim
  | full => exact h.elim
  | node => rfl

theorem forked_fill : (f.fill x).Forked ↔ x ≠ absent ∧ f.other ≠ absent := by
  unfold Frame.fill
  split
  · exact and_comm
  · rfl

theorem core_of_forked (h : s.Forked) : s.core = ([], s) := by
  cases s with
  | absent => exact h.elim
  | full => exact h.elim
  | node id bit off on => rw [core, if_neg h.1, if_neg h.2]

theorem core_fill (hother : f.other = absent) (hx : x ≠ absent) :
    (f.fill x).core = (x.core.1 ++ [f], x.core.2) := by
  obtain ⟨id, bit, side, other⟩ := f
  obtain rfl : other = absent := hother
  cases side
  · simp [Frame.fill, core, hx]
  · simp [Frame.fill, core]

/-- The chain above something is found whole. -/
theorem core_plug (hj : Lone j) (hx : x ≠ absent) : (plug j x).core = (x.core.1 ++ j, x.core.2) := by
  induction j generalizing x with
  | nil => rw [plug, List.append_nil]
  | cons f j ih =>
    rw [lone_cons] at hj
    rw [plug, ih hj.2 (ne_leaf_of_isNode (isNode_fill f x) false), core_fill hj.1 hx,
      List.append_assoc, List.singleton_append]

/-- Down a chain of only children: a node is empty, or has an only child, or is a fork. -/
theorem chain_induction {P : (s : Subtree) → s.isNode = true → Prop}
    (empty : ∀ id bit, P (node id bit absent absent) rfl)
    (lone : ∀ (f : Frame) (x : Subtree), f.other = absent → x ≠ absent →
      (∀ hx : x.isNode = true, P x hx) → P (f.fill x) (isNode_fill f x))
    (fork : ∀ s hs, s.Forked → P s hs) (s : Subtree) (hs : s.isNode = true) : P s hs := by
  induction s with
  | absent => cases hs
  | full => cases hs
  | node id bit off on ihOff ihOn =>
    by_cases hoff : off = absent
    · by_cases hon : on = absent
      · subst hoff hon
        exact empty id bit
      · exact lone ⟨id, bit, true, off⟩ on hoff hon ihOn
    · by_cases hon : on = absent
      · exact lone ⟨id, bit, false, on⟩ off hon hoff ihOff
      · exact fork _ hs ⟨hoff, hon⟩

/-- A chain ends at a leaf or at a fork. -/
theorem forked_core (s : Subtree) : s.core.2.isNode → s.core.2.Forked := by
  induction s with
  | absent => exact fun h => nomatch h
  | full => exact fun h => nomatch h
  | node id bit off on ihOff ihOn =>
    rw [core]
    split
    · exact ihOn
    · split
      · exact ihOff
      · exact fun _ => ⟨‹_›, ‹_›⟩

/-- A node with an accepting core has a chain. -/
theorem core_ne (hs : s.isNode = true) : s.core.1 ≠ [] ∨ s.core.2 ≠ full := by
  by_contra hboth
  rw [not_or, not_ne_iff, not_ne_iff] at hboth
  have hplug := plug_core s
  rw [hboth.1, hboth.2] at hplug
  exact ne_leaf_of_isNode hs true hplug.symm

/-- The core of a minimal tree is not empty, unless the tree is. -/
theorem Minimal.core_cases (h : s.Minimal) (hs : s ≠ absent) :
    s.core.2 = full ∨ s.core.2.Forked ∧ s.core.2.Minimal := by
  induction s with
  | absent => exact absurd rfl hs
  | full => exact .inl rfl
  | node id bit off on ihOff ihOn =>
    obtain ⟨hpair, hOff, hOn⟩ := h
    rw [core]
    split
    · rename_i hoff
      exact ihOn hOn fun hon => hpair false ⟨hoff, hon⟩
    · split
      · exact ihOff hOff ‹_›
      · exact .inr ⟨⟨‹_›, ‹_›⟩, hpair, hOff, hOn⟩

/-! ## Emptied nodes -/

theorem fill_absent_eq_bare (h : f.other = absent) : f.fill absent = (f.fill s).bare := by
  unfold Frame.fill
  split <;> simp [bare, h]

/-- An emptied node goes away, and the node above is climbed from. -/
theorem climb_bare_cons (hs : s.isNode) :
    climb false (f :: k) s.bare = climb false k (f.fill absent) := by
  obtain ⟨id, bit, off, on, rfl⟩ := isNode_iff.mp hs
  rfl

theorem climb_bare_append (hj : Lone j) (hs : s.isNode) :
    climb false (j ++ k) s.bare = climb false k (plug j s).bare := by
  induction j generalizing s with
  | nil => rfl
  | cons f j ih =>
    rw [lone_cons] at hj
    rw [List.cons_append, climb_bare_cons hs, fill_absent_eq_bare (s := s) hj.1, plug]
    exact ih hj.2 (by simp)

/-- A node stays that has something on its other side. -/
theorem climb_fill_absent (h : f.other ≠ absent) :
    climb false k (f.fill absent) = plug k (f.fill absent) := by
  refine climb_eq_plug (by simp) ?_
  unfold Frame.fill
  split <;> simp [shrink, h]

end Subtree

end BitClassifier
