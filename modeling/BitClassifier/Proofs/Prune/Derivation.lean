import BitClassifier.Proofs.Compile
import BitClassifier.Proofs.Predicate.Within

/-!
# Derivations of plans

`Pending w n s r` is what pruning keeps true of the tree that is left to prune: a minimal node at
level `n` of the domain, together with a region of the domain that leaves the bits of the tree free.
`Pruned w n s r p` derives the plan `p` of such a tree from the plans of the trees that its steps
leave, and every tree that is left has a derivation (`Pending.pruned`). What is true of all plans is
proved by induction on derivations.
-/

namespace BitClassifier

open BitVec

/-- A region of the domain that fixes a bit, and has no bit of its value outside its mask. -/
structure Region.Proper (w : Width) (r : Region) : Prop where
  mask_ne : r.mask ≠ 0#32
  within : w.contains r.mask = true
  value_sub : r.value &&& r.mask = r.value

namespace Region

variable {w : Width} {r : Region} {n : Nat}

theorem mask_fix_ne_zero (hn : n < 32) (r : Region) (side : Bool) :
    (r.fix (twoPow 32 n) side).mask ≠ 0#32 := by
  intro hzero
  have hbit := congrArg (·.getLsbD n) hzero
  simp [fix, hn] at hbit

theorem Proper.covers_value (h : r.Proper w) : r.covers r.value = true := by
  rw [covers, h.value_sub, beq_self_eq_true]

theorem Proper.contains_value (h : r.Proper w) : w.contains r.value = true := by
  have hmask := h.within
  rw [Width.contains_iff_lt] at hmask ⊢
  refine Nat.lt_of_le_of_lt ?_ hmask
  rw [← h.value_sub, toNat_and]
  exact Nat.and_le_right

end Region

namespace Subtree

/-- What is left to prune: the tree of a node at level `n` of the domain, for the values of a
region. -/
structure Pending (w : Width) (n : Nat) (s : Subtree) (r : Region) : Prop where
  node : s.isNode
  minimal : s.Minimal
  fits : s.Fits n
  le_bits : n ≤ w.bits
  free : r.FreeBelow n
  within : w.contains r.mask = true

variable {w : Width} {n : Nat} {s x : Subtree} {r : Region} {f : Frame} {j : Spine}

theorem within_fix {m : Nat} (hr : w.contains r.mask = true) (hm : m < w.bits) (side : Bool) :
    w.contains (r.fix (BitVec.twoPow 32 m) side).mask = true :=
  Width.contains_or hr (Width.contains_twoPow hm)

namespace Pending

theorem lt_widest (h : Pending w (n + 1) s r) : n < 32 :=
  Nat.lt_of_lt_of_le h.le_bits w.le_widest

/-- The nodes of a tree are above level 0. -/
theorem pos (h : Pending w n s r) : ∃ m, n = m + 1 := by
  obtain ⟨id, bit, off, on, rfl⟩ := isNode_iff.mp h.node
  exact h.fits.pos

theorem bit_eq (h : Pending w (n + 1) (f.fill x) r) : f.bit = twoPow 32 n :=
  ((f.fits_fill x).mp h.fits).1

/-- A side that is a node is left for the values that lead to it. -/
theorem side (h : Pending w (n + 1) (f.fill x) r) (hx : x.isNode) :
    Pending w n x (r.fix f.bit f.side) where
  node := hx
  minimal := (minimal_fill.mp h.minimal).2.1
  fits := ((f.fits_fill x).mp h.fits).2.1
  le_bits := Nat.le_of_succ_le h.le_bits
  free := h.bit_eq ▸ h.free.fix f.side
  within := h.bit_eq ▸ within_fix h.within h.le_bits f.side

/-- The end of a spine is left for the values that lead to it. -/
theorem along (h : Pending w n (plug j x) r) (hx : x.isNode) :
    ∃ m, n = m + j.length ∧ Pending w m x (r.along j) := by
  induction j generalizing x with
  | nil => exact ⟨n, rfl, h⟩
  | cons f j ih =>
    obtain ⟨m, hn, hfill⟩ := ih h (isNode_fill f x)
    obtain ⟨m, rfl⟩ := hfill.pos
    exact ⟨m, by rw [List.length_cons]; omega, hfill.side hx⟩

/-- One side of a node is emptied, and the other one is left. -/
theorem emptied (h : Pending w n (f.fill x) r) (hother : f.other.isNode) :
    Pending w n (f.fill absent) r where
  node := isNode_fill f absent
  minimal := minimal_fill.mpr
    ⟨fun b hb => ne_leaf_of_isNode hother b hb.2, trivial, (minimal_fill.mp h.minimal).2.2⟩
  fits := by
    obtain ⟨m, rfl⟩ := f.fits_fill_pos x h.fits
    obtain ⟨hbit, -, hfit⟩ := (f.fits_fill x).mp h.fits
    exact (f.fits_fill absent).mpr ⟨hbit, fits_absent, hfit⟩
  le_bits := h.le_bits
  free := h.free
  within := h.within

/-- One of two equal sides is left for the same values, since the bit before them is dropped. -/
theorem twin {id : Nat} {bit : CodeValue} {off on : Subtree}
    (h : Pending w (n + 1) (Subtree.node id bit off on) r)
    (hforked : (Subtree.node id bit off on).Forked) (hshape : on.sameShape off = true) :
    Pending w n off r where
  node := h.minimal.isNode_twin hforked hshape
  minimal := h.minimal.2.1
  fits := h.fits.2.1
  le_bits := Nat.le_of_succ_le h.le_bits
  free := h.free.mono (Nat.le_succ n)
  within := h.within

/-- A spine leads to the values of a proper region. -/
theorem proper_along (h : Pending w n (plug j x) r) (hj : j ≠ []) : (r.along j).Proper w := by
  obtain ⟨f, k, rfl⟩ := List.exists_cons_of_ne_nil hj
  obtain ⟨m, -, hfill⟩ := h.along (j := k) (isNode_fill f x)
  obtain ⟨m, rfl⟩ := hfill.pos
  rw [Region.along_cons, hfill.bit_eq]
  exact ⟨Region.mask_fix_ne_zero hfill.lt_widest _ _, within_fix hfill.within hfill.le_bits _,
    (hfill.free.fix f.side).value_and_mask⟩

/-- A region that is left out lies at the end of a spine. -/
theorem proper_hole (h : Pending w n s r) {hole : Region} (hhole : s.hole? r = some hole) :
    hole.Proper w := by
  obtain ⟨j, rfl, -, rfl⟩ := hole?_eq_some hhole
  exact h.proper_along (ne_nil_of_isNode_plug h.node rfl)

theorem covers_along (h : Pending w n (plug j x) r) (c : CodeValue) :
    (r.along j).covers c = true ↔ r.covers c = true ∧ Follows j c := by
  obtain ⟨-, -, -, -, hcovers⟩ := along_free h.fits (Nat.le_trans h.le_bits w.le_widest) h.free
  exact hcovers c

/-- The test for the end of a spine holds of the values that lead there. -/
theorem eval_along (h : Pending w n (plug j x) r) (hj : j ≠ []) (c : CodeValue) :
    ((r.along j).test true).eval c = true ↔ r.covers c = true ∧ Follows j c := by
  rw [Region.eval_test (h.proper_along hj).value_sub, beq_true, h.covers_along]

end Pending

/-! ## Derivations -/

/-- The plan of a tree, derived from the plans of what is left after a step. -/
inductive Pruned (w : Width) : (n : Nat) → Subtree → Region → Plan → Prop where
  /-- A chain of only children down to an accepting leaf is one test. -/
  | chain {n : Nat} {r : Region} {j : Spine} {log : List Event} :
      Pending w n (plug j full) r → Lone j → j ≠ [] →
      Pruned w n (plug j full) r ⟨(r.along j).test true, 1, log⟩
  /-- A tree that accepts all but one region is one negated test. -/
  | hole {n : Nat} {s : Subtree} {r hole : Region} {log : List Event} :
      Pending w n s r → s.Forked → s.hole? r = some hole →
      Pruned w n s r ⟨hole.test false, 1, log⟩
  /-- A chain of only children down to a fork is a test before the fork. -/
  | narrow {m : Nat} {r : Region} {j : Spine} {rest : Subtree} {p : Plan} {log : List Event} :
      Pending w (m + j.length) (plug j rest) r → Lone j → j ≠ [] → rest.Forked →
      Pruned w m rest (r.along j) p →
      Pruned w (m + j.length) (plug j rest) r (p.behind [.and ((r.along j).test true)] log)
  /-- A fork of equal sides is pruned as one of them. -/
  | twins {m id : Nat} {bit : CodeValue} {off on : Subtree} {r : Region} {p : Plan}
      {log : List Event} :
      Pending w (m + 1) (node id bit off on) r → (node id bit off on).Forked →
      on.sameShape off = true → Pruned w m off r p →
      Pruned w (m + 1) (node id bit off on) r (p.behind [] log)
  /-- An accepted region at the end of a chain on one side of a fork is a test before the other
  side. -/
  | pop {n : Nat} {r : Region} {f : Frame} {j : Spine} {p : Plan} {log : List Event} :
      Pending w n (plug (j ++ [f]) full) r → (plug (j ++ [f]) full).Forked → Lone j →
      f.other.isNode → Pruned w n (f.fill absent) r p →
      Pruned w n (plug (j ++ [f]) full) r
        (p.behind [.or ((r.along (j ++ [f])).test true)] log)
  /-- Any other fork is a jump. -/
  | fork {m id : Nat} {bit : CodeValue} {off on : Subtree} {r : Region} {p q : Plan} :
      Pending w (m + 1) (node id bit off on) r → (node id bit off on).Forked →
      Pruned w m on (r.fix bit true) p → Pruned w m off (r.fix bit false) q →
      Pruned w (m + 1) (node id bit off on) r (.fork bit p q)

theorem Pruned.pending {p : Plan} (h : Pruned w n s r p) : Pending w n s r := by
  cases h <;> assumption

/-- A chain of only children never ends with nothing. -/
theorem Pending.not_empty (hj : Lone j) : ¬Pending w n (plug j absent) r := by
  intro h
  -- the last node of the chain would hold nothing
  obtain ⟨f, k, rfl⟩ := List.exists_cons_of_ne_nil (ne_nil_of_isNode_plug h.node rfl)
  obtain ⟨m, -, hfill⟩ := Pending.along (j := k) h (isNode_fill f absent)
  exact (minimal_fill.mp hfill.minimal).1 false ⟨rfl, (lone_cons.mp hj).1⟩

theorem Pending.pruned_of_done {test : Predicate} {log : List Event} (h : Pending w n s r)
    (hstep : s.step r = .done test log) : Pruned w n s r (s.plan r) := by
  rw [plan_of_done hstep]
  cases steps_of_eq hstep with
  | empty hj => exact absurd h (Pending.not_empty hj)
  | chain hj => exact .chain h hj (ne_nil_of_isNode_plug h.node rfl)
  | hole hother hhole =>
    exact .hole h (forked_fill.mpr ⟨by simp, ne_leaf_of_isNode hother false⟩) hhole

/-- If what a step leaves has a derivation of its plan, so has the tree. -/
theorem Pending.pruned_of_link {links : List Link} {log : List Event} {rest : Subtree}
    {r' : Region} (h : Pending w n s r) (hstep : s.step r = .link links log rest r')
    (ih : ∀ {m}, Pending w m rest r' → Pruned w m rest r' (rest.plan r')) :
    Pruned w n s r (s.plan r) := by
  rw [plan_of_link hstep]
  cases steps_of_eq hstep with
  | narrow hj hne hforked =>
    obtain ⟨m, rfl, hrest⟩ := h.along (isNode_of_forked hforked)
    exact .narrow h hj hne hforked (ih hrest)
  | twins hforked hshape =>
    obtain ⟨m, rfl⟩ := h.pos
    exact .twins h hforked hshape (ih (h.twin hforked hshape))
  | @side _ f hother =>
    have hforked : (f.fill full).Forked :=
      forked_fill.mpr ⟨by simp, ne_leaf_of_isNode hother false⟩
    exact .pop (j := []) h hforked lone_nil hother (ih (h.emptied hother))
  | @region _ f x found hx hother hfound =>
    have hforked : (f.fill x).Forked :=
      forked_fill.mpr ⟨ne_leaf_of_isNode hx false, ne_leaf_of_isNode hother false⟩
    obtain ⟨g, j, rfl, hlone, rfl⟩ := found?_eq_some hfound
    have hplug : f.fill (plug (g :: j) full) = plug ((g :: j) ++ [f]) full :=
      (plug_append (g :: j) [f] full).symm
    have hregion : (r.fix f.bit f.side).along (g :: j) = r.along ((g :: j) ++ [f]) :=
      (r.along_append (g :: j) [f]).symm
    have hrest := ih (h.emptied hother)
    dsimp only
    rw [hplug] at h hforked ⊢
    rw [hregion]
    exact .pop h hforked hlone hother hrest

/-- What is left to prune has a derivation of its plan. -/
theorem Pending.pruned (h : Pending w n s r) : Pruned w n s r (s.plan r) := by
  induction s, r using plan.induct generalizing n with
  | case1 s r test log hstep => exact h.pruned_of_done hstep
  | case2 s r links log rest r' hstep ih => exact h.pruned_of_link hstep ih
  | case3 s r bit off on hstep ihOn ihOff =>
    rw [plan_of_fork hstep]
    cases steps_of_eq hstep with
    | @fork _ id _ _ _ hoff hon =>
      obtain ⟨m, rfl⟩ := h.pos
      exact .fork h ⟨ne_leaf_of_isNode hoff false, ne_leaf_of_isNode hon false⟩
        (ihOn (Pending.side (f := ⟨id, bit, true, off⟩) h hon))
        (ihOff (Pending.side (f := ⟨id, bit, false, on⟩) h hoff))

/-- The plan of a whole trie is a constant, or the trie is left to prune. -/
theorem Sound.constant_or_pending (h : Sound w s) :
    (∃ b, s.whole w = ⟨.constant b, 0, []⟩) ∨
      Pending w w.bits s .whole ∧ s.whole w = s.plan .whole := by
  unfold whole
  split
  · exact .inl ⟨false, rfl⟩
  · rename_i hempty
    split
    · exact .inl ⟨true, rfl⟩
    · rename_i hfull
      obtain ⟨off, on, rfl⟩ := label_eq_some.mp h.label
      exact .inr ⟨⟨rfl, h.minimal (Bool.rec hempty hfull), h.fits, Nat.le_refl _,
        Region.freeBelow_whole _, w.contains_zero⟩, rfl⟩

/-- The plan of a whole trie is a constant or has a derivation. -/
theorem Sound.whole_cases (h : Sound w s) :
    (∃ b, s.whole w = ⟨.constant b, 0, []⟩) ∨ Pruned w w.bits s .whole (s.whole w) := by
  refine h.constant_or_pending.imp_right fun ⟨hpending, hplan⟩ => ?_
  rw [hplan]
  exact hpending.pruned

end Subtree

end BitClassifier
