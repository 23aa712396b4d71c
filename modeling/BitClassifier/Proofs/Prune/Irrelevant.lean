import BitClassifier.Proofs.Compile
import BitClassifier.Proofs.Trie.SameSubtree

/-!
# Bits that do not matter

A set of values may be indifferent to a bit: changing the bit leads from no value of the set out of
it. In the tree of such a set every node that tests the bit has the same tree on both sides, and
pruning drops the bit there before it looks at either side. No other step can reach past such a
node: a chain of only children and the way to a hole or to an accepted region end above it. So the
predicate of an indifferent set never mentions the bit (`compile_avoids`).
-/

namespace BitClassifier

open BitVec

/-- Whether no mask holds the bit `2 ^ b` and no jump is made on it. -/
def Predicate.Avoids (b : Nat) : Predicate → Prop
  | constant _ => True
  | bitTest mask _ _ => mask.getLsbD b = false
  | and left right => left.Avoids b ∧ right.Avoids b
  | or left right => left.Avoids b ∧ right.Avoids b
  | cond bit on off => bit.getLsbD b = false ∧ on.Avoids b ∧ off.Avoids b

/-- The two values have the same bits, the bit `2 ^ b` apart. -/
def AgreeBut (b : Nat) (c d : CodeValue) : Prop :=
  ∀ i, i ≠ b → c.getLsbD i = d.getLsbD i

theorem AgreeBut.eq_or_eq_xor {b : Nat} {c d : CodeValue} (h : AgreeBut b c d) :
    d = c ∨ d = c ^^^ twoPow 32 b := by
  by_cases hb : c.getLsbD b = d.getLsbD b
  · left
    apply eq_of_getLsbD_eq
    intro i _
    by_cases hi : i = b
    · rw [hi, hb]
    · exact (h i hi).symm
  · right
    apply eq_of_getLsbD_eq
    intro i hi
    rw [getLsbD_xor, getLsbD_twoPow]
    by_cases hib : i = b
    · subst hib
      cases hc : c.getLsbD i <;> cases hd : d.getLsbD i <;> simp_all
    · rw [← h i hib]
      simp [hi, Ne.symm hib]

theorem Width.agreeBut_residue {b : Nat} {c d : CodeValue} (w : Width) (h : AgreeBut b c d) :
    AgreeBut b (w.residue c) (w.residue d) := by
  intro i hi
  rw [getLsbD_residue, getLsbD_residue, h i hi]

theorem Region.mask_fix {r : Region} {b m : Nat} (hr : r.mask.getLsbD b = false) (hm : m ≠ b)
    (side : Bool) : (r.fix (twoPow 32 m) side).mask.getLsbD b = false := by
  simp [Region.fix, hr, hm]

namespace Subtree

/-- Every node that tests the bit `2 ^ b` has the same tree on both sides. -/
def Indifferent (b : Nat) : Subtree → Prop
  | absent => True
  | full => True
  | node _ bit off on =>
    (bit = twoPow 32 b → on.sameShape off = true) ∧ off.Indifferent b ∧ on.Indifferent b

variable {s s' x : Subtree} {r : Region} {f : Frame} {j : Spine} {b n m : Nat} {w : Width}

theorem sameShape_comm (s s' : Subtree) : s.sameShape s' = s'.sameShape s := by
  induction s generalizing s' with
  | absent => cases s' <;> rfl
  | full => cases s' <;> rfl
  | node id bit off on ihOff ihOn =>
    cases s' with
    | absent => rfl
    | full => rfl
    | node id' bit' off' on' => rw [sameShape, sameShape, ihOff, ihOn]

theorem indifferent_fill :
    (f.fill x).Indifferent b ↔
      (f.bit = twoPow 32 b → x.sameShape f.other = true) ∧ x.Indifferent b ∧
        f.other.Indifferent b := by
  unfold Frame.fill
  split
  · rw [Indifferent, and_comm (a := f.other.Indifferent b)]
  · rw [Indifferent, sameShape_comm]

/-! ## Trees of indifferent sets -/

/-- The side of a node answers alike to values that differ in one bit, if the node does. -/
theorem accepts_side_agreeBut (hn : n < 32) (hfit : (f.fill x).Fits (n + 1))
    (h : ∀ c d, AgreeBut b c d → (f.fill x).accepts c = (f.fill x).accepts d)
    {c d : CodeValue} (hcd : AgreeBut b c d) : x.accepts c = x.accepts d := by
  -- both values are led to the side, which changes no bit that the side can see
  obtain ⟨c', hcBelow, hcSide, hcFrom⟩ := exists_set_bit hn c f.side
  obtain ⟨d', hdBelow, hdSide, hdFrom⟩ := exists_set_bit hn d f.side
  have hagree : AgreeBut b c' d' := by
    intro i hi
    rcases Nat.lt_trichotomy i n with hlt | rfl | hgt
    · rw [hcBelow i hlt, hdBelow i hlt, hcd i hi]
    · rw [hcSide, hdSide]
    · rw [hcFrom i hgt, hdFrom i hgt, hcd i hi]
  have haccepts := h c' d' hagree
  rwa [accepts_fill_of_side hn hfit hcBelow hcSide,
    accepts_fill_of_side hn hfit hdBelow hdSide] at haccepts

/-- If a node answers alike to values that differ in its own bit, its sides mean the same. -/
theorem accepts_sides_eq {id : Nat} {bit : CodeValue} {off on : Subtree} (hn : n < 32)
    (hfit : (node id bit off on).Fits (n + 1))
    (h : ∀ c d, AgreeBut n c d → (node id bit off on).accepts c = (node id bit off on).accepts d)
    (c : CodeValue) : on.accepts c = off.accepts c := by
  obtain ⟨rfl, hOff, hOn⟩ := hfit
  obtain ⟨c₀, hBelow₀, hbit₀, hFrom₀⟩ := exists_set_bit hn c false
  obtain ⟨c₁, hBelow₁, hbit₁, hFrom₁⟩ := exists_set_bit hn c true
  have hagree : AgreeBut n c₁ c₀ := by
    intro i hi
    rcases Nat.lt_or_gt_of_ne hi with hlt | hgt
    · rw [hBelow₁ i hlt, hBelow₀ i hlt]
    · rw [hFrom₁ i hgt, hFrom₀ i hgt]
  have haccepts := h c₁ c₀ hagree
  rwa [accepts, accepts, hits_twoPow hn, hits_twoPow hn, hbit₁, hbit₀, if_pos rfl,
    if_neg Bool.false_ne_true, accepts_congr (Nat.le_of_lt hn) hOn hBelow₁,
    accepts_congr (Nat.le_of_lt hn) hOff hBelow₀] at haccepts

/-- A minimal tree whose answers do not depend on a bit has the same tree on both sides wherever it
tests the bit. -/
theorem Minimal.indifferent (hmin : s.Minimal) (hn : n ≤ 32) (hfit : s.Fits n)
    (h : ∀ c d, AgreeBut b c d → s.accepts c = s.accepts d) : s.Indifferent b := by
  induction s generalizing n with
  | absent => trivial
  | full => trivial
  | node id bit off on ihOff ihOn =>
    obtain ⟨m, rfl⟩ := hfit.pos
    obtain ⟨-, hOff, hOn⟩ := hmin
    have hle : m ≤ 32 := Nat.le_of_lt hn
    refine ⟨fun hbit => ?_, ihOff hOff hle hfit.2.1 ?_, ihOn hOn hle hfit.2.2 ?_⟩
    · obtain rfl : m = b := twoPow_inj hn (hfit.1.symm.trans hbit)
      exact sameShape_of_unnumbered
        (hOn.unnumbered_eq hOff hle hfit.2.2 hfit.2.1 (accepts_sides_eq hn hfit h))
    · exact fun c d hcd => accepts_side_agreeBut (f := ⟨id, bit, false, on⟩) hn hfit h hcd
    · exact fun c d hcd => accepts_side_agreeBut (f := ⟨id, bit, true, off⟩) hn hfit h hcd

/-! ## Steps -/

theorem eq_leaf_of_sameShape {a : Bool} (h : x.sameShape (leaf a) = true) : x = leaf a := by
  cases a <;> cases x <;> first | rfl | cases h

/-- A spine with the same leaf beside every node, and something else at its end, passes no node that
tests the bit. -/
theorem mask_along {a : Bool} (hfit : (plug j x).Fits n) (hj : ∀ f ∈ j, f.other = leaf a)
    (hx : x ≠ leaf a) (hind : (plug j x).Indifferent b) (hr : r.mask.getLsbD b = false) :
    ∃ m, m ≤ n ∧ x.Fits m ∧ x.Indifferent b ∧ (r.along j).mask.getLsbD b = false := by
  induction j generalizing x with
  | nil => exact ⟨n, Nat.le_refl n, hfit, hind, hr⟩
  | cons f j ih =>
    rw [List.forall_mem_cons] at hj
    obtain ⟨m, hm, hfill, hindFill, hmask⟩ :=
      ih hfit hj.2 (ne_leaf_of_isNode (isNode_fill f x) a) hind
    obtain ⟨m, rfl⟩ := f.fits_fill_pos _ hfill
    obtain ⟨hbit, hxFit, -⟩ := (f.fits_fill x).mp hfill
    obtain ⟨hsame, hxInd, -⟩ := indifferent_fill.mp hindFill
    -- only one side of the node is the leaf, so the two cannot be the same
    have hne : m ≠ b := by
      rintro rfl
      exact hx (eq_leaf_of_sameShape (hj.1 ▸ hsame hbit))
    rw [Region.along_cons, hbit]
    exact ⟨m, by omega, hxFit, hxInd, Region.mask_fix hmask hne f.side⟩

/-- The way to a hole has an accepting leaf on one side and none on the other, so it passes no node
that tests the bit. -/
theorem mask_hole? {hole : Region} (h : s.hole? r = some hole) (hfit : s.Fits n)
    (hind : s.Indifferent b) (hr : r.mask.getLsbD b = false) : hole.mask.getLsbD b = false := by
  obtain ⟨j, rfl, hj, rfl⟩ := hole?_eq_some h
  obtain ⟨m, -, -, -, hmask⟩ := mask_along (a := true) hfit hj (by simp) hind hr
  exact hmask

/-- A node that does not test the bit may lose a side. -/
theorem indifferent_fill_absent (hbit : f.bit = twoPow 32 m) (hm : m ≠ b) (hn : m + 1 ≤ 32)
    (hind : (f.fill x).Indifferent b) : (f.fill absent).Indifferent b := by
  refine indifferent_fill.mpr ⟨fun heq => absurd ?_ hm, trivial, (indifferent_fill.mp hind).2.2⟩
  exact twoPow_inj hn (hbit.symm.trans heq)

/-- Two equal sides are merged before anything else is done. -/
theorem step_fill_of_same (hx : x ≠ absent) (hother : f.other ≠ absent)
    (hshape : x.sameShape f.other = true) :
    ∃ log rest, (f.fill x).step r = .link [] log rest r := by
  obtain ⟨id, bit, side, other⟩ := f
  cases side with
  | true => exact ⟨_, _, step_of_same ⟨hother, hx⟩ hshape⟩
  | false => exact ⟨_, _, step_of_same ⟨hx, hother⟩ (sameShape_comm x other ▸ hshape)⟩

/-- A step at a fork that does not merge its sides does not have the bit before it. -/
theorem level_ne_of_step {out : Step} (h : (f.fill x).step r = out) (hx : x ≠ absent)
    (hother : f.other ≠ absent) (hbit : f.bit = twoPow 32 m) (hind : (f.fill x).Indifferent b)
    (hout : ∀ log rest, out ≠ .link [] log rest r) : m ≠ b := by
  rintro rfl
  obtain ⟨log, rest, hstep⟩ :=
    step_fill_of_same (r := r) hx hother ((indifferent_fill.mp hind).1 hbit)
  exact hout log rest (h.symm.trans hstep)

theorem avoids_of_done {test : Predicate} {log : List Event} (h : s.step r = .done test log)
    (hfit : s.Fits n) (hind : s.Indifferent b) (hr : r.mask.getLsbD b = false) :
    test.Avoids b := by
  cases steps_of_eq h with
  | empty => trivial
  | chain hj =>
    obtain ⟨m, -, -, -, hmask⟩ := mask_along (a := false) hfit hj (by simp) hind hr
    exact hmask
  | hole _ hhole => exact mask_hole? hhole hfit hind hr

/-- A step leaves a tree that is as indifferent, behind tests that avoid the bit. -/
theorem indifferent_of_link {links : List Link} {log : List Event} {rest : Subtree} {r' : Region}
    (h : s.step r = .link links log rest r') (hfit : s.Fits n) (hn : n ≤ 32)
    (hind : s.Indifferent b) (hr : r.mask.getLsbD b = false) :
    ∃ m, m ≤ n ∧ rest.Fits m ∧ rest.Indifferent b ∧ r'.mask.getLsbD b = false ∧
      ∀ p : Predicate, p.Avoids b → (Link.joinAll links p).Avoids b := by
  cases steps_of_eq h with
  | narrow hj hne hforked =>
    have hrest : rest ≠ absent := by
      rintro rfl
      exact hforked
    obtain ⟨m, hm, hrestFit, hrestInd, hmask⟩ :=
      mask_along (a := false) hfit hj hrest hind hr
    exact ⟨m, hm, hrestFit, hrestInd, hmask, fun p hp => ⟨hmask, hp⟩⟩
  | twins =>
    obtain ⟨m, rfl⟩ := hfit.pos
    exact ⟨m, Nat.le_succ m, hfit.2.1, hind.2.1, hr, fun p hp => hp⟩
  | @side _ f hother =>
    obtain ⟨m, rfl⟩ := f.fits_fill_pos _ hfit
    obtain ⟨hbit, -, hotherFit⟩ := (f.fits_fill full).mp hfit
    have hne : m ≠ b := level_ne_of_step h (by simp) (ne_leaf_of_isNode hother false) hbit hind
      (by simp)
    have hmask : (r.fix f.bit f.side).mask.getLsbD b = false :=
      hbit ▸ Region.mask_fix hr hne f.side
    exact ⟨m + 1, Nat.le_refl _, (f.fits_fill absent).mpr ⟨hbit, fits_absent, hotherFit⟩,
      indifferent_fill_absent hbit hne hn hind, hr, fun p hp => ⟨hmask, hp⟩⟩
  | @region _ f x found hx hother hfound =>
    obtain ⟨m, rfl⟩ := f.fits_fill_pos _ hfit
    obtain ⟨hbit, hxFit, hotherFit⟩ := (f.fits_fill x).mp hfit
    have hne : m ≠ b := level_ne_of_step h (ne_leaf_of_isNode hx false)
      (ne_leaf_of_isNode hother false) hbit hind (by simp)
    have hmask : (r.fix f.bit f.side).mask.getLsbD b = false :=
      hbit ▸ Region.mask_fix hr hne f.side
    obtain ⟨g, j, rfl, hlone, rfl⟩ := found?_eq_some hfound
    obtain ⟨-, -, -, -, hregion⟩ :=
      mask_along (a := false) hxFit hlone (by simp) (indifferent_fill.mp hind).2.1 hmask
    exact ⟨m + 1, Nat.le_refl _, (f.fits_fill absent).mpr ⟨hbit, fits_absent, hotherFit⟩,
      indifferent_fill_absent hbit hne hn hind, hr, fun p hp => ⟨hregion, hp⟩⟩

/-! ## Plans -/

/-- A plan for an indifferent tree avoids the bit, if the region that leads there does. -/
theorem avoids_plan (hfit : s.Fits n) (hn : n ≤ 32) (hind : s.Indifferent b)
    (hr : r.mask.getLsbD b = false) : (s.plan r).predicate.Avoids b := by
  induction s, r using plan.induct generalizing n with
  | case1 s r test log h =>
    rw [plan_of_done h]
    exact avoids_of_done h hfit hind hr
  | case2 s r links log rest r' h ih =>
    obtain ⟨m, hm, hrest, hrestInd, hmask, hlinks⟩ := indifferent_of_link h hfit hn hind hr
    rw [plan_of_link h]
    exact hlinks _ (ih hrest (by omega) hrestInd hmask)
  | case3 s r bit off on h ihOn ihOff =>
    cases steps_of_eq h with
    | @fork _ id _ _ _ hoff hon =>
      obtain ⟨m, rfl⟩ := hfit.pos
      have hne : m ≠ b := level_ne_of_step (f := ⟨id, bit, true, off⟩) h
        (ne_leaf_of_isNode hon false) (ne_leaf_of_isNode hoff false) hfit.1 hind (by simp)
      obtain ⟨rfl, hOff, hOn⟩ := hfit
      have hle : m ≤ 32 := Nat.le_of_lt hn
      rw [plan_of_fork h]
      exact ⟨by simp [hne], ihOn hOn hle hind.2.2 (Region.mask_fix hr hne true),
        ihOff hOff hle hind.2.1 (Region.mask_fix hr hne false)⟩

theorem Sound.avoids_whole (h : Sound w s)
    (haccepts : ∀ c d, AgreeBut b c d → s.accepts c = s.accepts d) :
    (s.whole w).predicate.Avoids b := by
  unfold whole
  split
  · trivial
  · split
    · trivial
    · rename_i hempty hfull
      have hmin : s.Minimal := h.minimal fun answer => by
        cases answer
        · exact hempty
        · exact hfull
      exact avoids_plan h.fits w.le_widest (hmin.indifferent w.le_widest h.fits haccepts)
        (by simp [Region.whole])

end Subtree

/-- A bit that does not matter is never tested: if changing it leads from no listed value of the
domain to a value that is not listed, the compiled predicate mentions it nowhere. -/
theorem compile_avoids (values : List CodeValue) (w : Width) (b : Nat)
    (hflip : ∀ v ∈ values, w.contains v = true → v ^^^ twoPow 32 b ∈ values) :
    ∃ out, compile values w = .ok out ∧ out.predicate.Avoids b := by
  obtain ⟨t, s, events, hrep, haccepts, hrun⟩ := compileReporting_eq values w
  refine ⟨_, by rw [compile, hrun]; rfl, hrep.sound.avoids_whole ?_⟩
  have hle : ∀ c d, AgreeBut b c d → w.residue c ∈ values → w.residue d ∈ values := by
    intro c d hcd hc
    rcases (w.agreeBut_residue hcd).eq_or_eq_xor with heq | heq
    · rwa [heq]
    · rw [heq]
      exact hflip _ hc (w.contains_residue c)
  intro c d hcd
  rw [Bool.eq_iff_iff, haccepts, haccepts]
  exact ⟨hle c d hcd, hle d c fun i hi => (hcd i hi).symm⟩

/-- The highest of four bits does not matter if the values of the upper half are those of the lower
half, here 0, 3 and 5. -/
theorem compile_avoids_highest :
    let values : List CodeValue := [0#32, 11#32, 5#32, 8#32, 3#32, 13#32]
    let w : Width := ⟨4, by decide, by decide⟩
    (∀ v ∈ values, w.contains v = true → v ^^^ twoPow 32 3 ∈ values) ∧
      ∃ out, compile values w = .ok out ∧ out.predicate.Avoids 3 := by
  intro values w
  have hflip : ∀ v ∈ values, w.contains v = true → v ^^^ twoPow 32 3 ∈ values := by
    intro v hv _
    simp only [values, List.mem_cons, List.not_mem_nil, or_false] at hv
    rcases hv with rfl | rfl | rfl | rfl | rfl | rfl <;> decide
  exact ⟨hflip, compile_avoids values w 3 hflip⟩

end BitClassifier
