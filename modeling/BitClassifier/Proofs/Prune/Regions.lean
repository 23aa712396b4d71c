import BitClassifier.Proofs.Prune.Derivation
import BitClassifier.Proofs.Trie.FullSlots

/-!
# The price of a set

A set can be told by one test for each of its accepted regions, the blocks in it that are as large
as possible. A compiled predicate stays close to that: what it needs beside these tests are the
conditions and jumps in front of several of them (`Pruned.comparisons_le_regions`), and they are few
(`Pending.affordable`). They are not always repaid: the values 0 and 3 of three bits are two
regions, and their predicate has three tests (`compile_exceeds_regions`).

For the second bound a fork needs one that is lower by 1 than that for trees whose root has an only
child, because such a tree may be narrowed to a fork behind one more test. A jump has two sides of
at least two regions each, since a side with one is tested first.
-/

namespace BitClassifier

open BitVec

/-- The conditions that other tests are put behind, and the jumps. -/
def Predicate.detours : Predicate → Nat
  | constant _ => 0
  | bitTest .. => 0
  | and left right => 1 + left.detours + right.detours
  | or left right => left.detours + right.detours
  | cond _ on off => 1 + on.detours + off.detours

namespace Subtree

variable {w : Width} {n : Nat} {s s' x rest : Subtree} {r : Region} {p : Plan} {f : Frame}
  {j : Spine}

/-! ## Counting accepted regions -/

theorem regions_fill : (f.fill x).regions = x.regions + f.other.regions := by
  unfold Frame.fill
  split
  · exact Nat.add_comm _ _
  · rfl

theorem regions_plug (hj : Lone j) : (plug j x).regions = x.regions := by
  induction j generalizing x with
  | nil => rfl
  | cons f j ih =>
    rw [lone_cons] at hj
    rw [plug, ih hj.2, regions_fill, hj.1]
    rfl

theorem regions_core (s : Subtree) : s.core.2.regions = s.regions := by
  rw [← regions_plug (lone_core s), plug_core]

theorem regions_eq_of_sameShape (h : s.sameShape s' = true) : s.regions = s'.regions := by
  induction s generalizing s' with
  | absent => cases s' <;> first | rfl | cases h
  | full => cases s' <;> first | rfl | cases h
  | node id bit off on ihOff ihOn =>
    cases s' with
    | absent => cases h
    | full => cases h
    | node id' bit' off' on' =>
      obtain ⟨hoff, hon⟩ := Bool.and_eq_true_iff.mp h
      rw [regions, regions, ihOff hoff, ihOn hon]

/-- Everything that is not empty accepts some region. -/
theorem Minimal.regions_pos (h : s.Minimal) (hs : s ≠ absent) : 0 < s.regions := by
  induction s with
  | absent => exact absurd rfl hs
  | full => exact Nat.one_pos
  | node id bit off on ihOff ihOn =>
    obtain ⟨hpair, hOff, hOn⟩ := h
    rw [regions]
    by_cases hoff : off = absent
    · have hon := ihOn hOn fun hon => hpair false ⟨hoff, hon⟩
      omega
    · have hoff := ihOff hOff hoff
      omega

theorem Minimal.two_le_regions (h : s.Minimal) (hforked : s.Forked) : 2 ≤ s.regions := by
  obtain ⟨id, bit, off, on, rfl⟩ := isNode_iff.mp (isNode_of_forked hforked)
  have hoff := h.2.1.regions_pos hforked.1
  have hon := h.2.2.regions_pos hforked.2
  rw [regions]
  omega

/-- A tree without a region at the end of a chain has several regions. -/
theorem Minimal.two_le_of_found?_eq_none (h : s.Minimal) (hs : s.isNode)
    (hfound : s.found? r = none) : 2 ≤ s.regions := by
  rcases h.core_cases (ne_leaf_of_isNode hs false) with hfull | ⟨hforked, hmin⟩
  · -- the chain has a node, so the region at its end would have been found
    obtain ⟨f, j, hchain⟩ := List.exists_cons_of_ne_nil ((core_ne hs).resolve_right (by simpa))
    have hcore : s.core = (f :: j, full) := Prod.ext hchain hfull
    rw [found?, hcore] at hfound
    cases hfound
  · rw [← regions_core]
    exact hmin.two_le_regions hforked

theorem not_forked_plug (hj : Lone j) (hne : j ≠ []) (hx : x ≠ absent) : ¬(plug j x).Forked := by
  intro hforked
  have hcore := core_plug hj hx
  rw [core_of_forked hforked] at hcore
  exact hne (List.append_eq_nil_iff.mp (congrArg Prod.fst hcore).symm).2

/-! ## Tests beside the regions -/

/-- A plan pays for the accepted regions, the conditions and the jumps. -/
theorem Pruned.comparisons_le_regions (h : Pruned w n s r p) :
    p.comparisons ≤ s.regions + p.predicate.detours := by
  induction h with
  | chain h hj hne =>
    rw [regions_plug hj]
    exact Nat.le_refl _
  | hole h hforked hhole =>
    have hpos := h.minimal.two_le_regions hforked
    show 1 ≤ _ + 0
    omega
  | @narrow m r j rest p log _ hj _ _ _ ih =>
    rw [regions_plug hj]
    show 1 + p.comparisons ≤ _ + (1 + 0 + p.predicate.detours)
    omega
  | @twins m id bit off on r p log _ _ _ _ ih =>
    show 0 + p.comparisons ≤ off.regions + on.regions + p.predicate.detours
    omega
  | @pop n r f j p log _ _ hj _ _ ih =>
    rw [regions_fill] at ih
    rw [plug_append, plug, plug, regions_fill, regions_plug hj]
    show 1 + p.comparisons ≤ 1 + f.other.regions + (0 + p.predicate.detours)
    have hempty : absent.regions = 0 := rfl
    omega
  | @fork m id bit off on r p q _ _ _ _ ihOn ihOff =>
    show 1 + p.comparisons + q.comparisons ≤
      off.regions + on.regions + (1 + p.predicate.detours + q.predicate.detours)
    omega

/-! ## The price of a tree -/

/-- What a plan for a tree may cost, given the number of its regions. -/
structure Affordable (s : Subtree) (cost : Nat) : Prop where
  single : s.regions = 1 → cost = 1
  several : 2 ≤ s.regions → 2 * cost + 4 ≤ 5 * s.regions
  fork : s.Forked → 2 * cost + 6 ≤ 5 * s.regions

namespace Affordable

variable {cost : Nat}

/-- A bound for trees with any number of regions. -/
theorem le (h : s.Affordable cost) (hpos : 0 < s.regions) : 2 * cost + 3 ≤ 5 * s.regions := by
  rcases Nat.eq_or_lt_of_le hpos with hone | htwo
  · have hcost := h.single hone.symm
    omega
  · have hcost := h.several htwo
    omega

theorem of_several (htwo : 2 ≤ s.regions) (hcost : 2 * cost + 6 ≤ 5 * s.regions) :
    s.Affordable cost where
  single hone := by omega
  several _ := by omega
  fork _ := hcost

/-- One test may deal with all the regions. -/
theorem one (hmin : s.Minimal) : s.Affordable 1 where
  single _ := rfl
  several h := by omega
  fork h := by
    have htwo := hmin.two_le_regions h
    omega

/-- One more test narrows a tree to a fork. -/
theorem narrow (h : rest.Affordable cost) (hmin : rest.Minimal) (hforked : rest.Forked)
    (hregions : s.regions = rest.regions) (hs : ¬s.Forked) : s.Affordable (1 + cost) where
  single hone := by
    have htwo := hmin.two_le_regions hforked
    omega
  several _ := by
    have hcost := h.fork hforked
    omega
  fork hs' := absurd hs' hs

/-- A tree with the same tree on both sides costs as much as one of them. -/
theorem twins (h : rest.Affordable cost) (hpos : 0 < rest.regions)
    (hregions : s.regions = rest.regions + rest.regions) : s.Affordable cost := by
  have hcost := h.le hpos
  exact of_several (by omega) (by omega)

/-- One more test deals with one of the regions. -/
theorem pop (h : rest.Affordable cost) (hpos : 0 < rest.regions)
    (hregions : s.regions = rest.regions + 1) : s.Affordable (1 + cost) := by
  have hcost := h.le hpos
  exact of_several (by omega) (by omega)

/-- A jump has several regions on both of its sides. -/
theorem branch {off on : Subtree} {costOn costOff : Nat} (hon : on.Affordable costOn)
    (hoff : off.Affordable costOff) (htwoOn : 2 ≤ on.regions) (htwoOff : 2 ≤ off.regions)
    (hregions : s.regions = off.regions + on.regions) :
    s.Affordable (1 + costOn + costOff) := by
  have hcostOn := hon.several htwoOn
  have hcostOff := hoff.several htwoOff
  exact of_several (by omega) (by omega)

end Affordable

theorem Pending.affordable_of_done {test : Predicate} {log : List Event} (h : Pending w n s r)
    (hstep : s.step r = .done test log) : s.Affordable (s.plan r).comparisons := by
  rw [plan_of_done hstep]
  cases steps_of_eq hstep with
  | empty hj => exact absurd h (Pending.not_empty hj)
  | chain => exact .one h.minimal
  | hole => exact .one h.minimal

/-- What an emptied side leaves is not empty. -/
theorem Pending.affordable_of_pop {cost : Nat} (h : Pending w n (f.fill x) r)
    (hother : f.other.isNode) (hx : x.regions = 1) (hrest : (f.fill absent).Affordable cost) :
    (f.fill x).Affordable (1 + cost) := by
  refine hrest.pop ?_ ?_
  · exact (h.emptied hother).minimal.regions_pos (ne_leaf_of_isNode (isNode_fill f absent) false)
  · rw [regions_fill, regions_fill, hx, regions, Nat.zero_add, Nat.add_comm]

/-- If the plan for what a step leaves is affordable, so is the plan for the tree. -/
theorem Pending.affordable_of_link {links : List Link} {log : List Event} {r' : Region}
    (h : Pending w n s r) (hstep : s.step r = .link links log rest r')
    (ih : ∀ {m}, Pending w m rest r' → rest.Affordable (rest.plan r').comparisons) :
    s.Affordable (s.plan r).comparisons := by
  rw [plan_of_link hstep]
  cases steps_of_eq hstep with
  | narrow hj hne hforked =>
    obtain ⟨m, -, hrest⟩ := h.along (isNode_of_forked hforked)
    exact (ih hrest).narrow hrest.minimal hforked (regions_plug hj)
      (not_forked_plug hj hne (ne_leaf_of_isNode (isNode_of_forked hforked) false))
  | twins hforked hshape =>
    obtain ⟨m, rfl⟩ := h.pos
    have hrest := ih (h.twin hforked hshape)
    have hpos := h.minimal.2.1.regions_pos hforked.1
    show Affordable _ (0 + _)
    rw [Nat.zero_add]
    exact hrest.twins hpos (congrArg (_ + ·) (regions_eq_of_sameShape hshape))
  | side hother => exact h.affordable_of_pop hother rfl (ih (h.emptied hother))
  | @region _ f x found hx hother hfound =>
    have hsingle : x.regions = 1 := by
      obtain ⟨g, j, rfl, hlone, -⟩ := found?_eq_some hfound
      exact regions_plug hlone
    exact h.affordable_of_pop hother hsingle (ih (h.emptied hother))

/-- What is left to prune has an affordable plan. -/
theorem Pending.affordable (h : Pending w n s r) : s.Affordable (s.plan r).comparisons := by
  induction s, r using plan.induct generalizing n with
  | case1 s r test log hstep => exact h.affordable_of_done hstep
  | case2 s r links log rest r' hstep ih => exact h.affordable_of_link hstep ih
  | case3 s r bit off on hstep ihOn ihOff =>
    rw [plan_of_fork hstep]
    cases steps_of_eq hstep with
    | @fork _ id _ _ _ hoff hon hnoneOn hnoneOff =>
      obtain ⟨m, rfl⟩ := h.pos
      have hOn := Pending.side (f := ⟨id, bit, true, off⟩) h hon
      have hOff := Pending.side (f := ⟨id, bit, false, on⟩) h hoff
      exact (ihOn hOn).branch (ihOff hOff) (hOn.minimal.two_le_of_found?_eq_none hon hnoneOn)
        (hOff.minimal.two_le_of_found?_eq_none hoff hnoneOff) rfl

/-! ## Whole tries -/

/-- What a compilation may cost, given the number of accepted regions. -/
theorem Sound.comparisons_whole_le_regions {S : Set CodeValue} (h : Sound w s)
    (hS : ∀ c, s.accepts c = true ↔ w.residue c ∈ S) :
    ∃ regions : Nat, (w.maximalBlocks S).encard = regions ∧
      (s.whole w).comparisons ≤ regions + (s.whole w).predicate.detours ∧
      (regions ≤ 1 → (s.whole w).comparisons ≤ regions) ∧
      (2 ≤ regions → 2 * (s.whole w).comparisons + 4 ≤ 5 * regions) := by
  rcases h.constant_or_pending with ⟨b, hconstant⟩ | ⟨hpending, hplan⟩
  · have hleaf : ∀ c, (leaf b).accepts c = true ↔ w.residue c ∈ S := fun c => by
      rw [accepts_leaf, ← hS, ← h.eval_whole, hconstant]
      rfl
    have hmin : (leaf b).Minimal := by cases b <;> trivial
    refine ⟨_, hmin.encard_maximalBlocks (by cases b <;> simp) hleaf, ?_⟩
    rw [hconstant]
    exact ⟨Nat.zero_le _, fun _ => Nat.zero_le _, fun _ => show 2 * 0 + 4 ≤ _ by omega⟩
  · refine ⟨_, hpending.minimal.encard_maximalBlocks h.fits hS, ?_⟩
    rw [hplan]
    have haffordable := hpending.affordable
    have hpos := hpending.minimal.regions_pos (ne_leaf_of_isNode hpending.node false)
    refine ⟨hpending.pruned.comparisons_le_regions, fun hle => ?_, haffordable.several⟩
    rw [haffordable.single (Nat.le_antisymm hle hpos)]
    exact hpos

end Subtree

/-- A compilation needs one test at most for each accepted region, and the conditions and jumps of
its predicate on top. It needs no more tests than regions if there is one region or none, and at
most `(5 * n - 4) / 2` if there are `n` of them. The accepted regions are the slots of a trie for
the set that accept everything, whatever its history. -/
theorem compile_comparisons_le_regions :
    (∀ (values : List CodeValue) (w : Width), ∃ out, compile values w = .ok out ∧
      ∃ regions : Nat, (w.maximalBlocks {v | v ∈ values}).encard = regions ∧
        out.comparisons ≤ regions + out.predicate.detours ∧
        (regions ≤ 1 → out.comparisons ≤ regions) ∧
        (2 ≤ regions → 2 * out.comparisons + 4 ≤ 5 * regions)) ∧
    ∀ {t : Trie} {w : Width} {S : Set CodeValue}, t.History w S →
      (∃ c, w.contains c = true ∧ c ∉ S) → (t.fullSlots : ℕ∞) = (w.maximalBlocks S).encard := by
  constructor
  · intro values w
    obtain ⟨t, s, hrep, hS, hrun⟩ := compile_eq values w
    exact ⟨_, hrun, hrep.sound.comparisons_whole_le_regions hS⟩
  · exact fun h hout => h.fullSlots_eq hout

/-- The values 2, 3 and 5 of three bits: one slot for 2 and 3, and one for 5. -/
theorem compile_comparisons_le_regions_pair :
    let w : Width := ⟨3, by decide, by decide⟩
    let S : Set CodeValue := {v | v ∈ [2#32, 3#32, 5#32]}
    let t : Trie :=
      ⟨w, #[some ⟨4, .child 3, .child 1, none⟩, some ⟨2, .full, .absent, some 0⟩, none,
        some ⟨2, .absent, .child 4, some 0⟩, some ⟨1, .full, .absent, some 3⟩], 3⟩
    t.History w S ∧ (∃ c, w.contains c = true ∧ c ∉ S) ∧
      (t.fullSlots : ℕ∞) = (w.maximalBlocks S).encard := by
  intro w S t
  have hsorted : Trie.ofSorted w [2, 3, 5] = pure t := by cbv
  have hvalues : ∀ v ∈ ([2, 3, 5] : List CodeValue), w.contains v = true := by
    simp [w, Width.contains, Width.maxValue]
  have h : t.History w S := .ofSorted hvalues hsorted
  have hout : ∃ c, w.contains c = true ∧ c ∉ S := ⟨1#32, by decide, by simp [S]⟩
  exact ⟨h, hout, compile_comparisons_le_regions.2 h hout⟩

/-- The condition in front of the tests is not always repaid: the values 0 and 3 of three bits are
two accepted regions, and their predicate has three tests, as many as the bound allows. -/
theorem compile_exceeds_regions :
    let w : Width := ⟨3, by decide, by decide⟩
    let values : List CodeValue := [0, 3]
    ∃ out, compile values w = .ok out ∧ out.comparisons = 3 ∧
      (w.maximalBlocks {v | v ∈ values}).encard = 2 ∧
      ∃ t, Trie.ofSorted w values = pure t ∧ t.fullSlots = 2 := by
  intro w values
  let t : Trie :=
    ⟨w, #[some ⟨4, .absent, .child 1, none⟩, some ⟨2, .child 3, .child 2, some 0⟩,
      some ⟨1, .absent, .full, some 1⟩, some ⟨1, .full, .absent, some 1⟩], 3⟩
  have hcompile : compile values w = .ok ⟨.and (.bitTest 4 0 true)
      (.or (.bitTest 7 0 true) (.bitTest 7 3 true)), 3, 3⟩ := by cbv
  have hsorted : Trie.ofSorted w values = pure t := by cbv
  have hslots : t.fullSlots = 2 := by decide
  have hvalues : ∀ v ∈ values, w.contains v = true := by
    simp [values, w, Width.contains, Width.maxValue]
  have h : t.History w {v | v ∈ values} := .ofSorted hvalues hsorted
  have hblocks := h.fullSlots_eq ⟨1#32, by decide, by simp [values]⟩
  rw [hslots] at hblocks
  exact ⟨_, hcompile, rfl, hblocks.symm, t, hsorted, hslots⟩

end BitClassifier
