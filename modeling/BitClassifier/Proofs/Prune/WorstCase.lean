import BitClassifier.Proofs.Prune.Derivation

/-!
# The worst case

The worst case of a predicate is read off its shape. It lies between what any one value needs and
the size of the whole predicate. For a compiled predicate two things are added: it is bounded by the
width alone (`compile_worstCase_le`), and a value of the domain needs all of it (`worstCase_exact`).

A level of the tree costs two instructions at most: a region is taken out of one side of a fork, and
what is left is a chain that is narrowed to the other side. So the induction needs a bound for forks
and one that is lower by 1 for trees whose root has an only child.
-/

namespace BitClassifier

namespace Predicate

theorem pathComparisons_le_worstCase (p : Predicate) (c : CodeValue) :
    p.pathComparisons c ≤ p.worstCase := by
  induction p with
  | constant => exact Nat.le_refl _
  | bitTest => exact Nat.le_refl _
  | and left right ihLeft ihRight =>
    rw [pathComparisons, worstCase]
    split <;> omega
  | or left right ihLeft ihRight =>
    rw [pathComparisons, worstCase]
    split <;> omega
  | cond bit on off ihOn ihOff =>
    rw [pathComparisons, worstCase]
    split <;> omega

theorem worstCase_le_comparisons (p : Predicate) : p.worstCase ≤ p.comparisons := by
  induction p with
  | constant => exact Nat.le_refl _
  | bitTest => exact Nat.le_refl _
  | and left right ihLeft ihRight => exact Nat.add_le_add ihLeft ihRight
  | or left right ihLeft ihRight => exact Nat.add_le_add ihLeft ihRight
  | cond bit on off ihOn ihOff =>
    rw [worstCase, comparisons]
    omega

end Predicate

namespace Subtree

variable {w : Width} {n : Nat} {s : Subtree} {r : Region} {p : Plan}

/-! ## The bound -/

theorem eq_full_of_fits_zero (hfit : s.Fits 0) (hs : s ≠ absent) : s = full := by
  cases s with
  | absent => exact absurd rfl hs
  | full => rfl
  | node => exact hfit.elim

/-- A fork on the lowest level would accept everything. -/
theorem Pending.two_le_of_forked (h : Pending w n s r) (hforked : s.Forked) : 2 ≤ n := by
  obtain ⟨id, bit, off, on, rfl⟩ := isNode_iff.mp h.node
  obtain ⟨m, rfl⟩ := h.pos
  rcases Nat.eq_zero_or_pos m with rfl | hm
  · have hoff := eq_full_of_fits_zero h.fits.2.1 hforked.1
    have hon := eq_full_of_fits_zero h.fits.2.2 hforked.2
    exact absurd ⟨hoff, hon⟩ (h.minimal.1 true)
  · omega

theorem Pruned.worstCase_le (h : Pruned w n s r p) :
    p.predicate.worstCase ≤ max 1 (2 * n - 2) ∧
      (¬s.Forked → p.predicate.worstCase ≤ max 1 (2 * n - 3)) := by
  induction h with
  | chain => exact ⟨Nat.le_max_left _ _, fun _ => Nat.le_max_left _ _⟩
  | hole => exact ⟨Nat.le_max_left _ _, fun _ => Nat.le_max_left _ _⟩
  | @narrow m r j rest p log _ _ hne hforked hrest ih =>
    -- the fork is at least one level down, which pays for the test before it
    have hlevel := hrest.pending.two_le_of_forked hforked
    have hlength := List.length_pos_iff.mpr hne
    have hbound : 1 + p.predicate.worstCase ≤ 2 * (m + j.length) - 3 := by omega
    show 1 + p.predicate.worstCase ≤ _ ∧ (_ → 1 + p.predicate.worstCase ≤ _)
    exact ⟨by omega, fun _ => by omega⟩
  | @twins m _ _ _ _ _ p _ _ hforked _ _ ih =>
    show p.predicate.worstCase ≤ _ ∧ _
    exact ⟨by omega, fun hnot => absurd hforked hnot⟩
  | @pop n _ f _ p _ h hforked _ hother hrest ih =>
    have hlone := ih.2 fun hboth => (forked_fill.mp hboth).1 rfl
    have hlevel := h.two_le_of_forked hforked
    show 1 + p.predicate.worstCase ≤ _ ∧ _
    exact ⟨by omega, fun hnot => absurd hforked hnot⟩
  | @fork m _ _ _ _ _ p q h hforked _ _ ihOn ihOff =>
    have hlevel := h.two_le_of_forked hforked
    show 1 + max p.predicate.worstCase q.predicate.worstCase ≤ _ ∧ _
    exact ⟨by omega, fun hnot => absurd hforked hnot⟩

theorem Sound.worstCase_whole_le (h : Sound w s) :
    (s.whole w).predicate.worstCase ≤ max 1 (2 * w.bits - 2) := by
  rcases h.whole_cases with ⟨b, hconstant⟩ | hpruned
  · rw [hconstant]
    exact Nat.zero_le _
  · exact hpruned.worstCase_le.1

/-! ## Values that need the worst case -/

/-- A value of a region's own bits follows the spine that leads there. -/
theorem Pending.exists_follows {x : Subtree} {j : Spine} (h : Pending w n (plug j x) r)
    (hj : j ≠ []) : ∃ c, w.contains c = true ∧ r.covers c = true ∧ Follows j c := by
  have hproper := h.proper_along hj
  have hcovers := (h.covers_along _).mp hproper.covers_value
  exact ⟨_, hproper.contains_value, hcovers.1, hcovers.2⟩

/-- A node with one side emptied is a chain to its other side. -/
theorem hits_of_follows_emptied {f : Frame} {c : CodeValue} (hother : f.other.isNode)
    (h : Follows (f.fill absent).core.1 c) : hits c f.bit = !f.side := by
  rw [fill_swap, core_fill rfl (ne_leaf_of_isNode hother false)] at h
  exact h ⟨f.id, f.bit, !f.side, absent⟩ (List.mem_append_right _ (List.mem_singleton_self _))

/-- Some value of the region needs as many instructions as the worst case of a plan says. It passes
the test of every chain and lies in none of the regions that were taken out, since these hang on the
other sides of the forks. -/
theorem Pruned.attains (h : Pruned w n s r p) :
    ∃ c, w.contains c = true ∧ r.covers c = true ∧ Follows s.core.1 c ∧
      p.predicate.pathComparisons c = p.predicate.worstCase := by
  induction h with
  | chain h hj hne =>
    obtain ⟨c, hc, hcovers, hfollows⟩ := h.exists_follows hne
    refine ⟨c, hc, hcovers, ?_, rfl⟩
    rwa [core_plug hj (by simp)]
  | hole h hforked hhole =>
    obtain ⟨j, rfl, -⟩ := hole?_eq_some hhole
    obtain ⟨c, hc, hcovers, -⟩ := h.exists_follows (ne_nil_of_isNode_plug h.node rfl)
    refine ⟨c, hc, hcovers, ?_, rfl⟩
    rw [core_of_forked hforked]
    exact follows_nil _
  | @narrow m r j rest p log h hj hne hforked hrest ih =>
    obtain ⟨c, hc, hcovers, -, hpath⟩ := ih
    obtain ⟨hregion, hfollows⟩ := (h.covers_along c).mp hcovers
    refine ⟨c, hc, hregion, ?_, ?_⟩
    · rwa [core_plug hj (ne_leaf_of_isNode hrest.pending.node false), core_of_forked hforked]
    · have htest := (h.eval_along hne c).mpr ⟨hregion, hfollows⟩
      show 1 + (if ((r.along j).test true).eval c then p.predicate.pathComparisons c else 0) =
        1 + p.predicate.worstCase
      rw [if_pos htest, hpath]
  | twins h hforked _ hrest ih =>
    obtain ⟨c, hc, hcovers, -, hpath⟩ := ih
    refine ⟨c, hc, hcovers, ?_, hpath⟩
    rw [core_of_forked hforked]
    exact follows_nil c
  | @pop n r f j p log h hforked _ hother hrest ih =>
    obtain ⟨c, hc, hcovers, hfollows, hpath⟩ := ih
    refine ⟨c, hc, hcovers, ?_, ?_⟩
    · rw [core_of_forked hforked]
      exact follows_nil c
    · have hside := hits_of_follows_emptied hother hfollows
      have htest : ((r.along (j ++ [f])).test true).eval c ≠ true := by
        intro htest
        have hsame := ((h.eval_along (by simp) c).mp htest).2 f (by simp)
        rw [hside] at hsame
        exact Bool.not_ne_self _ hsame
      show 1 + (if ((r.along (j ++ [f])).test true).eval c then 0
          else p.predicate.pathComparisons c) = 1 + p.predicate.worstCase
      rw [if_neg htest, hpath]
  | @fork m id bit off on r p q h hforked hOn hOff ihOn ihOff =>
    have hbit : bit = BitVec.twoPow 32 m := h.fits.1
    obtain ⟨c₁, hc₁, hcovers₁, -, hpath₁⟩ := ihOn
    obtain ⟨c₀, hc₀, hcovers₀, -, hpath₀⟩ := ihOff
    rw [hbit, h.free.covers_fix h.lt_widest, ← hbit] at hcovers₁ hcovers₀
    rw [core_of_forked hforked]
    show ∃ c, _ ∧ _ ∧ _ ∧
      1 + (if hits c bit then p.predicate.pathComparisons c else q.predicate.pathComparisons c) =
        1 + max p.predicate.worstCase q.predicate.worstCase
    -- the value comes from the more expensive side
    rcases Nat.le_total q.predicate.worstCase p.predicate.worstCase with hle | hle
    · refine ⟨c₁, hc₁, hcovers₁.1, follows_nil c₁, ?_⟩
      rw [if_pos hcovers₁.2, hpath₁, Nat.max_eq_left hle]
    · refine ⟨c₀, hc₀, hcovers₀.1, follows_nil c₀, ?_⟩
      rw [hcovers₀.2, if_neg Bool.false_ne_true, hpath₀, Nat.max_eq_right hle]

theorem Sound.attains_whole (h : Sound w s) :
    ∃ c, w.contains c = true ∧
      (s.whole w).predicate.pathComparisons c = (s.whole w).predicate.worstCase := by
  rcases h.whole_cases with ⟨b, hconstant⟩ | hpruned
  · rw [hconstant]
    exact ⟨0#32, w.contains_zero, rfl⟩
  · obtain ⟨c, hc, -, -, hpath⟩ := hpruned.attains
    exact ⟨c, hc, hpath⟩

end Subtree

/-- The cost of a compiled classifier is bounded by the width alone, so that no set of code values
needs more than 62 instructions for any value. -/
theorem compile_worstCase_le (values : List CodeValue) (w : Width) :
    ∃ out, compile values w = .ok out ∧
      out.predicate.worstCase ≤ max 1 (2 * w.bits - 2) ∧
      ∀ c, out.predicate.pathComparisons c ≤ 62 := by
  obtain ⟨t, s, hrep, -, hrun⟩ := compile_eq values w
  have hbound := hrep.sound.worstCase_whole_le
  refine ⟨_, hrun, hbound, fun c => ?_⟩
  have hpath := (s.whole w).predicate.pathComparisons_le_worstCase c
  have hwidest := w.le_widest
  show (s.whole w).predicate.pathComparisons c ≤ 62
  omega

/-- The worst case of any predicate bounds what a value needs, and the whole predicate bounds the
worst case. For a compiled predicate the worst case is exact: a value of the domain needs it. -/
theorem worstCase_exact :
    (∀ (p : Predicate) (c : CodeValue),
      p.pathComparisons c ≤ p.worstCase ∧ p.worstCase ≤ p.comparisons) ∧
    ∀ (values : List CodeValue) (w : Width), ∃ out, compile values w = .ok out ∧
      ∃ c, w.contains c = true ∧ out.predicate.pathComparisons c = out.predicate.worstCase := by
  refine ⟨fun p c => ⟨p.pathComparisons_le_worstCase c, p.worstCase_le_comparisons⟩,
    fun values w => ?_⟩
  obtain ⟨t, s, hrep, -, hrun⟩ := compile_eq values w
  exact ⟨_, hrun, hrep.sound.attains_whole⟩

end BitClassifier
