import BitClassifier.Proofs.Blocks
import BitClassifier.Proofs.Compile
import BitClassifier.Proofs.Prune.Derivation
import BitClassifier.Proofs.Subtree.Renumber

/-!
# Sets that need a single test

The values of an aligned block, and the values outside of one, are told apart by a test of the
topmost bits. The pruner finds this test for every block: the tree of a block is a chain of only
children, that of its complement has an accepting leaf beside every node (`Minimal.exists_spine`),
and both are dealt with in one step (`compile_block`).
-/

namespace BitClassifier

open BitVec

namespace Region

variable {r r' : Region} {m n : Nat}

/-- A bit that a region fixes is fixed by every region with the same values. -/
theorem FreeBelow.mask_of_covers (hr : r.FreeBelow m) (hr' : r'.FreeBelow n)
    (h : ∀ c, r.covers c = true ↔ r'.covers c = true) {i : Nat} (hi : r.mask.getLsbD i = true) :
    r'.mask.getLsbD i = true := by
  by_contra hfree
  have hlt : i < 32 := lt_of_getLsbD hi
  -- a value of both regions stays in the second one when the bit is flipped
  have hvalue : r.covers r.value = true := (hr.covers_iff _).mpr fun _ _ => rfl
  obtain ⟨d, hbelow, hbit, habove⟩ := exists_set_bit hlt r.value (!r.value.getLsbD i)
  have hd : r'.covers d = true := by
    have hvalue' := (hr'.covers_iff _).mp ((h _).mp hvalue)
    refine (hr'.covers_iff d).mpr fun l hl => ?_
    rw [← hvalue' l hl]
    rcases Nat.lt_trichotomy l i with hli | rfl | hli
    · exact hbelow l hli
    · exact absurd hl hfree
    · exact habove l hli
  have hsame := (hr.covers_iff d).mp ((h d).mpr hd) i hi
  rw [hbit] at hsame
  exact Bool.not_ne_self _ hsame

/-- A region is settled by its values. -/
theorem FreeBelow.eq_of_covers (hr : r.FreeBelow m) (hr' : r'.FreeBelow n)
    (h : ∀ c, r.covers c = true ↔ r'.covers c = true) : r = r' := by
  have hmask : r.mask = r'.mask := by
    apply eq_of_getLsbD_eq
    intro i _
    rw [Bool.eq_iff_iff]
    exact ⟨hr.mask_of_covers hr' h, hr'.mask_of_covers hr fun c => (h c).symm⟩
  have hvalue : r.covers r.value = true := (hr.covers_iff _).mpr fun _ _ => rfl
  have hcovers := (h _).mp hvalue
  rw [covers, ← hmask, hr.value_and_mask, beq_iff_eq] at hcovers
  obtain ⟨mask, value⟩ := r
  obtain ⟨mask', value'⟩ := r'
  exact Region.mk.injEq .. ▸ ⟨hmask, hcovers⟩

end Region

namespace Width

variable {w : Width} {k p : Nat}

theorem freeBelow_top (hk : k ≤ w.bits) (hp : p < 2 ^ k) :
    (⟨w.topMask k, w.topValue k p⟩ : Region).FreeBelow (w.bits - k) where
  mask i hi := by
    rw [getLsbD_topMask hk, decide_eq_false (Nat.not_le.mpr hi), Bool.false_and]
  value i hi := by
    rw [getLsbD_topValue hk hp, Bool.and_eq_true] at hi
    rw [getLsbD_topMask hk]
    exact hi.1

/-- A test of the topmost bits looks at these bits. -/
theorem and_topMask_eq_iff (hk : k ≤ w.bits) (hp : p < 2 ^ k) (c : CodeValue) :
    c &&& w.topMask k = w.topValue k p ↔
      ∀ i, w.bits - k ≤ i → i < w.bits → c.getLsbD i = (w.topValue k p).getLsbD i := by
  have hcovers := (freeBelow_top hk hp).covers_iff c
  rw [Region.covers, beq_iff_eq] at hcovers
  rw [hcovers]
  simp only [getLsbD_topMask hk, Bool.and_eq_true, decide_eq_true_iff, and_imp]

end Width

namespace Subtree

variable {w : Width} {s x : Subtree} {r : Region} {f : Frame} {j : Spine} {m n k : Nat} {b : Bool}
  {v : CodeValue}

/-- If an answer is given to the values with certain bits and to no others, then the other answer is
given to some value. -/
theorem both_of_bits (hm : m < n) (hlt : m < 32)
    (h : ∀ c, s.accepts c = b ↔ ∀ i, m ≤ i → i < n → c.getLsbD i = v.getLsbD i) (a : Bool) :
    ∃ c, s.accepts c = a := by
  rcases Bool.eq_or_eq_not a b with rfl | rfl
  · exact ⟨v, (h v).mpr fun _ _ _ => rfl⟩
  · obtain ⟨u, -, hu, -⟩ := exists_set_bit hlt v (!v.getLsbD m)
    refine ⟨u, Bool.eq_not_of_ne fun hub => ?_⟩
    exact Bool.not_ne_self _ (hu.symm.trans ((h u).mp hub m (Nat.le_refl m) hm))

/-- If the answer `b` is given to the values with certain bits and to no others, then the side that
these lead to does the same with one bit less, and the other side gives the other answer. -/
theorem sides_of_bits (hn : n < 32) (hm : m ≤ n) (hfit : (f.fill x).Fits (n + 1))
    (hside : v.getLsbD n = f.side)
    (h : ∀ c, (f.fill x).accepts c = b ↔ ∀ i, m ≤ i → i < n + 1 → c.getLsbD i = v.getLsbD i) :
    (∀ c, x.accepts c = b ↔ ∀ i, m ≤ i → i < n → c.getLsbD i = v.getLsbD i) ∧
      ∀ c, f.other.accepts c = !b := by
  constructor
  · intro c
    obtain ⟨d, hbelow, hdbit, -⟩ := exists_set_bit hn c f.side
    rw [← accepts_fill_of_side hn hfit hbelow hdbit, h d]
    constructor
    · intro hall i hi hlt
      rw [← hbelow i hlt]
      exact hall i hi (Nat.lt_succ_of_lt hlt)
    · intro hall i hi hlt
      rcases Nat.lt_succ_iff_lt_or_eq.mp hlt with hlow | rfl
      · rw [hbelow i hlow]
        exact hall i hi hlow
      · rw [hdbit, hside]
  · intro c
    obtain ⟨d, hbelow, hdbit, -⟩ := exists_set_bit hn c (!f.side)
    have hd : (f.fill x).accepts d ≠ b := fun hdb =>
      Bool.not_ne_self f.side
        (hdbit.symm.trans (((h d).mp hdb n hm (Nat.lt_succ_self n)).trans hside))
    rw [fill_swap] at hd hfit
    rw [accepts_fill_of_side hn hfit hbelow hdbit] at hd
    exact Bool.eq_not_of_ne hd

/-- A minimal tree that gives an answer to the values with certain bits, and to no others, has the
other answer beside every node on the way to these values. -/
theorem Minimal.exists_spine (hmin : s.Minimal) (hm : m + k ≤ 32) (hfit : s.Fits (m + k))
    (h : ∀ c, s.accepts c = b ↔ ∀ i, m ≤ i → i < m + k → c.getLsbD i = v.getLsbD i) :
    ∃ j : Spine, j.length = k ∧ s = plug j (leaf b) ∧ ∀ f ∈ j, f.other = leaf (!b) := by
  induction k generalizing s with
  | zero =>
    have hall : ∀ c, s.accepts c = b := fun c => (h c).mpr fun i hle hlt => by omega
    exact ⟨[], rfl, hmin.eq_leaf hm hfit hall, by simp⟩
  | succ k ih =>
    have hlt : m + k < 32 := hm
    -- both answers are given, so the tree is a node
    have hne (a : Bool) : s ≠ leaf a := by
      rintro rfl
      obtain ⟨c, hc⟩ := both_of_bits (by omega) (by omega) h (!a)
      rw [accepts_leaf] at hc
      exact Bool.self_ne_not a hc
    obtain ⟨id, bit, off, on, rfl⟩ := isNode_iff.mp (isNode_of_ne (hne false) (hne true))
    obtain ⟨f, x, -, hside, hfill⟩ := exists_fill_hits v id bit off on
    rw [hfill] at hmin hfit h ⊢
    obtain ⟨hbit, hx, hotherFit⟩ := (f.fits_fill (n := m + k) x).mp hfit
    obtain ⟨-, hxMin, hotherMin⟩ := minimal_fill.mp hmin
    rw [hbit, hits_twoPow hlt] at hside
    obtain ⟨hxAnswers, hotherAnswers⟩ := sides_of_bits hlt (Nat.le_add_right m k) hfit hside h
    obtain ⟨j, hlength, rfl, hj⟩ := ih hxMin (Nat.le_of_lt hlt) hx hxAnswers
    refine ⟨j ++ [f], by rw [List.length_append, hlength]; rfl, (plug_append j [f] _).symm, ?_⟩
    have hleaf := hotherMin.eq_leaf (Nat.le_of_lt hlt) hotherFit hotherAnswers
    exact List.forall_mem_append.mpr ⟨hj, List.forall_mem_singleton.mpr hleaf⟩

/-! ## The two steps -/

theorem hole?_fill (hother : f.other = full) (hx : x ≠ full) :
    (f.fill x).hole? r = x.hole? (r.fix f.bit f.side) := by
  obtain ⟨id, bit, side, other⟩ := f
  obtain rfl : other = full := hother
  cases side
  · simp [Frame.fill, hole?]
  · simp [Frame.fill, hole?, hx]

/-- A hole is found however deep it is. -/
theorem hole?_plug (hj : ∀ f ∈ j, f.other = full) (hx : x ≠ full) :
    (plug j x).hole? r = x.hole? (r.along j) := by
  induction j generalizing x with
  | nil => rfl
  | cons f j ih =>
    rw [List.forall_mem_cons] at hj
    rw [plug, ih hj.2 (ne_leaf_of_isNode (isNode_fill f x) true), hole?_fill hj.1 hx]
    rfl

theorem step_plug_full (hj : Lone j) :
    (plug j full).step r = .done ((r.along j).test true) [.chainAccepts (r.along j)] := by
  rw [step, core_plug hj (by simp)]
  rfl

theorem step_plug_absent (hj : ∀ f ∈ j, f.other = full) (hlength : 2 ≤ j.length) :
    (plug j absent).step r = .done ((r.along j).test false) [.allButOne (r.along j)] := by
  have hhole : (plug j absent).hole? r = some (r.along j) := hole?_plug hj (by simp)
  obtain ⟨i, f, rfl⟩ : ∃ i f, j = i ++ [f] :=
    (List.eq_nil_or_concat' j).resolve_left (by rintro rfl; cases hlength)
  obtain ⟨g, i, rfl⟩ : ∃ g l, i = g :: l :=
    List.exists_cons_of_ne_nil (by rintro rfl; simp at hlength)
  -- seen from its other side the root has an accepting leaf
  have hroot : plug (g :: i ++ [f]) absent =
      (⟨f.id, f.bit, !f.side, plug (g :: i) absent⟩ : Frame).fill full := by
    rw [plug_append, ← hj f (by simp)]
    exact fill_swap f _
  rw [hroot] at hhole ⊢
  rw [step_fill_full (isNode_plug_cons g i absent), hhole]

/-! ## Whole tries -/

/-- A tree that gives both answers is pruned. -/
theorem Sound.pending_of_both (h : Sound w s) (hboth : ∀ b, ∃ c, s.accepts c = b) :
    Pending w w.bits s .whole ∧ s.whole w = s.plan .whole := by
  refine h.constant_or_pending.resolve_left ?_
  rintro ⟨b, hconstant⟩
  obtain ⟨c, hc⟩ := hboth (!b)
  rw [← h.eval_whole, hconstant] at hc
  exact Bool.self_ne_not b hc

/-- The one test of a plan is settled by the answers of the tree. -/
theorem Sound.region_eq {q : Region} {cost : Nat} {log : List Event} (h : Sound w s)
    (hwhole : s.whole w = ⟨q.test b, cost, log⟩) (hq : q.FreeBelow m) (hr : r.FreeBelow k)
    (hanswers : ∀ c, s.accepts c = b ↔ r.covers c = true) : q = r := by
  refine hq.eq_of_covers hr fun c => ?_
  have heval := h.eval_whole c
  rw [hwhole, hq.eval_test] at heval
  rw [← hanswers, ← heval]
  cases b <;> simp

theorem Sound.whole_of_top {p : Nat} (h : Sound w s) (hk : 1 ≤ k) (hkw : k ≤ w.bits)
    (hp : p < 2 ^ k) (hb : b = true ∨ 2 ≤ k)
    (hanswers : ∀ c, s.accepts c = b ↔ c &&& w.topMask k = w.topValue k p) :
    ∃ log, s.whole w = ⟨.bitTest (w.topMask k) (w.topValue k p) b, 1, log⟩ := by
  have hwidest := w.le_widest
  have hbounds : ∀ c, s.accepts c = b ↔
      ∀ i, w.bits - k ≤ i → i < w.bits - k + k → c.getLsbD i = (w.topValue k p).getLsbD i := by
    rw [Nat.sub_add_cancel hkw]
    exact fun c => (hanswers c).trans (Width.and_topMask_eq_iff hkw hp c)
  obtain ⟨hpending, hplan⟩ := h.pending_of_both (both_of_bits (by omega) (by omega) hbounds)
  obtain ⟨j, hlength, rfl, hj⟩ := hpending.minimal.exists_spine (by omega)
    ((Nat.sub_add_cancel hkw).symm ▸ h.fits) hbounds
  have hstep : ∃ log,
      (plug j (leaf b)).step .whole = .done ((Region.whole.along j).test b) log := by
    cases b with
    | true => exact ⟨_, step_plug_full hj⟩
    | false => exact ⟨_, step_plug_absent hj (by simpa [hlength] using hb)⟩
  obtain ⟨log, hstep⟩ := hstep
  rw [plan_of_done hstep] at hplan
  obtain ⟨m, -, -, hfree, -⟩ := along_free h.fits w.le_widest (Region.freeBelow_whole _)
  have hregion := h.region_eq hplan hfree (Width.freeBelow_top hkw hp) fun c => by
    rw [hanswers, Region.covers, beq_iff_eq]
  rw [hregion] at hplan
  exact ⟨log, hplan⟩

end Subtree

theorem Width.residue_and_topMask {w : Width} {k : Nat} (hk : k ≤ w.bits) (c : CodeValue) :
    w.residue c &&& w.topMask k = c &&& w.topMask k := by
  apply eq_of_getLsbD_eq
  intro i _
  rw [getLsbD_and, getLsbD_and, getLsbD_residue, getLsbD_topMask hk]
  cases decide (i < w.bits) <;> simp

/-- The values of the domain with certain topmost bits compile to one test of these bits. So do all
the other values of the domain, if there are at least two of the bits. -/
theorem compile_block {w : Width} {k p : Nat} (hk : 1 ≤ k) (hkw : k ≤ w.bits) (hp : p < 2 ^ k) :
    (∀ values : List CodeValue,
      (∀ c, w.contains c = true → (c ∈ values ↔ c &&& w.topMask k = w.topValue k p)) →
      ∃ nodes, compile values w = .ok ⟨.bitTest (w.topMask k) (w.topValue k p) true, 1, nodes⟩) ∧
    (2 ≤ k → ∀ values : List CodeValue,
      (∀ c, w.contains c = true → (c ∈ values ↔ c &&& w.topMask k ≠ w.topValue k p)) →
      ∃ nodes, compile values w =
        .ok ⟨.bitTest (w.topMask k) (w.topValue k p) false, 1, nodes⟩) := by
  constructor
  · intro values hvalues
    obtain ⟨t, s, hrep, hS, hrun⟩ := compile_eq values w
    obtain ⟨log, hwhole⟩ := hrep.sound.whole_of_top hk hkw hp (.inl rfl) fun c => by
      rw [hS, hvalues _ (w.contains_residue c), Width.residue_and_topMask hkw]
    exact ⟨t.len, by rw [hrun, hwhole]⟩
  · intro hk₂ values hvalues
    obtain ⟨t, s, hrep, hS, hrun⟩ := compile_eq values w
    obtain ⟨log, hwhole⟩ := hrep.sound.whole_of_top hk hkw hp (.inr hk₂) fun c => by
      rw [← Bool.not_eq_true, hS, hvalues _ (w.contains_residue c), Width.residue_and_topMask hkw,
        not_ne_iff]
    exact ⟨t.len, by rw [hrun, hwhole]⟩

/-- In three bits the values 2 and 3 are those with 01 in front. -/
theorem compile_block_pair :
    let w : Width := ⟨3, by decide, by decide⟩
    let block : List CodeValue := [2, 3]
    let others : List CodeValue := [0, 1, 4, 5, 6, 7]
    (1 ≤ 2 ∧ 2 ≤ w.bits ∧ 1 < 2 ^ 2) ∧
    (∀ c, w.contains c = true → (c ∈ block ↔ c &&& w.topMask 2 = w.topValue 2 1)) ∧
    (∀ c, w.contains c = true → (c ∈ others ↔ c &&& w.topMask 2 ≠ w.topValue 2 1)) ∧
    (∃ nodes, compile block w = .ok ⟨.bitTest (w.topMask 2) (w.topValue 2 1) true, 1, nodes⟩) ∧
    ∃ nodes, compile others w = .ok ⟨.bitTest (w.topMask 2) (w.topValue 2 1) false, 1, nodes⟩ := by
  intro w block others
  have hvalues : ∀ c, w.contains c = true →
      (c ∈ block ↔ c &&& w.topMask 2 = w.topValue 2 1) ∧
        (c ∈ others ↔ c &&& w.topMask 2 ≠ w.topValue 2 1) := by
    intro c hc
    obtain ⟨i, rfl⟩ : ∃ i : Fin 8, c = BitVec.ofNat 32 i :=
      ⟨⟨c.toNat, (w.contains_iff_lt c).mp hc⟩, by simp⟩
    fin_cases i <;> decide
  have hblock := fun c hc => (hvalues c hc).1
  have hothers := fun c hc => (hvalues c hc).2
  have hw : 2 ≤ w.bits := by decide
  exact ⟨⟨by decide, hw, by decide⟩, hblock, hothers,
    (compile_block (by decide) hw (by decide)).1 block hblock,
    (compile_block (by decide) hw (by decide)).2 (by decide) others hothers⟩

end BitClassifier
