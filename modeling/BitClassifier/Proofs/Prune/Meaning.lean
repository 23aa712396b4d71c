import BitClassifier.Proofs.Prune.Plan

/-!
# The meaning of a plan

A plan is made for a tree and for the region of the values that lead to it. On that region the
planned predicate accepts what the tree accepts (`eval_plan`). A region may leave out bits above the
tree, as it does for a dropped bit, but it fixes no bit that the tree still tests (`FreeBelow`).
-/

namespace BitClassifier

namespace Region

/-- A region that leaves the lowest `n` bits free, and has no bit of its value outside its mask. -/
structure FreeBelow (r : Region) (n : Nat) : Prop where
  mask : ∀ i, i < n → r.mask.getLsbD i = false
  value : ∀ i, r.value.getLsbD i = true → r.mask.getLsbD i = true

variable {r : Region} {m n : Nat}

theorem freeBelow_whole (n : Nat) : whole.FreeBelow n where
  mask := by simp [whole]
  value := by simp [whole]

theorem FreeBelow.mono (h : r.FreeBelow n) (hm : m ≤ n) : r.FreeBelow m :=
  ⟨fun i hi => h.mask i (Nat.lt_of_lt_of_le hi hm), h.value⟩

theorem FreeBelow.fix (h : r.FreeBelow (n + 1)) (on : Bool) :
    (r.fix (BitVec.twoPow 32 n) on).FreeBelow n where
  mask i hi := by
    simp [Region.fix, h.mask i (by omega)]
    omega
  value i hi := by
    cases on <;> simp only [Region.fix, BitVec.getLsbD_or, if_true, Bool.false_eq_true, if_false,
      Bool.or_eq_true] at hi ⊢
    · exact .inl (h.value i hi)
    · exact hi.imp_left (h.value i)

/-- The values of a region have its bits under its mask. -/
theorem FreeBelow.covers_iff (h : r.FreeBelow n) (c : CodeValue) :
    r.covers c = true ↔ ∀ i, r.mask.getLsbD i = true → c.getLsbD i = r.value.getLsbD i := by
  rw [covers, beq_iff_eq]
  constructor
  · intro heq i hi
    rw [← heq, BitVec.getLsbD_and, hi, Bool.and_true]
  · intro hall
    apply BitVec.eq_of_getLsbD_eq
    intro i _
    rw [BitVec.getLsbD_and]
    cases hmask : r.mask.getLsbD i with
    | true => rw [Bool.and_true, hall i hmask]
    | false =>
      cases hvalue : r.value.getLsbD i with
      | false => exact Bool.and_false _
      | true => rw [h.value i hvalue] at hmask; cases hmask

theorem getLsbD_mask_fix (hn : n < 32) (r : Region) (on : Bool) (i : Nat) :
    (r.fix (BitVec.twoPow 32 n) on).mask.getLsbD i = (r.mask.getLsbD i || decide (n = i)) := by
  simp [Region.fix, hn]

theorem getLsbD_value_fix (hn : n < 32) (r : Region) (on : Bool) (i : Nat) :
    (r.fix (BitVec.twoPow 32 n) on).value.getLsbD i =
      (r.value.getLsbD i || on && decide (n = i)) := by
  cases on <;> simp [Region.fix, hn]

theorem FreeBelow.covers_fix (h : r.FreeBelow (n + 1)) (hn : n < 32) (on : Bool) (c : CodeValue) :
    (r.fix (BitVec.twoPow 32 n) on).covers c = true ↔
      r.covers c = true ∧ hits c (BitVec.twoPow 32 n) = on := by
  -- bit `n` is new to the region, so the old bits and the new one do not get into each other's way
  have hfree : r.mask.getLsbD n = false := h.mask n (Nat.lt_succ_self n)
  have hzero : r.value.getLsbD n = false := by
    rw [← Bool.not_eq_true]
    exact fun hset => absurd (h.value n hset) (by simp [hfree])
  rw [(h.fix on).covers_iff, h.covers_iff, hits_twoPow hn]
  simp only [getLsbD_mask_fix hn, getLsbD_value_fix hn, Bool.or_eq_true, decide_eq_true_iff]
  constructor
  · intro hall
    refine ⟨fun i hi => ?_, ?_⟩
    · have hne : n ≠ i := fun heq => by simp [← heq, hfree] at hi
      simpa [hne] using hall i (.inl hi)
    · simpa [hzero] using hall n (.inr rfl)
  · rintro ⟨hold, hnew⟩ i (hi | rfl)
    · have hne : n ≠ i := fun heq => by simp [← heq, hfree] at hi
      simpa [hne] using hold i hi
    · simpa [hzero] using hnew

theorem FreeBelow.value_and_mask (h : r.FreeBelow n) : r.value &&& r.mask = r.value := by
  apply BitVec.eq_of_getLsbD_eq
  intro i _
  rw [BitVec.getLsbD_and]
  cases hvalue : r.value.getLsbD i with
  | false => rfl
  | true => rw [h.value i hvalue]; rfl

/-- A test asks whether a value lies in the region. -/
theorem eval_test (h : r.value &&& r.mask = r.value) (equals : Bool) (c : CodeValue) :
    (r.test equals).eval c = (r.covers c == equals) := by
  rw [test, Predicate.eval, h, covers]

theorem FreeBelow.eval_test (h : r.FreeBelow n) (equals : Bool) (c : CodeValue) :
    (r.test equals).eval c = (r.covers c == equals) :=
  Region.eval_test h.value_and_mask equals c

end Region

namespace Subtree

variable {s x : Subtree} {r : Region} {j : Spine} {n : Nat} {c : CodeValue}

/-- Down a spine a region takes in the bits of the frames. -/
theorem along_free (hfit : (plug j x).Fits n) (hn : n ≤ 32) (hr : r.FreeBelow n) :
    ∃ m, m ≤ n ∧ x.Fits m ∧ (r.along j).FreeBelow m ∧
      ∀ c, (r.along j).covers c = true ↔ r.covers c = true ∧ Follows j c := by
  induction j generalizing x with
  | nil => exact ⟨n, Nat.le_refl n, hfit, hr, fun c => by simp [Region.along, Follows]⟩
  | cons f j ih =>
    obtain ⟨m, hm, hfill, hfree, hcovers⟩ := ih hfit
    obtain ⟨m, rfl⟩ := f.fits_fill_pos _ hfill
    obtain ⟨hbit, hx, -⟩ := (f.fits_fill x).mp hfill
    rw [Region.along_cons, hbit]
    refine ⟨m, by omega, hx, hfree.fix f.side, fun c => ?_⟩
    rw [hfree.covers_fix (by omega), hcovers, follows_cons, hbit, and_assoc,
      and_comm (a := Follows j c)]

/-- If the other answer is given beside every node of a spine, then an answer is given to what leads
to the end of the spine and is given it there. -/
theorem accepts_plug_beside {b : Bool} (hj : ∀ f ∈ j, f.other = leaf (!b)) :
    (plug j x).accepts c = b ↔ Follows j c ∧ x.accepts c = b := by
  induction j generalizing x with
  | nil => simp [plug, Follows]
  | cons f j ih =>
    rw [List.forall_mem_cons] at hj
    rw [plug, ih hj.2, Frame.accepts_fill, hj.1, follows_cons]
    by_cases hside : hits c f.bit = f.side
    · simp [hside]
    · simp [hside]

/-- A chain of only children accepts what leads to its end and is accepted there. -/
theorem accepts_plug_lone (hj : Lone j) :
    (plug j x).accepts c = true ↔ Follows j c ∧ x.accepts c = true :=
  accepts_plug_beside hj

theorem sameShape_accepts {s' : Subtree} (h : s.sameShape s' = true) (hs : s.Fits n)
    (hs' : s'.Fits n) : s.accepts c = s'.accepts c := by
  induction s generalizing s' n with
  | absent => cases s' <;> first | rfl | cases h
  | full => cases s' <;> first | rfl | cases h
  | node id bit off on ihOff ihOn =>
    cases s' with
    | absent => cases h
    | full => cases h
    | node id' bit' off' on' =>
      obtain ⟨m, rfl⟩ := hs.pos
      rw [sameShape, Bool.and_eq_true] at h
      rw [accepts, accepts, hs.1, hs'.1, ihOff h.1 hs.2.1 hs'.2.1, ihOn h.2 hs.2.2 hs'.2.2]

/-- A hole is the part of its region that the tree does not accept. -/
theorem covers_hole? {hole : Region} (h : s.hole? r = some hole) (hfit : s.Fits n) (hn : n ≤ 32)
    (hr : r.FreeBelow n) :
    hole.FreeBelow 0 ∧ ∀ c, hole.covers c = true ↔ r.covers c = true ∧ s.accepts c = false := by
  obtain ⟨j, rfl, hj, rfl⟩ := hole?_eq_some h
  obtain ⟨m, -, -, hfree, hcovers⟩ := along_free hfit hn hr
  refine ⟨hfree.mono (Nat.zero_le m), fun c => ?_⟩
  rw [hcovers, accepts_plug_beside (b := false) hj]
  simp [accepts]

/-! ## One step -/

/-- A test that deals with a tree accepts what the tree accepts. -/
theorem Steps.eval_done {test : Predicate} {log : List Event} (h : s.Steps r (.done test log))
    (hfit : s.Fits n) (hn : n ≤ 32) (hr : r.FreeBelow n) (hc : r.covers c = true) :
    test.eval c = s.accepts c := by
  cases h with
  | @empty _ j hj =>
    symm
    rw [Predicate.eval, ← Bool.not_eq_true, accepts_plug_lone hj]
    exact fun hacc => nomatch hacc.2
  | @chain _ j hj =>
    obtain ⟨m, -, -, hfree, hcovers⟩ := along_free hfit hn hr
    rw [Bool.eq_iff_iff, hfree.eval_test, accepts_plug_lone hj, beq_true, hcovers]
    simp [hc, accepts]
  | hole _ hhole =>
    obtain ⟨hfree, hcovers⟩ := covers_hole? hhole hfit hn hr
    rw [hfree.eval_test, Bool.eq_iff_iff, beq_false, Bool.not_eq_true', ← Bool.not_eq_true,
      hcovers]
    simp [hc]

/-- A region is tested first and its side is emptied. -/
theorem eval_or_fill {f : Frame} {q : Region} {p : Predicate} {i : Nat}
    (hfit : (f.fill x).Fits (n + 1)) (hn : n < 32) (hr : r.FreeBelow (n + 1)) (hq : q.FreeBelow i)
    (hcovers : ∀ c, q.covers c = true ↔
      (r.fix f.bit f.side).covers c = true ∧ x.accepts c = true)
    (hp : ∀ c, r.covers c = true → p.eval c = (f.fill absent).accepts c)
    (hc : r.covers c = true) : ((q.test true).or p).eval c = (f.fill x).accepts c := by
  have hbit := ((f.fits_fill x).mp hfit).1
  rw [Predicate.eval, hq.eval_test, beq_true, hp c hc, Frame.accepts_fill, Frame.accepts_fill,
    Bool.eq_iff_iff, Bool.or_eq_true, hcovers, hbit, hr.covers_fix hn]
  by_cases hside : hits c (BitVec.twoPow 32 n) = f.side
  · simp [hside, hc, accepts]
  · simp [hside]

/-- If what a step leaves is answered right, so is the tree, behind the tests of the step. -/
theorem Steps.eval_link {links : List Link} {log : List Event} {rest : Subtree} {r' : Region}
    (h : s.Steps r (.link links log rest r')) (hfit : s.Fits n) (hn : n ≤ 32)
    (hr : r.FreeBelow n) :
    ∃ m, m ≤ n ∧ rest.Fits m ∧ r'.FreeBelow m ∧ ∀ p : Predicate,
      (∀ c, r'.covers c = true → p.eval c = rest.accepts c) →
      ∀ c, r.covers c = true → (Link.joinAll links p).eval c = s.accepts c := by
  cases h with
  | @narrow _ j _ hj hne hforked =>
    obtain ⟨m, hm, hrest, hfree, hcovers⟩ := along_free hfit hn hr
    refine ⟨m, hm, hrest, hfree, fun p hp c hc => ?_⟩
    show (((r.along j).test true).and p).eval c = _
    rw [Predicate.eval, Bool.eq_iff_iff, Bool.and_eq_true, hfree.eval_test, beq_true, hcovers,
      accepts_plug_lone hj]
    by_cases hfollow : Follows j c
    · rw [hp c ((hcovers c).mpr ⟨hc, hfollow⟩)]
      simp [hc, hfollow]
    · simp [hfollow]
  | @twins _ id bit off on hforked hshape =>
    -- the region stays as it is: the dropped bit is never fixed
    obtain ⟨m, rfl⟩ := hfit.pos
    refine ⟨m, Nat.le_succ m, hfit.2.1, hr.mono (Nat.le_succ m), fun p hp c hc => ?_⟩
    show p.eval c = _
    rw [hp c hc, accepts, sameShape_accepts hshape hfit.2.2 hfit.2.1, ite_self]
  | @side _ f hother hhole =>
    obtain ⟨m, rfl⟩ := f.fits_fill_pos _ hfit
    obtain ⟨hbit, -, hotherFit⟩ := (f.fits_fill full).mp hfit
    have hfree : (r.fix f.bit f.side).FreeBelow m := hbit ▸ hr.fix f.side
    refine ⟨m + 1, Nat.le_refl _, (f.fits_fill absent).mpr ⟨hbit, fits_absent, hotherFit⟩, hr,
      fun p hp c hc => ?_⟩
    exact eval_or_fill hfit hn hr hfree (fun c => by simp [accepts]) hp hc
  | @region _ f x found hx hother hfound =>
    obtain ⟨m, rfl⟩ := f.fits_fill_pos _ hfit
    obtain ⟨hbit, hxFit, hotherFit⟩ := (f.fits_fill x).mp hfit
    have hfree : (r.fix f.bit f.side).FreeBelow m := hbit ▸ hr.fix f.side
    obtain ⟨g, j, rfl, hlone, rfl⟩ := found?_eq_some hfound
    obtain ⟨i, -, -, hfoundFree, hcovers⟩ := along_free hxFit (by omega) hfree
    refine ⟨m + 1, Nat.le_refl _, (f.fits_fill absent).mpr ⟨hbit, fits_absent, hotherFit⟩, hr,
      fun p hp c hc => ?_⟩
    refine eval_or_fill hfit hn hr hfoundFree (fun c => ?_) hp hc
    rw [hcovers, accepts_plug_lone hlone]
    simp [accepts]

/-! ## All steps -/

/-- On its region a planned predicate accepts what the tree accepts. -/
theorem eval_plan (hfit : s.Fits n) (hn : n ≤ 32) (hr : r.FreeBelow n) (hc : r.covers c = true) :
    (s.plan r).predicate.eval c = s.accepts c := by
  induction s, r using plan.induct generalizing n c with
  | case1 s r test log h =>
    rw [plan_of_done h]
    exact (steps_of_eq h).eval_done hfit hn hr hc
  | case2 s r links log rest r' h ih =>
    obtain ⟨m, hm, hrest, hfree, hmeaning⟩ := (steps_of_eq h).eval_link hfit hn hr
    rw [plan_of_link h]
    exact hmeaning _ (fun d hd => ih hrest (by omega) hfree hd) c hc
  | case3 s r bit off on h ihOn ihOff =>
    cases steps_of_eq h with
    | fork hoff hon hnoneOn hnoneOff =>
      obtain ⟨m, rfl⟩ := hfit.pos
      obtain ⟨rfl, hOff, hOn⟩ := hfit
      rw [plan_of_fork h, Plan.fork, Predicate.eval, accepts]
      split
      · rename_i hhit
        exact ihOn hOn (by omega) (hr.fix true) ((hr.covers_fix hn true c).mpr ⟨hc, hhit⟩)
      · rename_i hhit
        exact ihOff hOff (by omega) (hr.fix false)
          ((hr.covers_fix hn false c).mpr ⟨hc, Bool.not_eq_true _ ▸ hhit⟩)

/-- The plan for the tree of a whole trie. A root without nodes below is answered at once. -/
def whole (w : Width) (s : Subtree) : Plan :=
  if s = node 0 w.highBit absent absent then ⟨.constant false, 0, []⟩
  else if s = node 0 w.highBit full full then ⟨.constant true, 0, []⟩
  else s.plan .whole

/-- The predicate for a whole trie accepts what the trie accepts. -/
theorem Sound.eval_whole {w : Width} (h : Sound w s) (c : CodeValue) :
    (s.whole w).predicate.eval c = s.accepts c := by
  unfold whole
  split
  · rename_i hempty
    exact ((h.accepts_all_iff false).mpr hempty c).symm
  · split
    · rename_i hfull
      exact ((h.accepts_all_iff true).mpr hfull c).symm
    · exact eval_plan h.fits w.le_widest (Region.freeBelow_whole _) (Region.covers_whole c)

end Subtree

end BitClassifier
