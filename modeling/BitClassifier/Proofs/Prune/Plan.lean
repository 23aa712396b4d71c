import BitClassifier.Proofs.Subtree.Chain
import BitClassifier.Prune

/-!
# Plans

What pruning does to a tree, without the storage of a trie: `step` is the step that is taken at the
top of a tree, and `plan` takes steps until nothing is left. A step never depends on the numbers of
the nodes, and what it leaves weighs less than the tree it was taken in. `Steps` lists the steps in
the form in which they are reasoned about.
-/

namespace BitClassifier

/-- The region of a place below the place of `r`. -/
def Region.along (r : Region) (j : Spine) : Region :=
  j.foldr (fun f r => r.fix f.bit f.side) r

theorem Region.along_cons (r : Region) (f : Frame) (j : Spine) :
    r.along (f :: j) = (r.along j).fix f.bit f.side := rfl

theorem Region.along_append (r : Region) (j k : Spine) :
    r.along (j ++ k) = (r.along k).along j :=
  List.foldr_append

/-- What pruning a tree comes to. -/
structure Plan where
  predicate : Predicate
  comparisons : Nat
  events : List Event

/-- A plan behind tests that are made first. -/
def Plan.behind (p : Plan) (links : List Link) (log : List Event) : Plan :=
  ⟨Link.joinAll links p.predicate, links.length + p.comparisons, log ++ p.events⟩

/-- A jump to one of two plans. -/
def Plan.fork (bit : CodeValue) (on off : Plan) : Plan :=
  ⟨.cond bit on.predicate off.predicate, 1 + on.comparisons + off.comparisons,
    on.events ++ off.events⟩

namespace Subtree

/-- What a step at the top of a tree comes to. -/
inductive Step where
  /-- The tree is dealt with. -/
  | done (test : Predicate) (log : List Event)
  /-- Another tree is left. -/
  | link (links : List Link) (log : List Event) (rest : Subtree) (region : Region)
  /-- Both sides are left, behind a jump. -/
  | fork (bit : CodeValue) (off on : Subtree)

/-- The nodes and the accepting leaves of a tree. -/
def weight : Subtree → Nat
  | absent => 0
  | full => 1
  | node _ _ off on => 1 + off.weight + on.weight

/-- Whether two trees have nodes and leaves in the same places. -/
def sameShape : Subtree → Subtree → Bool
  | absent, absent => true
  | full, full => true
  | node _ _ off on, node _ _ off' on' => off.sameShape off' && on.sameShape on'
  | _, _ => false

/-- The accepted region at the end of the chain of only children at the top of a tree. -/
def found? (s : Subtree) (r : Region) : Option Found :=
  match s.core with
  | (f :: j, full) => some ⟨f.id, f.side, r.along (f :: j), j.length + 1⟩
  | _ => none

/-- The only region of a tree that is not accepted, if every node on the way to it has an accepting
leaf. -/
def hole? : Subtree → Region → Option Region
  | absent, r => some r
  | full, _ => none
  | node _ bit off on, r =>
    if on = full then off.hole? (r.fix bit false)
    else if off = full then on.hole? (r.fix bit true)
    else none

/-- The deeper one of two regions, with its side. -/
def deeper? : (on off : Option Found) → Option (Bool × Found)
  | some on, some off => some (if off.depth < on.depth then (true, on) else (false, off))
  | some on, none => some (true, on)
  | none, some off => some (false, off)
  | none, none => none

/-- A node with one side emptied. -/
def without (side : Bool) (id : Nat) (bit : CodeValue) (off on : Subtree) : Subtree :=
  if side then node id bit off absent else node id bit absent on

/-- The step that is taken at a fork. -/
def forkStep (r : Region) (id : Nat) (bit : CodeValue) (off on : Subtree) : Step :=
  if on.sameShape off then .link [] [.twinsMerged bit] off r
  else if on = full ∨ off = full then
    let side := decide (on = full)
    match (node id bit off on).hole? r with
    | some hole => .done (hole.test false) [.allButOne hole]
    | none => .link [.or ((r.fix bit side).test true)] [] (without side id bit off on) r
  else match deeper? (on.found? (r.fix bit true)) (off.found? (r.fix bit false)) with
    | some (side, found) =>
      .link [.or (found.region.test true)] [.branchPruned found.region]
        (without side id bit off on) r
    | none => .fork bit off on

/-- The step that is taken at the top of a tree. -/
def step (s : Subtree) (r : Region) : Step :=
  match s.core with
  | (_, absent) => .done (.constant false) []
  | (j, full) => .done ((r.along j).test true) [.chainAccepts (r.along j)]
  | ([], node id bit off on) => forkStep r id bit off on
  | (j, rest) =>
    .link [.and ((r.along j).test true)] [.chainNarrowed (r.along j)] rest (r.along j)

/-- The steps that can be taken. -/
inductive Steps : Subtree → Region → Step → Prop where
  | empty {r : Region} {j : Spine} : Lone j → Steps (plug j absent) r (.done (.constant false) [])
  | chain {r : Region} {j : Spine} : Lone j →
      Steps (plug j full) r (.done ((r.along j).test true) [.chainAccepts (r.along j)])
  | narrow {r : Region} {j : Spine} {rest : Subtree} : Lone j → j ≠ [] → rest.Forked →
      Steps (plug j rest) r
        (.link [.and ((r.along j).test true)] [.chainNarrowed (r.along j)] rest (r.along j))
  | twins {r : Region} {id : Nat} {bit : CodeValue} {off on : Subtree} :
      (node id bit off on).Forked → on.sameShape off = true →
      Steps (node id bit off on) r (.link [] [.twinsMerged bit] off r)
  | hole {r hole : Region} {f : Frame} : f.other.isNode → (f.fill full).hole? r = some hole →
      Steps (f.fill full) r (.done (hole.test false) [.allButOne hole])
  | side {r : Region} {f : Frame} : f.other.isNode → (f.fill full).hole? r = none →
      Steps (f.fill full) r (.link [.or ((r.fix f.bit f.side).test true)] [] (f.fill absent) r)
  | region {r : Region} {f : Frame} {x : Subtree} {found : Found} : x.isNode → f.other.isNode →
      x.found? (r.fix f.bit f.side) = some found →
      Steps (f.fill x) r
        (.link [.or (found.region.test true)] [.branchPruned found.region] (f.fill absent) r)
  | fork {r : Region} {id : Nat} {bit : CodeValue} {off on : Subtree} : off.isNode → on.isNode →
      on.found? (r.fix bit true) = none → off.found? (r.fix bit false) = none →
      Steps (node id bit off on) r (.fork bit off on)

variable {s : Subtree} {r : Region} {j : Spine} {found : Found}

theorem deeper?_eq_some {on off : Option Found} {side : Bool}
    (h : deeper? on off = some (side, found)) : (if side then on else off) = some found := by
  cases on <;> cases off <;> grind [deeper?]

theorem deeper?_eq_none {on off : Option Found} (h : deeper? on off = none) :
    on = none ∧ off = none := by
  cases on <;> cases off <;> simp_all [deeper?]

theorem found?_eq_some (h : s.found? r = some found) :
    ∃ g j, s = plug (g :: j) full ∧ Lone (g :: j) ∧
      found = ⟨g.id, g.side, r.along (g :: j), j.length + 1⟩ := by
  unfold found? at h
  split at h
  · rename_i g j hcore
    refine ⟨g, j, ?_, ?_, (Option.some.inj h).symm⟩
    · rw [← plug_core s, hcore]
    · have hlone := lone_core s
      rwa [hcore] at hlone
  · cases h

/-- A hole lies at the end of a spine with an accepting leaf beside every node. -/
theorem hole?_eq_some {hole : Region} (h : s.hole? r = some hole) :
    ∃ j, s = plug j absent ∧ (∀ f ∈ j, f.other = full) ∧ hole = r.along j := by
  induction s generalizing r with
  | absent => exact ⟨[], rfl, List.forall_mem_nil _, (Option.some.inj h).symm⟩
  | full => cases h
  | node id bit off on ihOff ihOn =>
    rw [hole?] at h
    split at h
    · rename_i hon
      obtain ⟨j, rfl, hj, rfl⟩ := ihOff h
      exact ⟨j ++ [⟨id, bit, false, on⟩], by rw [plug_append]; rfl,
        List.forall_mem_append.mpr ⟨hj, List.forall_mem_singleton.mpr hon⟩,
        by rw [r.along_append]; rfl⟩
    · split at h
      · rename_i hoff
        obtain ⟨j, rfl, hj, rfl⟩ := ihOn h
        exact ⟨j ++ [⟨id, bit, true, off⟩], by rw [plug_append]; rfl,
          List.forall_mem_append.mpr ⟨hj, List.forall_mem_singleton.mpr hoff⟩,
          by rw [r.along_append]; rfl⟩
      · cases h

theorem isNode_plug_cons (f : Frame) (j : Spine) (x : Subtree) :
    (plug (f :: j) x).isNode = true := by
  induction j generalizing f x with
  | nil => exact isNode_fill f x
  | cons g j ih => exact ih g (f.fill x)

theorem ne_nil_of_isNode_plug {x : Subtree} (hs : (plug j x).isNode) (hx : x.isNode = false) :
    j ≠ [] := by
  rintro rfl
  exact Bool.false_ne_true (hx.symm.trans hs)

theorem weight_fill (f : Frame) (x : Subtree) :
    (f.fill x).weight = 1 + x.weight + f.other.weight := by
  unfold Frame.fill
  split
  · rw [weight]
    omega
  · rfl

theorem weight_plug (j : Spine) (s : Subtree) : j.length + s.weight ≤ (plug j s).weight := by
  induction j generalizing s with
  | nil => simp [plug]
  | cons f j ih =>
    have hplug := ih (f.fill s)
    rw [weight_fill] at hplug
    rw [plug, List.length_cons]
    omega

theorem isNode_eq_of_sameShape {s' : Subtree} (h : s.sameShape s' = true) :
    s.isNode = s'.isNode := by
  cases s <;> cases s' <;> first | rfl | cases h

/-- Equal sides of a minimal fork are nodes. -/
theorem Minimal.isNode_twin {id : Nat} {bit : CodeValue} {off on : Subtree}
    (hmin : (Subtree.node id bit off on).Minimal) (hforked : (Subtree.node id bit off on).Forked)
    (hshape : on.sameShape off = true) : off.isNode := by
  refine isNode_of_ne hforked.1 ?_
  rintro rfl
  cases on <;> first | exact hmin.1 true ⟨rfl, rfl⟩ | cases hshape

/-- A fork of unequal sides has one accepting side or two nodes. -/
theorem Forked.cases {id : Nat} {bit : CodeValue} {off on : Subtree}
    (h : (node id bit off on).Forked) (hshape : on.sameShape off = false) :
    (∃ f : Frame, node id bit off on = f.fill full ∧ f.id = id ∧ f.other.isNode) ∨
      (off.isNode ∧ on.isNode) := by
  by_cases hon : on = full
  · subst hon
    have hoff : off.isNode := isNode_of_ne h.1 (by rintro rfl; cases hshape)
    exact .inl ⟨⟨id, bit, true, off⟩, rfl, rfl, hoff⟩
  · by_cases hoff : off = full
    · subst hoff
      exact .inl ⟨⟨id, bit, false, on⟩, rfl, rfl, isNode_of_ne h.2 hon⟩
    · exact .inr ⟨isNode_of_ne h.1 hoff, isNode_of_ne h.2 hon⟩

/-- A fork, seen from the side of the deeper region. -/
theorem exists_fill_found (id : Nat) {bit : CodeValue} {off on : Subtree} {side : Bool}
    (hoff : off.isNode) (hon : on.isNode)
    (h : deeper? (on.found? (r.fix bit true)) (off.found? (r.fix bit false)) =
      some (side, found)) :
    ∃ (f : Frame) (x : Subtree), node id bit off on = f.fill x ∧ x.isNode ∧ f.other.isNode ∧
      f.id = id ∧ without side id bit off on = f.fill absent ∧
      x.found? (r.fix f.bit f.side) = some found := by
  have hfound := deeper?_eq_some h
  cases side with
  | true => exact ⟨⟨id, bit, true, off⟩, on, rfl, hon, hoff, rfl, rfl, hfound⟩
  | false => exact ⟨⟨id, bit, false, on⟩, off, rfl, hoff, hon, rfl, rfl, hfound⟩

theorem step_of_same {id : Nat} {bit : CodeValue} {off on : Subtree}
    (h : (node id bit off on).Forked) (hshape : on.sameShape off = true) :
    (node id bit off on).step r = .link [] [.twinsMerged bit] off r := by
  rw [step, core_of_forked h]
  simp only [forkStep, hshape, if_true]

theorem step_fill_full {f : Frame} (hother : f.other.isNode) :
    (f.fill full).step r = match (f.fill full).hole? r with
      | some hole => .done (hole.test false) [.allButOne hole]
      | none => .link [.or ((r.fix f.bit f.side).test true)] [] (f.fill absent) r := by
  obtain ⟨id, bit, side, other⟩ := f
  obtain ⟨id', bit', off, on, rfl⟩ := isNode_iff.mp hother
  cases side <;> simp [step, core, Frame.fill, forkStep, sameShape, without]

theorem step_of_nodes {id : Nat} {bit : CodeValue} {off on : Subtree} (hoff : off.isNode)
    (hon : on.isNode) (hshape : on.sameShape off = false) :
    (node id bit off on).step r =
      match deeper? (on.found? (r.fix bit true)) (off.found? (r.fix bit false)) with
      | some (side, found) => .link [.or (found.region.test true)] [.branchPruned found.region]
          (without side id bit off on) r
      | none => .fork bit off on := by
  have hforked : (node id bit off on).Forked :=
    ⟨ne_leaf_of_isNode hoff false, ne_leaf_of_isNode hon false⟩
  have hfull : ¬(on = full ∨ off = full) := by
    rw [not_or]
    exact ⟨ne_leaf_of_isNode hon true, ne_leaf_of_isNode hoff true⟩
  rw [step, core_of_forked hforked]
  simp only [forkStep, hshape, Bool.false_eq_true, if_false, hfull]

theorem steps_of_forked {id : Nat} {bit : CodeValue} {off on : Subtree}
    (h : (node id bit off on).Forked) :
    (node id bit off on).Steps r ((node id bit off on).step r) := by
  cases hshape : on.sameShape off with
  | true =>
    rw [step_of_same h hshape]
    exact .twins h hshape
  | false =>
    rcases h.cases hshape with ⟨f, hfill, -, hother⟩ | ⟨hoff, hon⟩
    · rw [hfill, step_fill_full hother]
      cases hhole : (f.fill full).hole? r with
      | none => exact .side hother hhole
      | some hole => exact .hole hother hhole
    · rw [step_of_nodes hoff hon hshape]
      cases hdeeper : deeper? (on.found? (r.fix bit true)) (off.found? (r.fix bit false)) with
      | none =>
        obtain ⟨hnoneOn, hnoneOff⟩ := deeper?_eq_none hdeeper
        exact .fork hoff hon hnoneOn hnoneOff
      | some pair =>
        obtain ⟨f, x, hfill, hx, hother, -, hrest, hfound⟩ :=
          exists_fill_found id hoff hon hdeeper
        simp only [hfill, hrest]
        exact .region hx hother hfound

theorem steps_step (s : Subtree) (r : Region) : s.Steps r (s.step r) := by
  have hplug := plug_core s
  have hlone := lone_core s
  have hforked := forked_core s
  unfold step
  split
  · rename_i j hcore
    rw [hcore] at hplug hlone
    exact hplug ▸ .empty hlone
  · rename_i j hcore
    rw [hcore] at hplug hlone
    exact hplug ▸ .chain hlone
  · rename_i id bit off on hcore
    rw [hcore] at hplug hforked
    have hsteps := steps_of_forked (r := r) (hforked rfl)
    rw [step, core_of_forked (hforked rfl)] at hsteps
    exact hplug ▸ hsteps
  · rename_i j rest habsent hfull hnil hcore
    rw [hcore] at hplug hlone hforked
    have hrest : rest.isNode := isNode_of_ne habsent hfull
    refine hplug ▸ .narrow hlone ?_ (hforked hrest)
    -- without a chain the fork itself would have been the case above
    rintro rfl
    obtain ⟨id, bit, off, on, rfl⟩ := isNode_iff.mp hrest
    exact hnil id bit off on rfl rfl

theorem steps_of_eq {out : Step} (h : s.step r = out) : s.Steps r out :=
  h ▸ steps_step s r

/-- What a step leaves weighs less. -/
theorem Steps.weight_lt {links : List Link} {log : List Event} {rest : Subtree} {r' : Region}
    (h : s.Steps r (.link links log rest r')) : rest.weight < s.weight := by
  cases h with
  | @narrow _ j _ _ hne _ =>
    have hlength := List.length_pos_iff.mpr hne
    have hplug := weight_plug j rest
    omega
  | twins => rw [weight]; omega
  | side => rw [weight_fill, weight_fill, weight, weight]; omega
  | region _ _ hfound =>
    obtain ⟨g, j, rfl, -⟩ := found?_eq_some hfound
    have hplug := weight_plug (g :: j) full
    rw [weight_fill, weight_fill, weight]
    rw [weight] at hplug
    omega

theorem Steps.weight_lt_of_fork {bit : CodeValue} {off on : Subtree}
    (h : s.Steps r (.fork bit off on)) : off.weight < s.weight ∧ on.weight < s.weight := by
  cases h
  rw [weight]
  omega

/-- The plan that is made for a tree. -/
def plan (s : Subtree) (r : Region) : Plan :=
  match _h : s.step r with
  | .done test log => ⟨test, test.comparisons, log⟩
  | .link links log rest region => (rest.plan region).behind links log
  | .fork bit off on => .fork bit (on.plan (r.fix bit true)) (off.plan (r.fix bit false))
termination_by s.weight
decreasing_by
  · exact (steps_of_eq _h).weight_lt
  · exact (steps_of_eq _h).weight_lt_of_fork.2
  · exact (steps_of_eq _h).weight_lt_of_fork.1

theorem plan_of_done {test : Predicate} {log : List Event} (h : s.step r = .done test log) :
    s.plan r = ⟨test, test.comparisons, log⟩ := by
  rw [plan]
  split <;> simp_all

theorem plan_of_link {links : List Link} {log : List Event} {rest : Subtree} {r' : Region}
    (h : s.step r = .link links log rest r') : s.plan r = (rest.plan r').behind links log := by
  rw [plan]
  split <;> simp_all

theorem plan_of_fork {bit : CodeValue} {off on : Subtree} (h : s.step r = .fork bit off on) :
    s.plan r = .fork bit (on.plan (r.fix bit true)) (off.plan (r.fix bit false)) := by
  rw [plan]
  split <;> simp_all

end Subtree

end BitClassifier
