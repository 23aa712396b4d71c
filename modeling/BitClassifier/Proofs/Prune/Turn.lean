import BitClassifier.Proofs.Prune.Searches

/-!
# Turns

One turn of the pruner at a frontier, in a trie that represents a tree: `Turned` lists what a turn
can come to, in terms of the plan for the subtree of the frontier. A subtree that is dealt with is
emptied and its place climbed from, so that of the nodes above it only those with something else
below them stay; a subtree that is left is a minimal tree that weighs less.
-/

namespace BitClassifier

open Subtree Pruner

namespace Subtree

variable {f : Frame} {s x : Subtree} {k : Spine}

theorem bare_fill : (f.fill s).bare = node f.id f.bit absent absent := by
  unfold Frame.fill
  split <;> rfl

/-- A node, seen from its other side. -/
theorem fill_swap (f : Frame) (x : Subtree) :
    f.fill x = (⟨f.id, f.bit, !f.side, x⟩ : Frame).fill f.other := by
  obtain ⟨id, bit, side, other⟩ := f
  cases side <;> rfl

theorem map_deeper? (on off : Option Found) :
    (deeper? on off).map Prod.snd = Found.deeper? on off := by
  cases on <;> cases off <;> simp [deeper?, Found.deeper?]
  split <;> rfl

end Subtree

theorem Link.joinAll_append (links chain : List Link) (p : Predicate) :
    joinAll (links ++ chain) p = joinAll chain (joinAll links p) :=
  List.foldl_append

namespace Pruner

/-- A pruner with another trie, after more instructions and events. -/
def charge (p : Pruner) (t : Trie) (cost : Nat) (log : List Event) : Pruner :=
  ⟨t, p.comparisons + cost, p.events ++ log.toArray⟩

/-- A pruner with another trie, after a plan was carried out. -/
def spend (p : Pruner) (t : Trie) (plan : Plan) : Pruner :=
  p.charge t plan.comparisons plan.events

theorem charge_charge (p : Pruner) (t t' : Trie) (a b : Nat) (l l' : List Event) :
    (p.charge t a l).charge t' b l' = p.charge t' (a + b) (l ++ l') := by
  simp [charge, Nat.add_assoc]

theorem spend_behind (p : Pruner) (t t' : Trie) (plan : Plan) (links : List Link)
    (log : List Event) :
    (p.charge t links.length log).spend t' plan = p.spend t' (plan.behind links log) :=
  charge_charge p t t' _ _ _ _

theorem spend_fork (p : Pruner) (t t' : Trie) (bit : CodeValue) (on off : Plan) :
    (p.count.spend t on).spend t' off = p.spend t' (.fork bit on off) := by
  simp [spend, charge, count, Plan.fork, Nat.add_assoc]

theorem charge_zero (p : Pruner) : p.charge p.trie 0 [] = p := by
  simp [charge]

theorem count_report (p : Pruner) (e : Event) :
    (p.report e).count = p.charge p.trie 1 [e] := by
  simp [charge, count, report]

variable {p : Pruner} {w : Width} {k : Spine} {f : Frame} {s x : Subtree} {r : Region} {id : Nat}

theorem clear_eq (h : p.trie.Represents w (plug k (f.fill x))) :
    ∃ t', p.clear f.id f.side = pure { p with trie := t' } ∧
      t'.Represents w (climb false k (f.fill .absent)) := by
  obtain ⟨m, t', hrun, hrep⟩ := h.clear
  exact ⟨t', by rw [clear, hrun]; rfl, hrep⟩

/-! ## Chains of only children -/

/-- What folding a chain comes to at its end. -/
def foldEnd (p : Pruner) (frontier : Nat) (r : Region) : Spine × Subtree → Run (Base × Pruner)
  | (f :: j, .full) => do
    let p ← (p.report (.chainAccepts (r.along (f :: j)))).clear f.id f.side
    return (.resolved ((r.along (f :: j)).test true), p.count)
  | (j, .node id ..) =>
    if id = frontier then return (.unchanged, p)
    else return (.narrowed ((r.along j).test true) id (r.along j),
      (p.report (.chainNarrowed (r.along j))).count)
  | _ => return (.unchanged, p)

theorem foldEnd_node {frontier below : Nat} {j : Spine} {bit : CodeValue} {off on : Subtree} :
    p.foldEnd frontier r (j, .node below bit off on) =
      if below = frontier then pure (.unchanged, p)
      else pure (.narrowed ((r.along j).test true) below (r.along j),
        (p.report (.chainNarrowed (r.along j))).count) := by
  cases j <;> rfl

theorem foldEnd_concat {frontier : Nat} {c : Spine × Subtree} (hc : c.1 ≠ [] ∨ c.2 ≠ full) :
    p.foldEnd frontier (r.fix f.bit f.side) c = p.foldEnd frontier r (c.1 ++ [f], c.2) := by
  obtain ⟨l, e⟩ := c
  cases l <;> cases e <;> simp_all [foldEnd, Region.along]

theorem foldChain_eq (frontier : Nat) (h : p.trie.Shows w (plug k s)) (hs : s.slot = .child id)
    (hcore : s.core.2 ≠ absent) (r : Region) :
    p.foldChain frontier id r = p.foldEnd frontier r s.core := by
  have hnode := isNode_of_slot hs
  induction s, hnode using chain_induction generalizing k id r with
  | empty id' bit => exact absurd rfl hcore
  | lone f x hother hx ih =>
    obtain rfl : f.id = id := Slot.child.inj ((f.fill_slot x).symm.trans hs)
    have hslot : x.slot ≠ .absent := fun habsent => hx (slot_eq_absent.mp habsent)
    rw [core_fill hother hx] at hcore ⊢
    rw [foldChain, h.node, pure_bind, Frame.single?_node hother hslot, Frame.node_bit]
    cases x with
    | absent => exact absurd rfl hx
    | full => rfl
    | node id' bit off on =>
      rw [← foldEnd_concat (core_ne rfl)]
      exact ih rfl (k := f :: k) h rfl hcore _
  | fork s hnode hforked =>
    obtain ⟨bit, off, on, rfl⟩ := slot_eq_child.mp hs
    rw [foldChain, h.node_eq, pure_bind, Node.single?_of_forked (mt slot_eq_absent.mp hforked.2)
      (mt slot_eq_absent.mp hforked.1), core_of_forked hforked]
    rfl

/-- A chain to an accepting leaf is one test, and the subtree is emptied. -/
theorem pruneBase_of_full {j : Spine} (h : p.trie.Represents w (plug k s))
    (hs : s.slot = .child id) (hcore : s.core = (f :: j, full)) (r : Region) :
    ∃ t', p.pruneBase id r = pure (.resolved ((r.along (f :: j)).test true),
        p.charge t' 1 [.chainAccepts (r.along (f :: j))]) ∧
      t'.Represents w (climb false k s.bare) := by
  have hplug := plug_core s
  have hlone := lone_core s
  have hfold := foldChain_eq id h.shows hs (by simp [hcore]) r
  rw [hcore] at hplug hlone hfold
  rw [lone_cons] at hlone
  subst hplug
  have hplace : plug k (plug (f :: j) full) = plug (j ++ k) (f.fill full) :=
    (plug_append (f :: j) k full).symm
  obtain ⟨t', hclear, hrep⟩ :=
    clear_eq (p := p.report (.chainAccepts (r.along (f :: j)))) (hplace ▸ h)
  rw [fill_absent_eq_bare (s := full) hlone.1, climb_bare_append hlone.2 (by simp)] at hrep
  refine ⟨t', ?_, hrep⟩
  rw [pruneBase, hfold, foldEnd, hclear]
  simp [charge, count, report]

/-- At the end of a longer chain the numbers of the frontier and of the end differ. -/
theorem pruneBase_of_chain {j : Spine} {below : Nat} (h : p.trie.Represents w (plug k s))
    (hs : s.slot = .child id) (hcore : s.core = (j, x)) (hx : x.slot = .child below)
    (hj : j ≠ []) (r : Region) :
    p.pruneBase id r = pure (.narrowed ((r.along j).test true) below (r.along j),
      p.charge p.trie 1 [.chainNarrowed (r.along j)]) := by
  obtain ⟨bit, off, on, rfl⟩ := slot_eq_child.mp hx
  have hplug := plug_core s
  have hfold := foldChain_eq id h.shows hs (by simp [hcore]) r
  rw [hcore] at hplug hfold
  -- a node has one path, so the top of a chain is not its end
  have hne : below ≠ id := by
    rintro rfl
    have hpath := Trie.Shows.path_unique (k := j ++ k)
      (by rw [plug_append, hplug]; exact h.shows) h.shows hx hs
    have hlength := congrArg List.length hpath
    rw [length_path, length_path, List.length_append] at hlength
    exact hj (List.length_eq_zero_iff.mp (by omega))
  rw [pruneBase, hfold, foldEnd_node, if_neg hne, count_report]

theorem pruneBase_of_forked (h : p.trie.Represents w (plug k s)) (hs : s.slot = .child id)
    (hforked : s.Forked) (r : Region) : p.pruneBase id r = pure (.unchanged, p) := by
  have hcore := core_of_forked hforked
  obtain ⟨bit, off, on, rfl⟩ := slot_eq_child.mp hs
  rw [pruneBase, foldChain_eq id h.shows hs (by simp [hcore]), hcore, foldEnd_node, if_pos rfl]

/-! ## Forks -/

variable {bit : CodeValue} {off on : Subtree}

theorem sameSubtree_eq (h : p.trie.Shows w (plug k (.node id bit off on))) :
    p.trie.sameSubtree on.slot off.slot = pure (on.sameShape off) := by
  rw [Trie.sameSubtree, Trie.Shows.sameAll (k := ⟨id, bit, true, off⟩ :: k)
    (j := ⟨id, bit, false, on⟩ :: k) h h, Trie.sameAll]
  cases on.sameShape off <;> rfl

/-- The side with the bit is emptied if the other one is the same. -/
theorem mergeTwins_of_same (h : p.trie.Represents w (plug k (.node id bit off on)))
    (hoff : off.isNode) (hon : on.isNode) (hshape : on.sameShape off = true) :
    ∃ below t', off.slot = .child below ∧
      p.mergeTwins id = pure (some below, p.charge t' 0 [.twinsMerged bit]) ∧
      t'.Represents w (plug k (.node id bit off .absent)) := by
  have hsame := sameSubtree_eq h.shows
  obtain ⟨t', hclear, hrep⟩ :=
    clear_eq (p := p.report (.twinsMerged bit)) (f := ⟨id, bit, true, off⟩) (x := on) h
  rw [climb_fill_absent (ne_leaf_of_isNode hoff false)] at hrep
  obtain ⟨i, bit₀, off₀, on₀, rfl⟩ := isNode_iff.mp hoff
  obtain ⟨i', bit₁, off₁, on₁, rfl⟩ := isNode_iff.mp hon
  refine ⟨i, t', rfl, ?_, hrep⟩
  rw [hshape] at hsame
  rw [mergeTwins, h.shows.node_eq, pure_bind]
  simp only [slot_node] at hsame ⊢
  rw [hsame, pure_bind, if_pos rfl, hclear]
  simp [charge, report]

theorem mergeTwins_of_not_same (h : p.trie.Represents w (plug k (.node id bit off on)))
    (hshape : on.sameShape off = false) : p.mergeTwins id = pure (none, p) := by
  have hsame := sameSubtree_eq h.shows
  rw [hshape] at hsame
  rw [mergeTwins, h.shows.node_eq, pure_bind]
  cases on with
  | absent => rfl
  | full => rfl
  | node id₁ bit₁ off₁ on₁ =>
    cases off with
    | absent => rfl
    | full => rfl
    | node id₀ bit₀ off₀ on₀ =>
      simp only [slot_node] at hsame ⊢
      rw [hsame, pure_bind, if_neg Bool.false_ne_true]

/-- At an accepting side of a fork the other side is searched for a hole. -/
theorem pruneTop_of_full (h : p.trie.Represents w (plug k (f.fill .full)))
    (hother : f.other.isNode) :
    p.pruneTop f.id r = match (f.fill .full).hole? r with
      | some hole => do
        let p ← (p.report (.allButOne hole)).clear f.id !f.side
        let p ← p.clear f.id f.side
        return (.resolved (hole.test false), p.count)
      | none => do
        let p ← p.clear f.id f.side
        return (.pruned ((r.fix f.bit f.side).test true), p.count) := by
  have hslot : f.other.slot ≠ .full := mt slot_eq_full.mp (ne_leaf_of_isNode hother true)
  have hfull : (f.node .full (holder k)).on = .full ∨ (f.node .full (holder k)).off = .full := by
    unfold Frame.node
    split <;> simp
  have hside : decide ((f.node .full (holder k)).on = .full) = f.side := by
    unfold Frame.node
    cases hf : f.side <;> simp [hslot]
  have hnode := h.shows.node
  rw [slot_full] at hnode
  cases hhole : (f.fill .full).hole? r <;>
    simp only [pruneTop, hnode, pure_bind, if_pos hfull, hside,
      h.shows.findHole (f.fill_slot _), hhole, Frame.node_bit]

/-- A hole is tested, and both sides are emptied. -/
theorem pruneTop_of_hole {hole : Region} (h : p.trie.Represents w (plug k (f.fill .full)))
    (hother : f.other.isNode) (hhole : (f.fill .full).hole? r = some hole) :
    ∃ t', p.pruneTop f.id r = pure (.resolved (hole.test false), p.charge t' 1 [.allButOne hole]) ∧
      t'.Represents w (climb false k (f.fill .full).bare) := by
  -- `g` is the node seen from its other side, which is emptied first, and `e` is what is left then
  let g : Frame := ⟨f.id, f.bit, !f.side, .full⟩
  let e : Frame := ⟨f.id, f.bit, f.side, .absent⟩
  have hswap : f.fill .full = g.fill f.other := fill_swap f .full
  have hleft : g.fill .absent = e.fill .full := by
    rw [fill_swap g]
    simp [g, e]
  have hbare : e.fill .absent = (f.fill .full).bare := by
    rw [fill_absent_eq_bare (s := .full) rfl, bare_fill, bare_fill]
  obtain ⟨t₁, hfirst, h₁⟩ :=
    clear_eq (p := p.report (.allButOne hole)) (f := g) (x := f.other) (hswap ▸ h)
  rw [climb_fill_absent (by simp [g]), hleft] at h₁
  obtain ⟨t₂, hsecond, h₂⟩ := clear_eq (p := ⟨t₁, p.comparisons, p.events.push _⟩) h₁
  refine ⟨t₂, ?_, hbare ▸ h₂⟩
  rw [pruneTop_of_full h hother, hhole]
  simp only
  rw [hfirst, pure_bind]
  simp only [report]
  rw [hsecond]
  simp [charge, count]

/-- An accepting side without a hole on the other one is tested and emptied. -/
theorem pruneTop_of_side (h : p.trie.Represents w (plug k (f.fill .full)))
    (hother : f.other.isNode) (hhole : (f.fill .full).hole? r = none) :
    ∃ t', p.pruneTop f.id r =
        pure (.pruned ((r.fix f.bit f.side).test true), p.charge t' 1 []) ∧
      t'.Represents w (plug k (f.fill .absent)) := by
  obtain ⟨t', hclear, hrep⟩ := clear_eq h
  rw [climb_fill_absent (ne_leaf_of_isNode hother false)] at hrep
  refine ⟨t', ?_, hrep⟩
  rw [pruneTop_of_full h hother, hhole]
  simp only
  rw [hclear]
  simp [charge, count]

/-- At a fork of two nodes the accepted regions that hang on its sides are searched for. -/
theorem pruneTop_of_nodes (h : p.trie.Represents w (plug k (.node id bit off on)))
    (hoff : off.isNode) (hon : on.isNode) :
    p.pruneTop id r =
      match deeper? (on.found? (r.fix bit true)) (off.found? (r.fix bit false)) with
      | some (_, found) => do
        let p ← (p.report (.branchPruned found.region)).clear found.id found.side
        return (.pruned (found.region.test true), p.count)
      | none => return (.unchanged, p) := by
  have hnot : ¬(on.slot = .full ∨ off.slot = .full) := by
    rw [slot_eq_full, slot_eq_full, not_or]
    exact ⟨ne_leaf_of_isNode hon true, ne_leaf_of_isNode hoff true⟩
  rw [pruneTop, h.shows.node_eq, pure_bind, if_neg hnot,
    Trie.Shows.findRegion (k := ⟨id, bit, true, off⟩ :: k) h.shows hon, pure_bind,
    Trie.Shows.findRegion (k := ⟨id, bit, false, on⟩ :: k) h.shows hoff, pure_bind, ← map_deeper?]
  cases deeper? (on.found? (r.fix bit true)) (off.found? (r.fix bit false)) <;> rfl

/-- The accepting end of a chain on one side is emptied, and the chain goes away. -/
theorem clear_found {found : Found} (h : p.trie.Represents w (plug k (f.fill x)))
    (hother : f.other.isNode) (hfound : x.found? r = some found) :
    ∃ t', p.clear found.id found.side = pure { p with trie := t' } ∧
      t'.Represents w (plug k (f.fill .absent)) := by
  obtain ⟨g, j, rfl, hlone, rfl⟩ := found?_eq_some hfound
  rw [lone_cons] at hlone
  have hplace : plug k (f.fill (plug (g :: j) .full)) = plug (j ++ f :: k) (g.fill .full) := by
    rw [plug_append]
    rfl
  obtain ⟨t', hclear, hrep⟩ := clear_eq (hplace ▸ h)
  refine ⟨t', hclear, ?_⟩
  have hnode : (plug j (g.fill .full)).isNode := isNode_plug_cons g j .full
  rwa [fill_absent_eq_bare (s := .full) hlone.1, climb_bare_append hlone.2 (by simp),
    climb_bare_cons hnode, climb_fill_absent (ne_leaf_of_isNode hother false)] at hrep

/-- The deeper one of the regions that hang on the sides is tested, and its side is emptied. -/
theorem pruneTop_of_region {side : Bool} {found : Found}
    (h : p.trie.Represents w (plug k (.node id bit off on))) (hoff : off.isNode) (hon : on.isNode)
    (hdeeper : deeper? (on.found? (r.fix bit true)) (off.found? (r.fix bit false)) =
      some (side, found)) :
    ∃ t', p.pruneTop id r =
        pure (.pruned (found.region.test true), p.charge t' 1 [.branchPruned found.region]) ∧
      t'.Represents w (plug k (without side id bit off on)) := by
  obtain ⟨f, x, hfill, hx, hother, -, hrest, hfound⟩ :=
    exists_fill_found id hoff hon hdeeper
  obtain ⟨t', hrun, hrep⟩ :=
    clear_found (p := p.report (.branchPruned found.region)) (hfill ▸ h) hother hfound
  refine ⟨t', ?_, hrest ▸ hrep⟩
  rw [pruneTop_of_nodes h hoff hon, hdeeper]
  simp only
  rw [hrun]
  simp [charge, count, report]

/-! ## Turns -/

/-- What a turn at the tree `s` in the place `k` can come to, with `chain` as the tests that the
turn has made already. A tree that is left is in a place below, from where climbing comes to the
same as from `k`. -/
inductive Turned (w : Width) (k : Spine) (s : Subtree) (r : Region) (p : Pruner)
    (chain : List Link) : Turn × Pruner → Prop where
  | done {t' : Trie} : t'.Represents w (climb false k s.bare) →
      Turned w k s r p chain
        (.done (Link.joinAll chain (s.plan r).predicate), p.spend t' (s.plan r))
  | again {t' : Trie} {links : List Link} {log : List Event} {j : Spine} {rest : Subtree}
      {below : Nat} {r' : Region} :
      t'.Represents w (plug (j ++ k) rest) → rest.slot = .child below → rest.Minimal →
      rest.weight < s.weight → climb false (j ++ k) rest.bare = climb false k s.bare →
      s.plan r = (rest.plan r').behind links log →
      Turned w k s r p chain (.again (links ++ chain) below r', p.charge t' links.length log)
  | jump {t' : Trie} {links : List Link} {log : List Event} {j : Spine} {below : Nat}
      {bit : CodeValue} {off on : Subtree} {r' : Region} :
      t'.Represents w (plug (j ++ k) (.node below bit off on)) → off.isNode → on.isNode →
      (Subtree.node below bit off on).Minimal →
      (Subtree.node below bit off on).weight ≤ s.weight →
      climb false (j ++ k) (Subtree.node below bit off on).bare = climb false k s.bare →
      s.plan r = (Plan.fork bit (on.plan (r'.fix bit true)) (off.plan (r'.fix bit false))).behind
        links log →
      Turned w k s r p chain (.jump (links ++ chain) below r', p.charge t' links.length log)

theorem plan_behind_nil (q : Plan) : q.behind [] [] = q := by
  simp [Plan.behind, Link.joinAll]

theorem plan_behind_behind (q : Plan) (links chain : List Link) (log log' : List Event) :
    (q.behind links log).behind chain log' = q.behind (links ++ chain) (log' ++ log) := by
  simp [Plan.behind, Link.joinAll_append, Nat.add_assoc, Nat.add_comm]

/-- A side that was tested is left empty. -/
theorem turned_fill_absent {t' : Trie} {chain : List Link} {l : Link} {log : List Event}
    (hrep : t'.Represents w (plug k (f.fill .absent))) (hother : f.other.isNode)
    (hmin : (f.fill x).Minimal)
    (hstep : (f.fill x).step r = .link [l] log (f.fill .absent) r) :
    Turned w k (f.fill x) r p chain (.again (l :: chain) f.id r, p.charge t' 1 log) := by
  have hrest : (f.fill .absent).Minimal :=
    minimal_fill.mpr ⟨fun b hb => ne_leaf_of_isNode hother b hb.2, trivial,
      (minimal_fill.mp hmin).2.2⟩
  have hbare : (f.fill .absent).bare = (f.fill x).bare := by rw [bare_fill, bare_fill]
  exact Turned.again (j := []) hrep (f.fill_slot _) hrest (steps_of_eq hstep).weight_lt
    (congrArg (climb false k) hbare) (plan_of_link hstep)

/-- At a fork of equal sides, the turn goes on with the side without the bit. -/
theorem reduce_of_same (h : p.trie.Represents w (plug k (.node id bit off on)))
    (hmin : (Subtree.node id bit off on).Minimal) (hforked : (Subtree.node id bit off on).Forked)
    (hshape : on.sameShape off = true) (chain : List Link) (r : Region) :
    ∃ out, p.reduce chain id r = pure out ∧ Turned w k (.node id bit off on) r p chain out := by
  have hoff : off.isNode := hmin.isNode_twin hforked hshape
  have hon : on.isNode := isNode_eq_of_sameShape hshape ▸ hoff
  obtain ⟨below, t', hslot, hmerge, hrep⟩ := mergeTwins_of_same h hoff hon hshape
  have hstep := step_of_same (r := r) hforked hshape
  have hbare := climb_bare_append (j := [⟨id, bit, false, .absent⟩]) (k := k)
    (lone_cons.mpr ⟨rfl, lone_nil⟩) hoff
  rw [Pruner.reduce, hmerge, pure_bind]
  exact ⟨_, rfl, .again (j := [_]) hrep hslot hmin.2.1 (steps_of_eq hstep).weight_lt hbare
    (plan_of_link hstep)⟩

/-- At a fork with an accepting side, the turn deals with the tree or leaves the other side. -/
theorem reduce_of_full (h : p.trie.Represents w (plug k (f.fill .full)))
    (hmin : (f.fill .full).Minimal) (hother : f.other.isNode) (chain : List Link) (r : Region)
    (hmerge : p.mergeTwins f.id = pure (none, p)) :
    ∃ out, p.reduce chain f.id r = pure out ∧ Turned w k (f.fill .full) r p chain out := by
  have hstep := step_fill_full (r := r) hother
  rw [Pruner.reduce, hmerge, pure_bind]
  dsimp only
  cases hhole : (f.fill .full).hole? r with
  | some hole =>
    rw [hhole] at hstep
    obtain ⟨t', hrun, hrep⟩ := pruneTop_of_hole h hother hhole
    have hdone : Turned w k (f.fill .full) r p chain _ := .done hrep
    rw [plan_of_done hstep] at hdone
    exact ⟨_, by rw [hrun]; rfl, hdone⟩
  | none =>
    rw [hhole] at hstep
    obtain ⟨t', hrun, hrep⟩ := pruneTop_of_side h hother hhole
    exact ⟨_, by rw [hrun]; rfl, turned_fill_absent hrep hother hmin hstep⟩

/-- At a fork of two nodes, the turn tests a region on one of the sides or asks for a jump. -/
theorem reduce_of_nodes (h : p.trie.Represents w (plug k (.node id bit off on)))
    (hmin : (Subtree.node id bit off on).Minimal) (hoff : off.isNode) (hon : on.isNode)
    (hshape : on.sameShape off = false) (chain : List Link) (r : Region) :
    ∃ out, p.reduce chain id r = pure out ∧ Turned w k (.node id bit off on) r p chain out := by
  have hstep : (Subtree.node id bit off on).step r = _ := step_of_nodes hoff hon hshape
  rw [Pruner.reduce, mergeTwins_of_not_same h hshape, pure_bind]
  dsimp only
  cases hdeeper : deeper? (on.found? (r.fix bit true)) (off.found? (r.fix bit false)) with
  | some pair =>
    obtain ⟨side, found⟩ := pair
    obtain ⟨t', hrun, hrep⟩ := pruneTop_of_region h hoff hon hdeeper
    obtain ⟨f, x, hfill, hx, hother, rfl, hrest, hfound⟩ := exists_fill_found id hoff hon hdeeper
    simp only [hdeeper, hrest] at hstep
    rw [hrest] at hrep
    rw [hfill] at hstep hmin ⊢
    exact ⟨_, by rw [hrun]; rfl, turned_fill_absent hrep hother hmin hstep⟩
  | none =>
    rw [hdeeper] at hstep
    have hplan := (plan_of_fork hstep).trans (plan_behind_nil _).symm
    have hjump : Turned w k (Subtree.node id bit off on) r p chain _ :=
      .jump (j := []) h hoff hon hmin (Nat.le_refl _) rfl hplan
    rw [List.length_nil, charge_zero] at hjump
    exact ⟨_, by rw [pruneTop_of_nodes h hoff hon, hdeeper]; rfl, hjump⟩

/-- The steps of a turn at a fork. -/
theorem reduce_turned (h : p.trie.Represents w (plug k s)) (hs : s.slot = .child id)
    (hmin : s.Minimal) (hforked : s.Forked) (chain : List Link) (r : Region) :
    ∃ out, p.reduce chain id r = pure out ∧ Turned w k s r p chain out := by
  obtain ⟨bit, off, on, rfl⟩ := slot_eq_child.mp hs
  cases hshape : on.sameShape off with
  | true => exact reduce_of_same h hmin hforked hshape chain r
  | false =>
    rcases hforked.cases hshape with ⟨f, hfill, rfl, hother⟩ | ⟨hoff, hon⟩
    · have hmerge := mergeTwins_of_not_same h hshape
      rw [hfill] at h hmin ⊢
      exact reduce_of_full h hmin hother chain r hmerge
    · exact reduce_of_nodes h hmin hoff hon hshape chain r

/-- A turn at the end of a chain is a turn at its top, behind the test for the chain. -/
theorem Turned.narrowed {j : Spine} {r' : Region} {l : Link} {log : List Event}
    {out : Turn × Pruner} (hj : Lone j) (hx : x.isNode) (hs : plug j x = s)
    (hstep : s.step r = .link [l] log x r')
    (h : Turned w (j ++ k) x r' (p.charge p.trie 1 log) [l] out) : Turned w k s r p [] out := by
  have hclimb : climb false (j ++ k) x.bare = climb false k s.bare := hs ▸ climb_bare_append hj hx
  have hplan := plan_of_link hstep
  have hlt := (steps_of_eq hstep).weight_lt
  cases h with
  | done hrep =>
    have hdone : Turned w k s r p [] _ := .done (hclimb ▸ hrep)
    rw [hplan, ← spend_behind] at hdone
    exact hdone
  | @again t' links log' i rest below r'' hrep hslot hmin hweight hclimb' hplan' =>
    have hplan'' : s.plan r = (rest.plan r'').behind (links ++ [l]) (log ++ log') := by
      rw [hplan, hplan', plan_behind_behind]
    have hagain : Turned w k s r p [] _ := .again (j := i ++ j)
      (by rwa [List.append_assoc]) hslot hmin (hweight.trans hlt)
      (by rw [List.append_assoc, hclimb', hclimb]) hplan''
    rw [charge_charge, Nat.add_comm]
    rwa [List.append_nil, List.length_append] at hagain
  | @jump t' links log' i below bit off on r'' hrep hoff hon hmin hweight hclimb' hplan' =>
    have hplan'' : s.plan r = (Plan.fork bit (on.plan (r''.fix bit true))
        (off.plan (r''.fix bit false))).behind (links ++ [l]) (log ++ log') := by
      rw [hplan, hplan', plan_behind_behind]
    have hjump : Turned w k s r p [] _ := .jump (j := i ++ j)
      (by rwa [List.append_assoc]) hoff hon hmin (hweight.trans (Nat.le_of_lt hlt))
      (by rw [List.append_assoc, hclimb', hclimb]) hplan''
    rw [charge_charge, Nat.add_comm]
    rwa [List.append_nil, List.length_append] at hjump

/-- A turn deals with the subtree of the frontier, leaves a smaller one, or asks for a jump. -/
theorem turn_turned (h : p.trie.Represents w (plug k s)) (hs : s.slot = .child id)
    (hmin : s.Minimal) (r : Region) :
    ∃ out, p.turn id r = pure out ∧ Turned w k s r p [] out := by
  have hnode := isNode_of_slot hs
  have hplug := plug_core s
  have hlone := lone_core s
  have hne := core_ne hnode
  have hend := hmin.core_cases (ne_leaf_of_isNode hnode false)
  generalize hcore : s.core = c at hplug hlone hne hend
  obtain ⟨j, x⟩ := c
  rcases hend with rfl | ⟨hforked, hxMin⟩
  · obtain ⟨f, j, rfl⟩ := List.exists_cons_of_ne_nil (hne.resolve_right (fun hfull => hfull rfl))
    obtain ⟨t', hrun, hrep⟩ := pruneBase_of_full h hs hcore r
    have hstep : s.step r = .done ((r.along (f :: j)).test true)
        [.chainAccepts (r.along (f :: j))] := by
      rw [step, hcore]
    have hdone : Turned w k s r p [] _ := .done hrep
    rw [plan_of_done hstep] at hdone
    exact ⟨_, by rw [turn, hrun]; rfl, hdone⟩
  · cases j with
    | nil =>
      obtain rfl : x = s := hplug
      rw [turn, pruneBase_of_forked h hs hforked, pure_bind]
      exact reduce_turned h hs hmin hforked [] r
    | cons f j =>
      obtain ⟨below, bit, off, on, rfl⟩ : ∃ below bit off on, x = .node below bit off on := by
        cases x <;> first | exact hforked.elim | exact ⟨_, _, _, _, rfl⟩
      have hstep : s.step r = .link [.and ((r.along (f :: j)).test true)]
          [.chainNarrowed (r.along (f :: j))] (.node below bit off on) (r.along (f :: j)) := by
        rw [step, hcore]
      have hrep : p.trie.Represents w (plug (f :: j ++ k) (.node below bit off on)) := by
        rw [plug_append, hplug]
        exact h
      rw [turn, pruneBase_of_chain h hs hcore rfl (List.cons_ne_nil f j), pure_bind]
      obtain ⟨out, hrun, hturned⟩ := reduce_turned (p := p.charge p.trie 1 [_]) hrep rfl hxMin
        hforked [.and ((r.along (f :: j)).test true)] (r.along (f :: j))
      exact ⟨out, hrun, hturned.narrowed hlone rfl hplug hstep⟩

end Pruner

end BitClassifier
