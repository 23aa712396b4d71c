import BitClassifier.Proofs.Trie.Removal

/-!
# The numbers of nodes

A run of operations hands out numbers: an insertion gives one to each new node, from the root
downwards, and a clearing gives none. `Leads` keeps the list of the numbers that a run has handed
out. They are given in order and once only, and a number stands for one place as long as its node
stays (`Leads.numbers_stable`).
-/

namespace BitClassifier

open Subtree

namespace Subtree

/-- The numbers of the nodes on the way of a value, from the top downwards. -/
def route (v : CodeValue) : Subtree → List Nat
  | absent => []
  | full => []
  | node id bit off on => id :: if hits v bit then on.route v else off.route v

variable {k : Spine} {f : Frame} {s : Subtree} {v : CodeValue} {id n : Nat}

theorem route_node (v : CodeValue) (id : Nat) (bit : CodeValue) (off on : Subtree) :
    (node id bit off on).route v = id :: (pick (hits v bit) off on).route v := by
  rw [route, pick]
  split <;> rfl

theorem route_fill (hside : hits v f.bit = f.side) : (f.fill s).route v = f.id :: s.route v := by
  unfold Frame.fill
  cases hf : f.side <;> simp [route, hside, hf]

theorem route_plug (h : Follows k v) :
    (plug k s).route v = (k.map Frame.id).reverse ++ s.route v := by
  induction k generalizing s with
  | nil => rfl
  | cons f k ih =>
    rw [follows_cons] at h
    rw [plug, ih h.2, route_fill h.1, List.map_cons, List.reverse_cons, List.append_assoc]
    rfl

theorem mem_numbers_of_mem_route (h : id ∈ s.route v) : id ∈ s.numbers := by
  induction s with
  | absent => cases h
  | full => cases h
  | node root bit off on ihOff ihOn =>
    rw [route_node, List.mem_cons] at h
    rw [numbers, Multiset.mem_cons, Multiset.mem_add]
    rcases h with rfl | hbelow
    · exact .inl rfl
    · cases hhits : hits v bit with
      | false => exact .inr (.inl (ihOff (by rwa [hhits] at hbelow)))
      | true => exact .inr (.inr (ihOn (by rwa [hhits] at hbelow)))

theorem route_sprout (v : CodeValue) (n id : Nat) :
    (sprout v n id).route v = List.range' id n := by
  induction n generalizing id with
  | zero => rfl
  | succ n ih => rw [sprout, route_fill rfl, ih, List.range'_succ]

theorem le_of_mem_numbers_sprout {i : Nat} (h : i ∈ (sprout v n id).numbers) : id ≤ i := by
  induction n generalizing id with
  | zero => exact absurd h (Multiset.notMem_zero i)
  | succ n ih =>
    rw [sprout, numbers_fill, Multiset.mem_cons, Multiset.mem_add] at h
    rcases h with rfl | hbelow | hother
    · exact Nat.le_refl _
    · exact Nat.le_of_succ_le (ih hbelow)
    · exact absurd hother (Multiset.notMem_zero i)

/-- Completing the way of a value and climbing exchanges what hangs in one place for nodes on the
way of the value. -/
theorem exists_exchange_sprout (h : Follows (f :: k) v) (n id : Nat) :
    ∃ l g x y, plug k (f.fill absent) = plug l (g.fill x) ∧
      climb true k (f.fill (sprout v n id)) = plug l (g.fill y) ∧ Follows (g :: l) v ∧
      y.route v = List.range' id n ∧ ∀ i ∈ y.numbers, id ≤ i := by
  cases n with
  | zero =>
    obtain ⟨j, g, l, hsplit, -, hclimb⟩ := exists_climb_stop true f k
    refine ⟨l, g, plug j absent, full, ?_, hclimb, ?_, rfl, fun i hi => ?_⟩
    · show plug (f :: k) absent = plug (g :: l) (plug j absent)
      rw [hsplit, plug_append]
    · rw [hsplit] at h
      exact fun e he => h e (List.mem_append_right j he)
    · exact absurd hi (Multiset.notMem_zero i)
  | succ n =>
    have hnode : (sprout v (n + 1) id).isNode = true := isNode_fill _ _
    refine ⟨k, f, absent, sprout v (n + 1) id, rfl, ?_, h, route_sprout v _ id, fun i hi => ?_⟩
    · exact climb_eq_plug (isNode_fill f _) (shrink_fill_of_ne (ne_leaf_of_isNode hnode true))
    · exact le_of_mem_numbers_sprout hi

end Subtree

namespace Trie

/-- The numbers of the nodes on the way to a value that are new, from the root downwards. -/
def handedOut (t t' : Trie) (v : CodeValue) : List Nat :=
  ((digits t.width.bits v).inits.filterMap t'.idAt?).filter fun id => ¬t.Live id

/-- A run of operations leads from one trie to another and hands out these numbers. -/
inductive Leads (w : Width) (t : Trie) : List Nat → Trie → Prop where
  | refl : Leads w t [] t
  | insert {t₁ t₂ : Trie} {l : List Nat} {v : CodeValue} {new : Bool} : Leads w t l t₁ →
      w.contains v = true → t₁.insert v = pure (new, t₂) →
      Leads w t (l ++ t₁.handedOut t₂ v) t₂
  | clear {t₁ t₂ : Trie} {l : List Nat} {id n : Nat} {side : Bool} : Leads w t l t₁ →
      t₁.Live id → t₁.clear id side = pure (n, t₂) → Leads w t l t₂

variable {t t' : Trie} {w : Width} {k : Spine} {f : Frame} {s x : Subtree} {id n : Nat}
  {v : CodeValue} {new : Bool} {l l' : List Nat}

/-- The walks along the way of a value lead to the nodes there. -/
theorem Shows.walks_eq (h : t.Shows w (plug k s)) (hs : s.slot = .child id) (hfit : s.Fits n)
    (hn : n ≤ 32) : (digits n v).inits.filterMap (t.walk? id) = s.route v := by
  induction n generalizing k s id with
  | zero =>
    obtain ⟨bit, off, on, rfl⟩ := slot_eq_child.mp hs
    exact hfit.elim
  | succ n ih =>
    obtain ⟨bit, off, on, rfl⟩ := slot_eq_child.mp hs
    obtain ⟨rfl, hOff, hOn⟩ := hfit
    have hnil : t.walk? id [] = some id := by rw [walk?, h.cell?_eq, Option.map_some]
    have hcons (p : List Bool) := h.walk?_cons (v.getLsbD n) p
    rw [digits, List.inits_cons, List.filterMap_cons_some hnil, List.filterMap_map, route_node,
      hits_twoPow hn]
    congr 1
    -- the walks go on from the node on the side of the value, if there is one
    rw [← fill_pick id (BitVec.twoPow 32 n) (v.getLsbD n) off on] at h
    have hside : (pick (v.getLsbD n) off on).Fits n := by
      cases v.getLsbD n
      · exact hOff
      · exact hOn
    cases hpick : pick (v.getLsbD n) off on with
    | absent => simp [Function.comp_def, hcons, hpick, route]
    | full => simp [Function.comp_def, hcons, hpick, route]
    | node next bit' off' on' =>
      rw [hpick] at h hside
      simp only [Function.comp_def, hcons, hpick, slot_node]
      exact ih (k := _ :: k) h rfl hside (Nat.le_of_lt hn)

theorem Represents.handedOut_eq (h' : t'.Represents w s) (hwidth : t.width = w) (v : CodeValue) :
    t.handedOut t' v = (s.route v).filter fun id => ¬t.Live id := by
  obtain ⟨off, on, rfl⟩ := label_eq_some.mp h'.shows.root
  have hwalks := Shows.walks_eq (k := []) (v := v) h'.shows rfl h'.sound.fits w.le_widest
  rw [handedOut, hwidth, ← hwalks]
  rfl

/-- If nodes are exchanged for new ones on the way of a value, these are handed out: the nodes above
the place are old. -/
theorem Shows.handedOut_exchanged {y : Subtree} (h : t.Shows w (plug k (f.fill x)))
    (h' : t'.Represents w (plug k (f.fill y))) (hfollow : Follows (f :: k) v)
    (hroute : y.route v = List.range' t.nodes.size n) :
    t.handedOut t' v = List.range' t.nodes.size n := by
  have hold : ∀ id ∈ ((f :: k).map Frame.id).reverse, ¬decide (¬t.Live id) = true := by
    intro id hid
    obtain ⟨e, he, rfl⟩ := List.mem_map.mp (List.mem_reverse.mp hid)
    have hlive : t.Live e.id := (h.live_iff_mem e.id).mpr
      (mem_numbers_plug (j := f :: k).mpr (.inr ⟨e, he, .inl rfl⟩))
    simpa using hlive
  have hnew : ∀ id ∈ List.range' t.nodes.size n, decide (¬t.Live id) = true := by
    intro id hid
    rw [decide_eq_true_iff]
    exact fun hlive => Nat.not_lt.mpr (List.left_le_of_mem_range' hid) hlive.lt_size
  calc t.handedOut t' v
      = ((plug (f :: k) y).route v).filter fun id => ¬t.Live id :=
        h'.handedOut_eq h.holds.width v
    _ = (((f :: k).map Frame.id).reverse ++ List.range' t.nodes.size n).filter
          fun id => ¬t.Live id := by rw [route_plug hfollow, hroute]
    _ = List.range' t.nodes.size n := by
      rw [List.filter_append, List.filter_eq_nil_iff.mpr hold, List.filter_eq_self.mpr hnew,
        List.nil_append]

/-- Clearing keeps the meaning of numbers. -/
theorem Represents.clear_steady (h : t.Represents w (plug k (f.fill x))) :
    ∃ m t' s', t.clear f.id f.side = pure (m, t') ∧ t'.Represents w s' ∧ Steady t t' := by
  obtain ⟨m, t', j, g, l, hrun, -, -, -, -, hshows, h'⟩ := h.clear_place
  exact ⟨m, t', _, hrun, h', hshows.exchanged_steady h'.shows
    fun _ hnone => absurd hnone (Multiset.notMem_zero _)⟩

/-- An insertion keeps the meaning of numbers and hands out the next ones. -/
theorem Represents.insert_steady (h : t.Represents w s) (hv : w.contains v = true) :
    ∃ new t' s' n, t.insert v = pure (new, t') ∧ t'.Represents w s' ∧ Steady t t' ∧
      t'.nodes.size = t.nodes.size + n ∧ t.handedOut t' v = List.range' t.nodes.size n := by
  cases hacc : s.accepts v with
  | true =>
    refine ⟨false, t, s, 0, h.insert_known hv hacc, h, .refl t, rfl, ?_⟩
    rw [h.handedOut_eq h.shows.holds.width, List.range'_zero, List.filter_eq_nil_iff]
    intro id hid
    have hlive : t.Live id := (h.shows.live_iff_mem id).mpr (mem_numbers_of_mem_route hid)
    simpa using hlive
  | false =>
    obtain ⟨t', k, f, n, rfl, habove, hfollow, hrun, h', hsize⟩ := h.insert_new hv hacc
    obtain ⟨l, g, x, y, hplace, hclimb, hfollow', hroute, hfresh⟩ :=
      exists_exchange_sprout hfollow n t.nodes.size
    have hshows : t.Shows w (plug l (g.fill x)) := hplace ▸ h.shows
    rw [hclimb] at h'
    exact ⟨true, t', _, n, hrun, h', hshows.exchanged_steady h'.shows hfresh, hsize,
      hshows.handedOut_exchanged h' hfollow' hroute⟩

/-- What a run keeps: the tries represent trees, the numbers are handed out in order, one for each
new entry, and keep their meaning. -/
theorem Leads.steady (h : Leads w t l t') (hrep : t.Represents w s) :
    (∃ s', t'.Represents w s') ∧ l = List.range' t.nodes.size l.length ∧
      t'.nodes.size = t.nodes.size + l.length ∧ Steady t t' := by
  induction h with
  | refl => exact ⟨⟨s, hrep⟩, rfl, rfl, .refl t⟩
  | @insert t₁ t₂ l v new _ hv hrun ih =>
    obtain ⟨⟨s₁, h₁⟩, hl, hsize, hsteady⟩ := ih
    obtain ⟨new', t', s₂, n, hrun', h₂, hsteady₂, hsize₂, hout⟩ := h₁.insert_steady hv
    obtain ⟨-, rfl⟩ := Run.pure_mk_inj.mp (hrun'.symm.trans hrun)
    have hlen : (l ++ t₁.handedOut t' v).length = l.length + n := by
      rw [List.length_append, hout, List.length_range']
    refine ⟨⟨s₂, h₂⟩, ?_, by omega, hsteady.trans hsteady₂ (by omega)⟩
    rw [hlen, hout, hsize, ← List.range'_append_1, ← hl]
  | @clear t₁ t₂ l id n side _ hlive hrun ih =>
    obtain ⟨⟨s₁, h₁⟩, hl, hsize, hsteady⟩ := ih
    obtain ⟨k, f, x, rfl, rfl, rfl⟩ := h₁.shows.exists_place_of_live hlive side
    obtain ⟨m, t', s₂, hrun', h₂, hsteady₂⟩ := h₁.clear_steady
    obtain ⟨rfl, rfl⟩ := Run.pure_mk_inj.mp (hrun'.symm.trans hrun)
    exact ⟨⟨s₂, h₂⟩, hl, by rw [clear_size hrun, hsize], hsteady.trans hsteady₂ (by omega)⟩

/-- Every operation that is given the number fails. -/
structure Refused (t : Trie) (id : Nat) : Prop where
  node : t.node id = throw (.notLive id)
  clear : ∀ side, t.clear id side = throw (.notLive id)
  sameSubtree_left : ∀ other, t.sameSubtree (.child id) (.child other) = throw (.notLive id)
  sameSubtree_right : ∀ other, t.Live other →
    t.sameSubtree (.child other) (.child id) = throw (.notLive id)

theorem refused_of_not_live (h : ¬t.Live id) : t.Refused id := by
  have hnode : t.node id = throw (.notLive id) := by
    rw [Trie.node, Option.not_isSome_iff_eq_none.mp h]
  refine ⟨hnode, fun side => ?_, fun other => ?_, fun other hother => ?_⟩
  · rw [Trie.clear, hnode]
    rfl
  · rw [sameSubtree, sameAll, hnode]
    rfl
  · obtain ⟨n, hcell⟩ := Option.isSome_iff_exists.mp hother
    rw [sameSubtree, sameAll, Trie.node, hcell, hnode]
    rfl

/-- Over any run, the numbers 1, 2, 3, ... are handed out in this order, one for each new entry, and
every node below the root has one of them. As long as its node stays, a number stands for one path
and one bit. Once its node is gone, it names no node ever again, and whatever is asked of it later
is refused. Less than `2 ^ 32` numbers fit into words of 32 bits. -/
theorem Leads.numbers_stable (h : Leads w (Trie.empty w) l t) (h' : Leads w t l' t') :
    (l ++ l' = List.range' 1 (l ++ l').length ∧ t'.nodes.size = (l ++ l').length + 1) ∧
    (∀ id, t.Live id → id = 0 ∨ id ∈ l) ∧
    (∀ id, t.Live id → t'.Live id → ∃ p n n',
      (∀ q, t.idAt? q = some id ↔ q = p) ∧ (∀ q, t'.idAt? q = some id ↔ q = p) ∧
      t.cell? id = some n ∧ t'.cell? id = some n' ∧ n'.bit = n.bit) ∧
    (∀ id ∈ l, ¬t.Live id → ¬t'.Live id ∧ t'.Refused id) ∧
    ((l ++ l').length < 2 ^ 32 → ∀ id ∈ l ++ l', (BitVec.ofNat 32 id).toNat = id) := by
  obtain ⟨⟨s, hrep⟩, hl, hsize, -⟩ := h.steady (empty_represents w)
  obtain ⟨⟨s', hrep'⟩, hl', hsize', hsteady⟩ := h'.steady hrep
  have hone : (Trie.empty w).nodes.size = 1 := rfl
  rw [hone] at hl hsize
  have hmem (id : Nat) : id ∈ l ↔ 1 ≤ id ∧ id < t.nodes.size := by
    rw [hl, List.mem_range'_1, ← hsize]
  have hall : l ++ l' = List.range' 1 (l ++ l').length := by
    rw [List.length_append, ← List.range'_append_1, ← hl, ← hsize, ← hl']
  refine ⟨⟨hall, by rw [List.length_append]; omega⟩, fun id hlive => ?_, fun id hlive hlive' => ?_,
    fun id hid hdead => ?_, fun hless id hid => ?_⟩
  · have := hlive.lt_size
    rcases Nat.eq_zero_or_pos id with hzero | hpos
    · exact .inl hzero
    · exact .inr ((hmem id).mpr ⟨hpos, this⟩)
  · obtain ⟨p, hp, hunique⟩ := hrep.existsUnique_path hlive
    obtain ⟨p', hp', hunique'⟩ := hrep'.existsUnique_path hlive'
    -- the path in the later trie is a path in the earlier one
    obtain rfl := hunique p' (hsteady.walk?_eq_some hlive.lt_size hp')
    obtain ⟨n', hcell'⟩ := Option.isSome_iff_exists.mp hlive'
    obtain ⟨n, hcell, hbit⟩ := hsteady.kept id n' hlive.lt_size hcell'
    exact ⟨p', n, n', fun q => ⟨hunique q, fun hq => hq ▸ hp⟩,
      fun q => ⟨hunique' q, fun hq => hq ▸ hp'⟩, hcell, hcell', hbit⟩
  · have hdead' : ¬t'.Live id := mt (hsteady.live ((hmem id).mp hid).2) hdead
    exact ⟨hdead', refused_of_not_live hdead'⟩
  · rw [hall, List.mem_range'_1] at hid
    rw [BitVec.toNat_ofNat, Nat.mod_eq_of_lt (by omega)]

/-- The node that the first value needed is folded away with the second one. The third one gets the
next number. -/
theorem Leads.numbers_stable_folded :
    let w : Width := ⟨2, by decide, by decide⟩
    let t : Trie := ⟨w, #[some ⟨2, .absent, .full, none⟩, none], 0⟩
    let t' : Trie :=
      ⟨w, #[some ⟨2, .child 2, .full, none⟩, none, some ⟨1, .full, .absent, some 0⟩], 1⟩
    Leads w (Trie.empty w) [1] t ∧ Leads w t [2] t' ∧ ¬t.Live 1 ∧ ¬t'.Live 1 ∧
      t'.Refused 1 := by
  intro w t t'
  let t₁ : Trie := ⟨w, #[some ⟨2, .absent, .child 1, none⟩, some ⟨1, .full, .absent, some 0⟩], 1⟩
  have hfirst : (Trie.empty w).insert 1 = pure (true, t₁) := by cbv
  have hsecond : t₁.insert 0 = pure (true, t) := by cbv
  have hthird : t.insert 3 = pure (true, t') := by cbv
  have h : Leads w (Trie.empty w) [1] t :=
    .insert (.insert .refl (by decide) hfirst) (by decide) hsecond
  have h' : Leads w t [2] t' := .insert .refl (by decide) hthird
  have hdead : ¬t.Live 1 := by decide
  obtain ⟨-, -, -, hgone, -⟩ := Leads.numbers_stable h h'
  exact ⟨h, h', hdead, hgone 1 (by decide) hdead⟩

end Trie

end BitClassifier
