import BitClassifier.Proofs.Prune.Meaning
import BitClassifier.Proofs.Subtree.Places
import BitClassifier.Proofs.Trie.Entries
import BitClassifier.Proofs.Trie.Exchange

/-!
# What clearing removes

Clearing a slot removes the nodes in it, and of the nodes above it those that are left without
members. `Loses` tells these nodes by the paths and the members of the trie before, without a word
on how they are found; `Cleared` is what is left. Everything else is stored as it was
(`History.clear_removes_exactly`).

In the stored tree the removed nodes are what hangs in the place at which the climb from the slot
ends (`Represents.loses_iff`).
-/

namespace BitClassifier

open Subtree

namespace Trie

/-- The node `i` hangs in a slot of the node `id` or further below. -/
def InSlot (t : Trie) (id : Nat) (side : Bool) (i : Nat) : Prop :=
  ∃ p q, t.idAt? p = some id ∧ t.idAt? (p ++ side :: q) = some i

/-- The node `i` is the node `id` or above it, and all its members are in a slot of `id`. A node has
the members of the nodes below it, so drained nodes are a chain that goes up from `id`. -/
def Drained (t : Trie) (id : Nat) (side : Bool) (i : Nat) : Prop :=
  ∃ p q, t.idAt? p = some i ∧ t.idAt? (p ++ q) = some id ∧
    ∀ v, t.contains v = pure true → p <+: digits t.width.bits v →
      p ++ q ++ [side] <+: digits t.width.bits v

/-- The nodes that have to go if a slot is cleared. The root always stays. -/
def Loses (t : Trie) (id : Nat) (side : Bool) (i : Nat) : Prop :=
  t.InSlot id side i ∨ i ≠ 0 ∧ t.Drained id side i

/-- What clearing a slot comes to. -/
structure Cleared (t : Trie) (id : Nat) (side : Bool) (removed : Nat) (t' : Trie) : Prop where
  live_iff : ∀ i, t'.Live i ↔ t.Live i ∧ ¬t.Loses id side i
  removed_eq : {i | t.Loses id side i}.encard = removed
  len_add : t'.len + removed = t.len
  /-- One slot of one node that stays is emptied: the cleared slot itself if its node stays, and
  otherwise the slot that held the last drained node. All other nodes are stored as before. -/
  kept : ∃ last bit, t'.Live last ∧
    (last = id ∧ bit = side ∨ ∃ i n, i ≠ 0 ∧ t.Drained id side i ∧ t.cell? last = some n ∧
      n.slot bit = .child i) ∧
    t'.cell? last = (t.cell? last).map (·.put bit .absent) ∧
    ∀ i, i ≠ last → t'.Live i → t'.cell? i = t.cell? i

variable {t t' : Trie} {w : Width} {j k l : Spine} {e f g : Frame} {s x : Subtree} {id i m : Nat}
  {p : List Bool} {S : Set CodeValue}

theorem Shows.idAt?_eq_some (h : t.Shows w s) :
    t.idAt? p = some id ↔ ∃ k x, s = plug k x ∧ x.slot = .child id ∧ path k = p := by
  obtain ⟨off, on, hroot⟩ := label_eq_some.mp h.root
  exact Shows.walk?_eq_some (k := []) h (by rw [hroot]; rfl) p id

theorem Shows.idAt?_path (h : t.Shows w (plug k x)) (hx : x.slot = .child id) :
    t.idAt? (path k) = some id :=
  h.idAt?_eq_some.mpr ⟨k, x, rfl, hx, rfl⟩

/-- Every node below the root has a member. -/
theorem Represents.exists_member (h : t.Represents w s) (hp : t.idAt? p = some i) (hi : i ≠ 0) :
    ∃ v, t.contains v = pure true ∧ p <+: digits w.bits v := by
  obtain ⟨k, x, rfl, hx, rfl⟩ := h.shows.idAt?_eq_some.mp hp
  have hk : k ≠ [] := by
    rintro rfl
    obtain ⟨off, on, hroot⟩ := label_eq_some.mp h.shows.root
    rw [plug] at hroot
    rw [hroot, slot_node, Slot.child.injEq] at hx
    exact hi hx.symm
  obtain ⟨n, habove, hfit, -, hmin⟩ := exists_above h.sound.fits h.sound.sides
  have hlen : (path k).length ≤ w.bits := by
    rw [length_path]
    have := habove.length_add
    omega
  have hn : n ≤ 32 := Nat.le_trans habove.le w.le_widest
  -- a value on the way to the node, and then one that is accepted there
  obtain ⟨c, hc⟩ := exists_prefix_digits w.le_widest hlen
  obtain ⟨v, hv, haccepts⟩ := (hmin hk).exists_accepts (b := true) hn hfit
    (ne_leaf_of_isNode (isNode_of_slot hx) false) c
  have hfollow : Follows k v := by
    rw [habove.follows_iff ((habove.follows_iff_path c).mpr hc)]
    exact fun i hi _ => hv i hi
  refine ⟨v, ?_, (habove.follows_iff_path v).mp hfollow⟩
  rw [h.shows.contains, accepts_plug_of_follows hfollow, haccepts]

/-- On the way up from an emptied place, the nodes with nothing on their other side are drained. -/
theorem Represents.drained (h : t.Represents w (plug (f :: k) x)) (hsplit : f :: k = j ++ g :: l)
    (hj : Lone j) (he : e ∈ j) : t.Drained f.id f.side e.id := by
  obtain ⟨j₁, j₂, rfl⟩ := List.append_of_mem he
  have hk : f :: k = (j₁ ++ [e]) ++ (j₂ ++ g :: l) := by rw [hsplit]; simp
  have hlone : Lone (j₁ ++ [e]) := fun b hb => hj b (by simp at hb ⊢; tauto)
  have hplace : plug (f :: k) x = plug (j₂ ++ g :: l) (plug (j₁ ++ [e]) x) := by
    rw [hk, plug_append]
  have hnode : (plug (j₁ ++ [e]) x).slot = .child e.id := by
    rw [plug_append]
    exact e.fill_slot _
  obtain ⟨q, hq⟩ : path (j₂ ++ g :: l) <+: path k := by
    cases j₁ with
    | nil =>
      obtain ⟨-, rfl⟩ := List.cons_eq_cons.mp hk
      exact List.prefix_rfl
    | cons _ j₁ =>
      obtain ⟨-, rfl⟩ := List.cons_eq_cons.mp hk
      exact path_append (j₁ ++ [e]) _ ▸ List.prefix_append _ _
  refine ⟨path (j₂ ++ g :: l), q, (hplace ▸ h.shows).idAt?_path hnode, ?_, fun v hv hpath => ?_⟩
  · rw [hq]
    exact Shows.idAt?_path (k := k) h.shows (f.fill_slot x)
  · obtain ⟨n, habove, -⟩ := exists_above h.sound.fits h.sound.sides
    obtain ⟨n', habove', -⟩ := exists_above (hplace ▸ h.sound.fits) (hplace ▸ h.sound.sides)
    rw [h.shows.holds.width] at hpath ⊢
    have hupper := (habove'.follows_iff_path v).mpr hpath
    rw [h.shows.contains, Run.pure_inj, hplace, accepts_plug_of_follows hupper,
      accepts_plug_lone hlone] at hv
    rw [hq, ← path_cons, ← habove.follows_iff_path, hk]
    exact List.forall_mem_append.mpr ⟨hv.1, hupper⟩

/-- Clearing a slot exchanges what hangs in the place at which the climb from the slot ends. -/
theorem Represents.clear_place (h : t.Represents w (plug k (f.fill x))) :
    ∃ (m : Nat) (t' : Trie) (j : Spine) (g : Frame) (l : Spine),
      t.clear f.id f.side = pure (m, t') ∧ t'.count + m = t.count ∧
      f :: k = j ++ g :: l ∧ Lone j ∧ climb false k (f.fill absent) = plug l (g.fill absent) ∧
      t.Shows w (plug l (g.fill (plug j x))) ∧ t'.Represents w (plug l (g.fill absent)) := by
  obtain ⟨m, t', hrun, -, hcount⟩ := h.shows.clear
  obtain ⟨m₁, t₁, hrun₁, h'⟩ := h.clear
  obtain ⟨rfl, rfl⟩ := Run.pure_mk_inj.mp (hrun.symm.trans hrun₁)
  obtain ⟨j, g, l, hsplit, hj, hclimb⟩ := exists_climb_stop false f k
  rw [leaf_false] at hclimb
  have hplace : plug k (f.fill x) = plug l (g.fill (plug j x)) := by
    show plug (f :: k) x = plug (g :: l) (plug j x)
    rw [hsplit, plug_append]
  exact ⟨m, t', j, g, l, hrun, hcount, hsplit, hj, hclimb, hplace ▸ h.shows, hclimb ▸ h'⟩

/-- The way into an emptied slot goes through the place at which the climb ends. -/
theorem Represents.mem_of_inSlot (h : t.Represents w (plug (f :: k) x))
    (hsplit : f :: k = j ++ g :: l) (hin : t.InSlot f.id f.side i) : i ∈ (plug j x).numbers := by
  have hshows : t.Shows w (plug (g :: l) (plug j x)) := by
    rw [← plug_append, ← hsplit]
    exact h.shows
  have hid : t.idAt? (path k) = some f.id := Shows.idAt?_path (k := k) h.shows (f.fill_slot x)
  obtain ⟨p, q, hp, hq⟩ := hin
  obtain rfl := (h.existsUnique_path (live_of_walk? hid).2).unique hp hid
  refine hshows.mem_numbers_iff_path.mpr ⟨_, hq, path j ++ q, ?_⟩
  rw [← List.append_assoc, ← path_append, ← hsplit, path_cons, List.append_assoc]
  rfl

/-- A node that stays keeps its path and a member, and the member is not in the emptied slot. -/
theorem Represents.not_drained_of_live (h : t.Represents w (plug (f :: k) x))
    (hsteady : Steady t t') (h' : t'.Represents w (climb false k (f.fill absent)))
    (hi : i ≠ 0) (hlive : t.Live i) (hlive' : t'.Live i) : ¬t.Drained f.id f.side i := by
  rintro ⟨p, q, hp, hq, hmembers⟩
  obtain ⟨p', hp', -⟩ := h'.existsUnique_path hlive'
  have hold := hsteady.walk?_eq_some hlive.lt_size hp'
  obtain rfl := (h.existsUnique_path hlive).unique hold hp
  obtain ⟨v, hv, hpath⟩ := h'.exists_member hp' hi
  rw [h'.shows.contains, Run.pure_inj, accepts_climb_absent x] at hv
  rw [← h.shows.holds.width] at hpath
  have hslot := hmembers v ((h.shows.contains v).trans (congrArg pure hv.1)) hpath
  have hid : t.idAt? (path k) = some f.id := Shows.idAt?_path (k := k) h.shows (f.fill_slot x)
  obtain ⟨n, habove, -⟩ := exists_above h.sound.fits h.sound.sides
  refine hv.2 ((habove.follows_iff_path v).mpr ?_)
  rwa [path_cons, (h.existsUnique_path (live_of_walk? hid).2).unique hid hq, ← h.shows.holds.width]

/-- The nodes that hang in the place at which a climb from an emptied slot ends, and no others, are
the ones that have to go. -/
theorem Represents.loses_iff (h : t.Represents w (plug (f :: k) x)) (hsplit : f :: k = j ++ g :: l)
    (hj : Lone j) (hclimb : climb false k (f.fill absent) = plug l (g.fill absent))
    (h' : t'.Represents w (plug l (g.fill absent))) (i : Nat) :
    t.Loses f.id f.side i ↔ i ∈ (plug j x).numbers := by
  have hshows : t.Shows w (plug l (g.fill (plug j x))) := by
    show t.Shows w (plug (g :: l) (plug j x))
    rw [← plug_append, ← hsplit]
    exact h.shows
  constructor
  · rintro (hin | ⟨hi, hdrained⟩)
    · exact h.mem_of_inSlot hsplit hin
    · by_contra hmem
      obtain ⟨p, -, hp, -⟩ := id hdrained
      have hlive : t.Live i := (live_of_walk? hp).2
      have hlive' : t'.Live i :=
        (hshows.exchanged_live_iff h'.shows i).mpr (.inr ⟨hlive, hmem⟩)
      have hsteady : Steady t t' := hshows.exchanged_steady h'.shows
        fun _ hnone => absurd hnone (Multiset.notMem_zero _)
      exact h.not_drained_of_live hsteady (hclimb ▸ h') hi hlive hlive' hdrained
  · intro hmem
    rcases mem_numbers_plug.mp hmem with hx | ⟨e, he, rfl | hother⟩
    · obtain ⟨p, hp, q, rfl⟩ := h.shows.mem_numbers_iff_path.mp hx
      rw [path_cons, List.append_assoc] at hp
      exact .inl ⟨path k, q, Shows.idAt?_path (k := k) h.shows (f.fill_slot x), hp⟩
    · exact .inr ⟨Shows.ne_zero_of_mem (k := l) hshows hmem, h.drained hsplit hj he⟩
    · rw [hj e he] at hother
      exact absurd hother (Multiset.notMem_zero i)

/-- The nodes that are removed are counted. -/
theorem Shows.encard_numbers (h : t.Shows w (plug (g :: l) x))
    (h' : t'.Shows w (plug l (g.fill absent))) (hcount : t'.count + m = t.count) :
    {i | i ∈ x.numbers}.encard = m := by
  have hnodup := h.nodup_numbers
  have hcard := h.holds.count
  have hcard' := h'.holds.count
  rw [← Multiset.card_map Prod.fst, map_fst_cells, plug, numbers_plug_fill, Multiset.card_cons,
    Multiset.card_add] at hcard
  rw [← Multiset.card_map Prod.fst, map_fst_cells, numbers_plug_fill, Multiset.card_cons,
    Multiset.card_add, numbers, Multiset.card_zero] at hcard'
  rw [plug, numbers_plug_fill, Multiset.nodup_cons, Multiset.nodup_add] at hnodup
  have hm : x.numbers.card = m := by omega
  rw [← hm]
  exact Set.encard_coe_eq_coe_finsetCard ⟨x.numbers, hnodup.2.1⟩

/-- What is left is known from the place at which the climb from the emptied slot ends. -/
theorem Represents.cleared (h : t.Represents w (plug k (f.fill x))) :
    ∃ m t', t.clear f.id f.side = pure (m, t') ∧ t.Cleared f.id f.side m t' := by
  obtain ⟨m, t', j, g, l, hrun, hcount, hsplit, hj, hclimb, hshows, h'⟩ := h.clear_place
  have hloses := Represents.loses_iff (k := k) h hsplit hj hclimb h'
  refine ⟨m, t', hrun, fun i => ?_, ?_, hcount, g.id, g.side, ?_, ?_, ?_, fun i hi hlive => ?_⟩
  · rw [hshows.exchanged_live_iff h'.shows, hloses, numbers]
    simp
  · simp only [hloses]
    exact Shows.encard_numbers (l := l) hshows h'.shows hcount
  · exact Option.isSome_iff_exists.mpr ⟨_, h'.shows.opened.cell?_eq⟩
  · rcases j.eq_nil_or_concat' with rfl | ⟨j, e, rfl⟩
    · obtain ⟨rfl, -⟩ := List.cons_eq_cons.mp hsplit
      exact .inl ⟨rfl, rfl⟩
    · -- the last frame on the way is that of the last drained node
      have hslot : (plug (j ++ [e]) x).slot = .child e.id := by
        rw [plug_append]
        exact e.fill_slot _
      have hmem := mem_numbers_of_slot hslot
      refine .inr ⟨e.id, _, Shows.ne_zero_of_mem (k := l) hshows hmem,
        Represents.drained (k := k) h hsplit hj (by simp), hshows.opened.cell?_eq, ?_⟩
      rw [Frame.node_slot, hslot]
  · exact hshows.exchanged_holder h'.shows
  · obtain ⟨n, hcell⟩ := Option.isSome_iff_exists.mp hlive
    obtain ⟨rfl, -⟩ | hin | ⟨-, hold⟩ := hshows.exchanged_cases h'.shows hcell
    · exact absurd rfl hi
    · exact absurd hin (Multiset.notMem_zero _)
    · rw [hcell, hold]

/-- Clearing removes the nodes in the slot and those above it that are left without members, tells
how many these are, and leaves everything else as it was, whatever operations made the trie. -/
theorem History.clear_removes_exactly (h : t.History w S) (hlive : t.Live id) (side : Bool) :
    ∃ m t', t.clear id side = pure (m, t') ∧ t.Cleared id side m t' := by
  obtain ⟨s, hrep, -⟩ := h.represents
  obtain ⟨k, f, x, rfl, rfl, rfl⟩ := hrep.shows.exists_place_of_live hlive side
  exact hrep.cleared

/-- Without 1, the values 1 and 6 of three bits lose the two nodes on the way to 1 only. -/
theorem History.clear_removes_exactly_pair :
    let w : Width := ⟨3, by decide, by decide⟩
    let upper : Array (Option Node) :=
      #[some ⟨2, .child 4, .absent, some 0⟩, some ⟨1, .absent, .full, some 3⟩]
    let t : Trie :=
      ⟨w, #[some ⟨4, .child 3, .child 1, none⟩, some ⟨2, .absent, .child 2, some 0⟩,
        some ⟨1, .full, .absent, some 1⟩] ++ upper, 4⟩
    let t' : Trie := ⟨w, #[some ⟨4, .child 3, .absent, none⟩, none, none] ++ upper, 2⟩
    (∃ S, t.History w S) ∧ t.Live 1 ∧
      t.clear 1 false = pure (2, t') ∧ t.Cleared 1 false 2 t' := by
  intro w upper t t'
  have hsorted : Trie.ofSorted w [1, 6] = pure t := by cbv
  have hvalues : ∀ v ∈ ([1, 6] : List CodeValue), w.contains v = true := by
    simp [w, Width.contains, Width.maxValue]
  have hclear : t.clear 1 false = pure (2, t') := by cbv
  have hlive : t.Live 1 := rfl
  obtain ⟨m, t₁, hrun, h⟩ :=
    History.clear_removes_exactly (.ofSorted hvalues hsorted) hlive false
  obtain ⟨rfl, rfl⟩ := Run.pure_mk_inj.mp (hrun.symm.trans hclear)
  exact ⟨⟨_, .ofSorted hvalues hsorted⟩, hlive, hclear, h⟩

end Trie

end BitClassifier
