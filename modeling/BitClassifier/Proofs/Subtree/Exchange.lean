import BitClassifier.Proofs.Subtree.Renumber
import BitClassifier.Proofs.Trie.Path

/-!
# What hangs in a place

A place is settled by its path: two places of one tree are the same if their paths are, and one is
inside the other if its path is longer (`plug_eq_plug`). A climb from an emptied or a filled place
ends in another place, where it leaves the same leaf (`exists_climb_stop`), so it exchanges what
hangs there and nothing else.
-/

namespace BitClassifier

theorem Frame.fill_inj {f g : Frame} {x y : Subtree} (hside : f.side = g.side)
    (h : f.fill x = g.fill y) : f = g ∧ x = y := by
  obtain ⟨i, b, side, other⟩ := f
  obtain ⟨i', b', side', other'⟩ := g
  obtain rfl : side = side' := hside
  cases side <;> simp_all [Frame.fill]

namespace Subtree

variable {j k l : Spine} {f : Frame} {s x y : Subtree} {b : Bool} {id : Nat}

theorem path_append (j k : Spine) : path (j ++ k) = path k ++ path j := by
  simp [path]

/-! ## Places and paths -/

/-- A place whose path goes on from the path of another one is inside it. -/
theorem plug_eq_plug (h : plug k y = plug l x) (hpath : path k <+: path l) :
    ∃ j, l = j ++ k ∧ y = plug j x := by
  induction k generalizing y with
  | nil => exact ⟨l, (List.append_nil l).symm, h⟩
  | cons f k ih =>
    rw [path_cons] at hpath
    obtain ⟨i, rfl, hfill⟩ := ih h ((List.prefix_append _ _).trans hpath)
    rw [path_append, List.prefix_append_right_inj] at hpath
    -- the place of `x` is below the node of `f`, on its open side
    rcases i.eq_nil_or_concat' with rfl | ⟨j, g, rfl⟩
    · simp [path] at hpath
    · rw [path_append] at hpath
      have hside : f.side = g.side := by simpa [path] using hpath
      rw [plug_append] at hfill
      obtain ⟨rfl, rfl⟩ := Frame.fill_inj hside hfill
      exact ⟨j, by simp, rfl⟩

theorem mem_numbers_iff : id ∈ s.numbers ↔ ∃ k x, s = plug k x ∧ x.slot = .child id := by
  constructor
  · intro h
    rw [← map_fst_cells s none, Multiset.mem_map] at h
    obtain ⟨⟨id, n⟩, hmem, rfl⟩ := h
    obtain ⟨k, f, x, hplace, rfl, -⟩ := exists_place hmem true
    exact ⟨k, f.fill x, hplace, f.fill_slot x⟩
  · rintro ⟨k, x, rfl, hx⟩
    obtain ⟨bit, off, on, rfl⟩ := slot_eq_child.mp hx
    rw [← map_fst_cells _ none, cells_plug, Multiset.map_add, Multiset.mem_add]
    exact .inl (by simp [cells])

/-- The numbers of a tree that is opened at a place. -/
theorem numbers_plug_fill (k : Spine) (f : Frame) (x : Subtree) :
    (plug k (f.fill x)).numbers = f.id ::ₘ (x.numbers + (beside f k).map Prod.fst) := by
  rw [← map_fst_cells _ none, cells_plug_fill, Multiset.map_cons, Multiset.map_add, map_fst_cells]

theorem numbers_fill (f : Frame) (x : Subtree) :
    (f.fill x).numbers = f.id ::ₘ (x.numbers + f.other.numbers) := by
  rw [← map_fst_cells _ none, Frame.cells_fill, Multiset.map_cons, Multiset.map_add, map_fst_cells,
    map_fst_cells]

theorem mem_numbers_plug :
    id ∈ (plug j x).numbers ↔
      id ∈ x.numbers ∨ ∃ f ∈ j, id = f.id ∨ id ∈ f.other.numbers := by
  induction j generalizing x with
  | nil => simp [plug]
  | cons f j ih =>
    rw [plug, ih, numbers_fill, Multiset.mem_cons, Multiset.mem_add, List.exists_mem_cons_iff]
    simp only [or_assoc, or_left_comm]

/-! ## The end of a climb -/

/-- A climb from a leaf passes the nodes with the same leaf on their other side, and leaves the leaf
in the place above them. -/
theorem exists_climb_stop (b : Bool) (f : Frame) (k : Spine) :
    ∃ j g l, f :: k = j ++ g :: l ∧ (∀ e ∈ j, e.other = leaf b) ∧
      climb b k (f.fill (leaf b)) = plug l (g.fill (leaf b)) := by
  induction k generalizing f with
  | nil => exact ⟨[], f, [], rfl, List.forall_mem_nil _, rfl⟩
  | cons e k ih =>
    by_cases hother : f.other = leaf b
    · obtain ⟨j, g, l, hsplit, hj, hclimb⟩ := ih e
      refine ⟨f :: j, g, l, by rw [hsplit]; rfl, List.forall_mem_cons.mpr ⟨hother, hj⟩, ?_⟩
      have hshrink : (f.fill (leaf b)).shrink b = leaf b := by
        unfold Frame.fill
        split <;> simp [shrink, hother]
      rw [climb, hshrink, hclimb]
    · exact ⟨[], f, e :: k, rfl, List.forall_mem_nil _,
        climb_eq_plug (isNode_fill f _) (shrink_fill_of_other hother)⟩

end Subtree

end BitClassifier
