import BitClassifier.Proofs.Trie.Contents

/-!
# Paths

The path of a place is the list of the sides that lead there from the root. The values that lead to
a place are those whose topmost bits are its path (`follows_iff_path`), and the walk along a path
ends at the node that hangs there (`Shows.walk?_eq_some`).
-/

namespace BitClassifier

open Subtree

namespace Subtree

/-- The sides that lead from the root to a place. -/
def path (k : Spine) : List Bool :=
  (k.map Frame.side).reverse

theorem path_cons (f : Frame) (k : Spine) : path (f :: k) = path k ++ [f.side] := by
  rw [path, List.map_cons, List.reverse_cons, path]

@[simp] theorem length_path (k : Spine) : (path k).length = k.length := by
  rw [path, List.length_reverse, List.length_map]

variable {w : Width} {k : Spine} {n : Nat}

theorem Above.length_add (h : Above w k n) : k.length + n = w.bits := by
  induction k generalizing n with
  | nil =>
    obtain rfl : n = w.bits := h
    exact Nat.zero_add _
  | cons f k ih =>
    rw [← ih h.2.2.2, List.length_cons]
    omega

theorem concat_prefix_iff {p l : List Bool} {b : Bool} :
    p ++ [b] <+: l ↔ p <+: l ∧ l[p.length]? = some b := by
  constructor
  · rintro ⟨r, rfl⟩
    simp
  · rintro ⟨⟨r, rfl⟩, h⟩
    cases r <;> simp_all

theorem Above.follows_iff_path (h : Above w k n) (c : CodeValue) :
    Follows k c ↔ path k <+: digits w.bits c := by
  induction k generalizing n with
  | nil => exact ⟨fun _ => List.nil_prefix, fun _ => follows_nil c⟩
  | cons f k ih =>
    obtain ⟨hbit, -, -, habove⟩ := h
    have hlength := habove.length_add
    have hdigit : (digits w.bits c)[k.length]? = some (c.getLsbD n) := by
      rw [getElem?_digits (by omega)]
      congr 2
      omega
    rw [follows_cons, path_cons, concat_prefix_iff, length_path, hdigit, ← ih habove, hbit,
      hits_twoPow habove.lt_widest, Option.some_inj, and_comm]

end Subtree

namespace Trie

variable {t : Trie} {w : Width} {k : Spine} {s : Subtree} {id : Nat}

/-- A place with a path that begins with one step is a place on that side. -/
theorem exists_path_cons {P : Subtree → Prop} {side : Bool} {p : List Bool} :
    (∃ j x, s = plug j x ∧ P x ∧ path j = side :: p) ↔
      ∃ (f : Frame) (y : Subtree), s = f.fill y ∧ f.side = side ∧
        ∃ j x, y = plug j x ∧ P x ∧ path j = p := by
  constructor
  · rintro ⟨j, x, rfl, hx, hj⟩
    rw [path, List.reverse_eq_cons_iff, List.map_eq_append_iff] at hj
    obtain ⟨i, l, rfl, hi, hl⟩ := hj
    obtain ⟨f, rfl, hf⟩ := List.map_eq_singleton_iff.mp hl
    have hpath : path i = p := by rw [path, hi, List.reverse_reverse]
    exact ⟨f, plug i x, plug_append i [f] x, hf, i, x, rfl, hx, hpath⟩
  · rintro ⟨f, y, rfl, rfl, j, x, rfl, hx, rfl⟩
    exact ⟨j ++ [f], x, (plug_append j [f] x).symm, hx, by simp [path]⟩

/-- A walk goes on from the node on the side that its path begins with. -/
theorem Shows.walk?_cons {bit : CodeValue} {off on : Subtree}
    (h : t.Shows w (plug k (.node id bit off on))) (side : Bool) (p : List Bool) :
    t.walk? id (side :: p) = match (pick side off on).slot with
      | .child next => t.walk? next p
      | _ => none := by
  rw [walk?, h.cell?_eq]
  cases side <;> rfl

/-- A walk ends at the node whose place has the path of the walk. -/
theorem Shows.walk?_eq_some (h : t.Shows w (plug k s)) (hs : s.slot = .child id) (p : List Bool)
    (below : Nat) :
    t.walk? id p = some below ↔ ∃ j x, s = plug j x ∧ x.slot = .child below ∧ path j = p := by
  obtain ⟨bit, off, on, rfl⟩ := slot_eq_child.mp hs
  induction p generalizing k id bit off on with
  | nil =>
    rw [walk?, h.cell?_eq, Option.map_some, Option.some_inj]
    constructor
    · rintro rfl
      exact ⟨[], _, rfl, rfl, rfl⟩
    · rintro ⟨j, x, hplug, hx, hj⟩
      obtain rfl : j = [] := by simpa [path] using hj
      exact Slot.child.inj (hs.symm.trans (congrArg slot hplug |>.trans hx))
  | cons side p ih =>
    have hfill : (⟨id, bit, side, pick (!side) off on⟩ : Frame).fill (pick side off on) =
      .node id bit off on := fill_pick id bit side off on
    rw [exists_path_cons, h.walk?_cons]
    rw [← hfill] at h
    constructor
    · intro hwalk
      refine ⟨_, _, hfill.symm, rfl, ?_⟩
      cases hpick : pick side off on with
      | absent => simp [hpick, slot] at hwalk
      | full => simp [hpick, slot] at hwalk
      | node next bit' off' on' =>
        rw [hpick] at h hwalk
        exact (ih (k := _ :: k) _ _ _ h rfl).mp hwalk
    · rintro ⟨f, y, hnode, rfl, j, x, hy, hx, hj⟩
      obtain ⟨-, rfl⟩ := fill_eq_node.mp hnode.symm
      obtain ⟨next, hnext⟩ := exists_slot_plug (k := j) hx
      rw [← hy] at hnext
      obtain ⟨bit', off', on', hpick⟩ := slot_eq_child.mp hnext
      rw [hpick] at h hy ⊢
      exact (ih (k := _ :: k) _ _ _ h rfl).mpr ⟨j, x, hy, hx, hj⟩

/-- A node hangs in one place only. -/
theorem Shows.path_unique {j : Spine} {x : Subtree} (h : t.Shows w (plug k s))
    (h' : t.Shows w (plug j x)) (hs : s.slot = .child id) (hx : x.slot = .child id) :
    path k = path j := by
  induction k generalizing j s x id with
  | nil =>
    obtain ⟨bit, off, on, rfl⟩ := slot_eq_child.mp hs
    obtain ⟨bit', off', on', rfl⟩ := slot_eq_child.mp hx
    have hcell := h.cell?_eq.symm.trans h'.cell?_eq
    cases j with
    | nil => rfl
    | cons g j => simp [holder] at hcell
  | cons f k ih =>
    obtain ⟨bit, off, on, rfl⟩ := slot_eq_child.mp hs
    obtain ⟨bit', off', on', rfl⟩ := slot_eq_child.mp hx
    have hcell := h.cell?_eq.symm.trans h'.cell?_eq
    cases j with
    | nil => simp [holder] at hcell
    | cons g j =>
      -- the last frames are equal as stored, and then so are the places of their nodes
      have hid : f.id = g.id := by
        simp only [holder, Option.some_inj, Node.mk.injEq] at hcell
        exact hcell.2.2.2
      have hnode : f.node (.child id) (holder k) = g.node (.child id) (holder j) := by
        have hopen := (Shows.opened (k := k) h).cell?_eq
        rw [hid, (Shows.opened (k := j) h').cell?_eq] at hopen
        exact (Option.some.inj hopen).symm
      have hside : f.side = g.side := by
        by_contra hne
        have hslot := congrArg (·.slot g.side) hnode
        simp only [Bool.eq_not_of_ne (Ne.symm hne), Frame.node_slot_not] at hslot
        rw [← Bool.eq_not_of_ne (Ne.symm hne), Frame.node_slot] at hslot
        exact Shows.other_slot_ne (k := k) h hslot
      rw [path_cons, path_cons, hside,
        ih (j := j) h h' (f.fill_slot _) (by rw [Frame.fill_slot, hid])]

/-- Every node has exactly one path. -/
theorem Represents.existsUnique_path (h : t.Represents w s) (hlive : t.Live id) :
    ∃! p, t.idAt? p = some id := by
  obtain ⟨off, on, rfl⟩ := label_eq_some.mp h.shows.root
  obtain ⟨n, hcell⟩ := Option.isSome_iff_exists.mp hlive
  obtain ⟨k, f, x, hplace, rfl, -⟩ := exists_place ((h.shows.holds.cell?_iff _ _).mp hcell) true
  have hwalk (p : List Bool) := h.shows.walk?_eq_some (k := []) rfl p f.id
  refine ⟨path k, (hwalk _).mpr ⟨k, f.fill x, hplace, f.fill_slot x, rfl⟩, fun q hq => ?_⟩
  obtain ⟨j, y, hplace', hy, rfl⟩ := (hwalk q).mp hq
  exact Shows.path_unique (hplace' ▸ h.shows) (hplace ▸ h.shows) hy (f.fill_slot x)

end Trie

end BitClassifier
