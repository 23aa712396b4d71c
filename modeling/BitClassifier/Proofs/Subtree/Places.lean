import BitClassifier.Proofs.Blocks
import BitClassifier.Proofs.Subtree.Renumber

/-!
# Places by their paths

`at?` follows a path down a tree. In a minimal tree what is found at a place is settled by the
answers for the values that lead there: a node if both answers are given (`Minimal.isNode_at?_iff`),
and an accepting leaf if all of them are accepted and one level up some value is not
(`Minimal.full_at?_iff`). So the nodes and the accepting leaves can be counted by their paths.
-/

namespace BitClassifier

open BitVec

namespace Subtree

/-- What hangs at the end of a path, as long as there are nodes on the way. -/
def at? : Subtree → List Bool → Option Subtree
  | s, [] => some s
  | node _ _ off on, side :: p => (pick side off on).at? p
  | _, _ :: _ => none

/-- The paths to the places where something is found that has a property. -/
def places (P : Subtree → Prop) (s : Subtree) : Set (List Bool) :=
  {p | ∃ x, s.at? p = some x ∧ P x}

/-- The number of accepting leaves. -/
def regions : Subtree → Nat
  | absent => 0
  | full => 1
  | node _ _ off on => off.regions + on.regions

variable {id n : Nat} {bit : CodeValue} {s off on : Subtree} {P : Subtree → Prop} {p : List Bool}
  {side b : Bool}

@[simp] theorem at?_nil (s : Subtree) : s.at? [] = some s := by
  cases s <;> rfl

@[simp] theorem at?_cons :
    (node id bit off on).at? (side :: p) = (pick side off on).at? p := rfl

@[simp] theorem at?_absent_cons : absent.at? (side :: p) = none := rfl

@[simp] theorem at?_full_cons : full.at? (side :: p) = none := rfl

theorem nil_mem_places : [] ∈ s.places P ↔ P s := by
  simp [places]

/-! ## Counting -/

/-- Below a node are the places of its two sides. -/
theorem places_below (P : Subtree → Prop) (id : Nat) (bit : CodeValue) (off on : Subtree) :
    (node id bit off on).places P \ {[]} =
      List.cons false '' off.places P ∪ List.cons true '' on.places P := by
  ext p
  cases p with
  | nil => simp
  | cons side p => cases side <;> simp [places, pick]

theorem encard_places_below (P : Subtree → Prop) (id : Nat) (bit : CodeValue)
    (off on : Subtree) :
    ((node id bit off on).places P \ {[]}).encard =
      (off.places P).encard + (on.places P).encard := by
  have hdisjoint : Disjoint (List.cons false '' off.places P) (List.cons true '' on.places P) := by
    rw [Set.disjoint_left]
    rintro _ ⟨p, -, rfl⟩ ⟨q, -, hq⟩
    cases hq
  rw [places_below, Set.encard_union_eq hdisjoint, (List.cons_injective).encard_image,
    (List.cons_injective).encard_image]

/-- A leaf has one place at most. -/
theorem places_leaf (hP : P (leaf b)) : (leaf b).places P = {[]} := by
  ext p
  cases p with
  | nil => simpa [places] using hP
  | cons side p => cases b <;> simp [places]

theorem places_leaf_of_not (hP : ¬P (leaf b)) : (leaf b).places P = ∅ := by
  ext p
  cases p with
  | nil => simpa [places] using hP
  | cons side p => cases b <;> simp [places]

theorem encard_places_isNode (s : Subtree) :
    (s.places fun x => x.isNode = true).encard = s.size := by
  induction s with
  | absent => rw [← leaf_false, places_leaf_of_not Bool.false_ne_true, Set.encard_empty]; rfl
  | full => rw [← leaf_true, places_leaf_of_not Bool.false_ne_true, Set.encard_empty]; rfl
  | node id bit off on ihOff ihOn =>
    have hroot : [] ∈ (node id bit off on).places fun x => x.isNode = true :=
      nil_mem_places.mpr rfl
    have hsize : (node id bit off on).size = off.size + on.size + 1 := by
      rw [size]
      omega
    rw [hsize, ← Set.encard_sdiff_singleton_add_one hroot, encard_places_below, ihOff, ihOn,
      Nat.cast_add, Nat.cast_add, Nat.cast_one]

theorem encard_places_full (s : Subtree) : (s.places fun x => x = full).encard = s.regions := by
  induction s with
  | absent => rw [← leaf_false, places_leaf_of_not (by simp), Set.encard_empty]; rfl
  | full =>
    have hplaces : (full.places fun x => x = full) = {[]} := places_leaf (b := true) rfl
    rw [hplaces, Set.encard_singleton]
    rfl
  | node id bit off on ihOff ihOn =>
    have hroot : [] ∉ (node id bit off on).places fun x => x = full :=
      mt nil_mem_places.mp (by simp)
    rw [← Set.sdiff_singleton_eq_self hroot, encard_places_below, ihOff, ihOn, regions,
      Nat.cast_add]

/-! ## What is found at a place -/

/-- The values that lead to a place below a node are given their answers on its side. -/
theorem exists_prefix_cons (hn : n < 32) (hfit : (node id bit off on).Fits (n + 1)) :
    (∃ c, side :: p <+: digits (n + 1) c ∧ (node id bit off on).accepts c = b) ↔
      ∃ c, p <+: digits n c ∧ (pick side off on).accepts c = b := by
  -- seen from its side, the node is a filled frame
  rw [← fill_pick id bit side off on] at hfit ⊢
  simp only [digits, List.cons_prefix_cons]
  constructor
  · rintro ⟨c, ⟨hc, hp⟩, hb⟩
    rw [accepts_fill_of_side hn hfit (fun _ _ => rfl) hc.symm] at hb
    exact ⟨c, hp, hb⟩
  · rintro ⟨c, hp, hb⟩
    obtain ⟨d, hbelow, hbit, -⟩ := exists_set_bit hn c side
    rw [← digits_congr hbelow] at hp
    exact ⟨d, ⟨hbit.symm, hp⟩, (accepts_fill_of_side hn hfit hbelow hbit).trans hb⟩

/-- Both sides of a node are on the level below. -/
theorem pick_level (hsides : off.Minimal ∧ on.Minimal) (hfit : (node id bit off on).Fits (n + 1))
    (side : Bool) : (pick side off on).Minimal ∧ (pick side off on).Fits n := by
  cases side
  · exact ⟨hsides.1, hfit.2.1⟩
  · exact ⟨hsides.2, hfit.2.2⟩

/-- A leaf gives one answer. -/
theorem not_both_of_leaf (b : Bool) (L : CodeValue → Prop) :
    ¬∀ a, ∃ c, L c ∧ (leaf b).accepts c = a := by
  intro h
  obtain ⟨c, -, hc⟩ := h (!b)
  rw [accepts_leaf] at hc
  exact Bool.self_ne_not b hc

/-- A path leads to a node if its values are given both answers. -/
theorem Minimal.isNode_at?_iff (hmin : s.Minimal) (hn : n ≤ 32) (hfit : s.Fits n) (p : List Bool) :
    (∃ x, s.at? p = some x ∧ x.isNode = true) ↔
      p.length < n ∧ ∀ b, ∃ c, p <+: digits n c ∧ s.accepts c = b := by
  induction p generalizing s n with
  | nil =>
    simp only [at?_nil, Option.some_inj, exists_eq_left', List.length_nil]
    constructor
    · intro hnode
      obtain ⟨id, bit, off, on, rfl⟩ := isNode_iff.mp hnode
      obtain ⟨m, rfl⟩ := hfit.pos
      refine ⟨Nat.succ_pos m, fun b => ?_⟩
      obtain ⟨c, -, hc⟩ := hmin.exists_accepts hn hfit (ne_leaf_of_isNode rfl (!b)) 0
      exact ⟨c, List.nil_prefix, hc⟩
    · rintro ⟨-, hboth⟩
      have hne (b : Bool) : s ≠ leaf b := by
        rintro rfl
        exact not_both_of_leaf b _ hboth
      exact isNode_of_ne (hne false) (hne true)
  | cons side p ih =>
    cases s with
    | absent => exact iff_of_false (by simp) fun h => not_both_of_leaf false _ h.2
    | full => exact iff_of_false (by simp) fun h => not_both_of_leaf true _ h.2
    | node id bit off on =>
      obtain ⟨m, rfl⟩ := hfit.pos
      have hpick := pick_level hmin.2 hfit side
      rw [at?_cons, ih hpick.1 (Nat.le_of_lt hn) hpick.2, List.length_cons, Nat.succ_lt_succ_iff]
      simp only [exists_prefix_cons hn hfit]

/-- A path of a tree leads some value. -/
theorem exists_prefix_digits (hn : n ≤ 32) (hp : p.length ≤ n) : ∃ c, p <+: digits n c := by
  obtain ⟨v, -, hdigits⟩ := exists_digits_eq (Nat.le_trans hp hn)
  refine ⟨BitVec.ofNat 32 v <<< (n - p.length), ?_⟩
  rw [← hdigits, length_digits, digits_prefix_iff hp]
  intro i hi
  rw [getLsbD_ushiftRight, getLsbD_shiftLeft]
  simp
  omega

/-- A path leads to an accepting leaf if all its values are accepted, but not all those of the path
one step shorter. -/
theorem Minimal.full_at?_iff (hmin : s.Minimal) (hn : n ≤ 32) (hfit : s.Fits n) (p : List Bool) :
    s.at? p = some full ↔
      p.length ≤ n ∧ (∀ c, p <+: digits n c → s.accepts c = true) ∧
        (p ≠ [] → ∃ c, p.dropLast <+: digits n c ∧ s.accepts c = false) := by
  induction p generalizing s n with
  | nil =>
    simp only [at?_nil, Option.some_inj, List.length_nil, Nat.zero_le, List.nil_prefix,
      true_imp_iff, true_and, ne_eq, not_true_eq_false, false_imp_iff, and_true]
    constructor
    · rintro rfl c
      rfl
    · exact hmin.eq_leaf (b := true) hn hfit
  | cons side p ih =>
    cases s with
    | absent =>
      refine iff_of_false (by simp) ?_
      rintro ⟨hlen, hall, -⟩
      obtain ⟨c, hc⟩ := exists_prefix_digits hn hlen
      exact Bool.false_ne_true (hall c hc)
    | full =>
      refine iff_of_false (by simp) ?_
      rintro ⟨-, -, hparent⟩
      obtain ⟨c, -, hc⟩ := hparent (List.cons_ne_nil _ _)
      exact Bool.false_ne_true hc.symm
    | node id bit off on =>
      obtain ⟨m, rfl⟩ := hfit.pos
      have hpick := pick_level hmin.2 hfit side
      have hall : (∀ c, side :: p <+: digits (m + 1) c → (node id bit off on).accepts c = true) ↔
          ∀ c, p <+: digits m c → (pick side off on).accepts c = true := by
        have hnone :
            (¬∃ c, side :: p <+: digits (m + 1) c ∧ (node id bit off on).accepts c = false) ↔
              ¬∃ c, p <+: digits m c ∧ (pick side off on).accepts c = false :=
          not_congr (exists_prefix_cons hn hfit)
        simpa using hnone
      rw [at?_cons, ih hpick.1 (Nat.le_of_lt hn) hpick.2, List.length_cons, Nat.succ_le_succ_iff,
        hall]
      refine and_congr_right fun _ => and_congr_right fun _ => ?_
      cases p with
      | nil =>
        -- the node itself rejects some value
        obtain ⟨c, -, hc⟩ := hmin.exists_accepts (b := false) hn hfit (by simp) 0
        simp only [ne_eq, not_true_eq_false, false_imp_iff, true_iff]
        exact fun _ => ⟨c, List.nil_prefix, hc⟩
      | cons side' p =>
        rw [List.dropLast_cons_cons, exists_prefix_cons hn hfit]
        simp

end Subtree

end BitClassifier
