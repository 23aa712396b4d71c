import BitClassifier.Proofs.Prune.SingleTest
import BitClassifier.Proofs.Trie.Removal
import BitClassifier.Proofs.Trie.WellFormed

/-!
# Searches for a single block

Before the pruner jumps, it looks for a subtree that accepts a single aligned block, or one that
rejects a single one. Both searches are exact (`History.searches_exact`): they end with an answer
exactly if there is such a block, and the answer describes it.

The values below a node are those of a smaller width, whose highest bit the node tests. In a minimal
tree the values with one answer form a block exactly if the tree is the leaf for this answer at the
end of a spine with the other leaf beside every node (`Minimal.exists_spine_of_block`,
`exists_block_of_spine`), and such a spine is what either search follows.
-/

namespace BitClassifier

open BitVec Subtree

namespace Width

/-- The values of a width that are given an answer. -/
def answered (v : Width) (accepted : CodeValue → Bool) (b : Bool) : Set CodeValue :=
  {c | v.contains c = true ∧ accepted c = b}

/-- A set is the block of the values whose topmost `d` bits are the digits of `p`. -/
structure IsBlock (v : Width) (A : Set CodeValue) (d p : Nat) : Prop where
  depth_le : d ≤ v.bits
  number_lt : p < 2 ^ d
  eq_block : A = v.block d p

/-- There is an answer exactly if the set is a single block, and then the answer describes the
block. -/
structure Exact {α : Type} (v : Width) (A : Set CodeValue) (answer : Option α)
    (Describes : α → Nat → Nat → Prop) : Prop where
  isSome_iff : answer.isSome = true ↔ ∃ d p, v.IsBlock A d p
  describes : ∀ x, answer = some x → ∃ d p, v.IsBlock A d p ∧ Describes x d p

variable {v : Width} {A : Set CodeValue} {d p : Nat}

theorem Exact.intro {α : Type} {answer : Option α} {Describes : α → Nat → Nat → Prop}
    (hsome : ∀ d p, v.IsBlock A d p → ∃ x, answer = some x)
    (hdescribes : ∀ x, answer = some x → ∃ d p, v.IsBlock A d p ∧ Describes x d p) :
    v.Exact A answer Describes where
  isSome_iff := by
    rw [Option.isSome_iff_exists]
    constructor
    · rintro ⟨x, hx⟩
      obtain ⟨d, p, hblock, -⟩ := hdescribes x hx
      exact ⟨d, p, hblock⟩
    · rintro ⟨d, p, hblock⟩
      exact hsome d p hblock
  describes := hdescribes

/-- A block has a value. -/
theorem IsBlock.nonempty (h : v.IsBlock A d p) : A.Nonempty := by
  have hprefix := digits_prefix_topValue h.depth_le h.number_lt
  exact ⟨_, h.eq_block ▸ (residue_mem_block_iff h.depth_le h.number_lt).mpr hprefix⟩

end Width

/-- A region describes a block of values of a width below another region: it fixes the bits of the
block and those of the other region. If the latter leaves the bits of the width free, the values of
the region are those of the other one that end in a value of the block. -/
structure Region.Describes (q r : Region) (v : Width) (d p : Nat) : Prop where
  fixes : q = ⟨r.mask ||| v.topMask d, r.value ||| v.topValue d p⟩
  covers_iff : r.FreeBelow v.bits →
    ∀ c, q.covers c = true ↔ r.covers c = true ∧ v.residue c ∈ v.block d p

namespace Subtree

variable {v : Width} {s : Subtree} {r : Region} {f : Frame} {j : Spine} {m d p : Nat} {b : Bool}
  {c : CodeValue}

/-! ## Blocks and spines -/

/-- The answers of a tree do not depend on the bits above it, so a block is told by all values. -/
theorem isBlock_answered_iff (hfit : s.Fits v.bits) (hd : d ≤ v.bits) (hp : p < 2 ^ d) :
    v.IsBlock (v.answered s.accepts b) d p ↔
      ∀ c, s.accepts c = b ↔ digits d (BitVec.ofNat 32 p) <+: digits v.bits c := by
  have hresidue (c : CodeValue) : s.accepts (v.residue c) = s.accepts c :=
    accepts_congr v.le_widest hfit (v.agreeBelow_residue c)
  constructor
  · intro h c
    rw [← Width.residue_mem_block_iff hd hp, ← h.eq_block, ← hresidue]
    exact (and_iff_right (v.contains_residue c)).symm
  · intro h
    refine ⟨hd, hp, Set.ext fun c => ?_⟩
    rw [Width.mem_block_iff hd hp]
    exact and_congr_right fun _ => h c

/-- The values that are given an answer form a block only if the tree is the leaf for this answer,
at the end of a spine with the other leaf beside every node. -/
theorem Minimal.exists_spine_of_block (hmin : s.Minimal) (hfit : s.Fits v.bits)
    (h : v.IsBlock (v.answered s.accepts b) d p) :
    ∃ j : Spine, s = plug j (leaf b) ∧ ∀ f ∈ j, f.other = leaf (!b) := by
  have hsum := Nat.sub_add_cancel h.depth_le
  have hbits : ∀ c, s.accepts c = b ↔ ∀ i, v.bits - d ≤ i → i < v.bits - d + d →
      c.getLsbD i = (v.topValue d p).getLsbD i := by
    intro c
    rw [(isBlock_answered_iff hfit h.depth_le h.number_lt).mp h c,
      Width.digits_prefix_iff_top h.depth_le h.number_lt, hsum]
  obtain ⟨j, -, hplug, hj⟩ :=
    hmin.exists_spine (hsum.symm ▸ v.le_widest) (hsum.symm ▸ hfit) hbits
  exact ⟨j, hplug, hj⟩

/-- Down a spine a region takes in the bits of the values that lead there. -/
theorem Above.getLsbD_along (h : Above v j m) (hc : Follows j c) (r : Region) (i : Nat) :
    (r.along j).mask.getLsbD i =
        (r.mask.getLsbD i || (decide (m ≤ i) && decide (i < v.bits))) ∧
      (r.along j).value.getLsbD i =
        (r.value.getLsbD i || (decide (m ≤ i) && decide (i < v.bits) && c.getLsbD i)) := by
  induction j generalizing m with
  | nil =>
    obtain rfl : m = v.bits := h
    have hout : (decide (v.bits ≤ i) && decide (i < v.bits)) = false := by simp
    simp [Region.along, hout]
  | cons f j ih =>
    obtain ⟨hbit, -, -, habove⟩ := h
    have hm := habove.lt_widest
    have hle := habove.le
    rw [follows_cons, hbit, hits_twoPow hm] at hc
    obtain ⟨hmask, hvalue⟩ := ih habove hc.2
    rw [Region.along_cons, hbit, Region.getLsbD_mask_fix hm, Region.getLsbD_value_fix hm, hmask,
      hvalue, ← hc.1]
    -- the bit of the frame is new, and all others are taken in further up
    by_cases hi : m = i
    · subst hi
      simp [Nat.lt_of_succ_le hle]
    · have hrange : decide (m + 1 ≤ i) = decide (m ≤ i) := by grind
      rw [hrange, decide_eq_false hi]
      simp

/-- The region of a spine, told by the number of the block to which the spine leads. -/
theorem Above.along_eq (h : Above v j m) (hp : p < 2 ^ j.length)
    (hpath : path j = digits j.length (BitVec.ofNat 32 p)) (r : Region) :
    r.along j = ⟨r.mask ||| v.topMask j.length, r.value ||| v.topValue j.length p⟩ := by
  have hlength := h.length_add
  have hle : j.length ≤ v.bits := by omega
  obtain rfl : m = v.bits - j.length := by omega
  have hfollows : Follows j (v.topValue j.length p) := by
    rw [h.follows_iff_path, hpath]
    exact Width.digits_prefix_topValue hle hp
  have hmask : (r.along j).mask = r.mask ||| v.topMask j.length := by
    apply eq_of_getLsbD_eq
    intro i _
    rw [(h.getLsbD_along hfollows r i).1, getLsbD_or, Width.getLsbD_topMask hle]
  have hvalue : (r.along j).value = r.value ||| v.topValue j.length p := by
    apply eq_of_getLsbD_eq
    intro i _
    rw [(h.getLsbD_along hfollows r i).2, getLsbD_or, Width.getLsbD_topValue hle hp,
      Bool.and_self_left]
  rw [← hmask, ← hvalue]

/-- A spine with a leaf at its end and the other leaf beside every node leads to a block. -/
theorem exists_block_of_spine (hfit : (plug j (leaf b)).Fits v.bits)
    (hsides : (plug j (leaf b)).SidesMinimal) (hj : ∀ f ∈ j, f.other = leaf (!b)) :
    ∃ p, v.IsBlock (v.answered (plug j (leaf b)).accepts b) j.length p ∧
      path j = digits j.length (BitVec.ofNat 32 p) ∧
      ∀ r : Region, (r.along j).Describes r v j.length p := by
  obtain ⟨m, habove, -⟩ := exists_above hfit hsides
  have hlength := habove.length_add
  have hle : j.length ≤ v.bits := by omega
  obtain ⟨p, hp, hdigits⟩ := exists_digits_eq (p := path j)
    (by rw [length_path]; exact Nat.le_trans hle v.le_widest)
  rw [length_path] at hp hdigits
  have hfollows (c : CodeValue) :
      Follows j c ↔ digits j.length (BitVec.ofNat 32 p) <+: digits v.bits c := by
    rw [habove.follows_iff_path, hdigits]
  refine ⟨p, (isBlock_answered_iff hfit hle hp).mpr fun c => ?_, hdigits.symm,
    fun r => ⟨habove.along_eq hp hdigits.symm r, fun hr c => ?_⟩⟩
  · rw [accepts_plug_beside hj, accepts_leaf, hfollows]
    exact and_iff_left rfl
  · obtain ⟨i, -, -, -, hcovers⟩ := along_free hfit v.le_widest hr
    rw [hcovers, hfollows, Width.residue_mem_block_iff hle hp]

theorem found?_plug (hj : Lone (f :: j)) (r : Region) :
    (plug (f :: j) full).found? r =
      some ⟨f.id, f.side, r.along (f :: j), j.length + 1⟩ := by
  rw [found?, core_plug hj (by simp)]
  rfl

/-- A tree that gives both answers is minimal if its sides are. -/
theorem SidesMinimal.minimal_of_both (h : s.SidesMinimal) (hboth : ∀ b, ∃ c, s.accepts c = b) :
    s.Minimal := by
  cases s with
  | absent => trivial
  | full => trivial
  | node id bit off on =>
    refine ⟨fun b hb => ?_, h⟩
    obtain ⟨c, hc⟩ := hboth (!b)
    rw [accepts, hb.1, hb.2, accepts_leaf, ite_self] at hc
    exact Bool.self_ne_not b hc

end Subtree

namespace Trie

/-- What a trie that ought to hold `S` decides at a node. The values that lead to the node have a
path in common, and what is left of them, a value of width `v`, is accepted below the node if the
whole value is in the set. -/
structure DecidesAt (t : Trie) (S : Set CodeValue) (id : Nat) (v : Width)
    (accepted : CodeValue → Bool) : Prop where
  bit : ∃ n, t.cell? id = some n ∧ n.bit = v.highBit
  accepts : ∀ c, t.accepts c id = pure (accepted c)
  member_iff : ∃ path, t.idAt? path = some id ∧ path.length + v.bits = t.width.bits ∧
    ∀ c, path <+: digits t.width.bits c →
      (accepted (v.residue c) = true ↔ t.width.residue c ∈ S)

end Trie

/-- A found slot tells a block of the values below a node: its region describes the block, as many
bits were fixed as the block has digits, and the digits lead from the node to the slot, which
accepts. -/
structure Found.Tells (found : Found) (t : Trie) (id : Nat) (r : Region) (v : Width)
    (d p : Nat) : Prop where
  region : found.region.Describes r v d p
  depth : found.depth = d
  slot : ∃ path n, path ++ [found.side] = digits d (BitVec.ofNat 32 p) ∧
    t.walk? id path = some found.id ∧ t.cell? found.id = some n ∧ n.slot found.side = .full

namespace Trie

variable {t : Trie} {w v : Width} {k : Spine} {s x : Subtree} {S : Set CodeValue} {id : Nat}

/-! ## The searches of a trie -/

/-- The accepting slot at the end of a spine is found along the path of the spine. -/
theorem Shows.slot_of_spine {f : Frame} {j : Spine} (h : t.Shows w (plug k (plug (f :: j) full)))
    (hid : (plug (f :: j) full).slot = .child id) :
    t.walk? id (path j) = some f.id ∧ ∃ n, t.cell? f.id = some n ∧ n.slot f.side = .full := by
  refine ⟨(h.walk?_eq_some hid _ _).mpr ⟨j, f.fill full, rfl, f.fill_slot full, rfl⟩, ?_⟩
  rw [← plug_append] at h
  exact ⟨_, (Shows.opened (k := j ++ k) h).cell?_eq, f.node_slot _ _⟩

theorem Shows.findRegion_exact (h : t.Shows w (plug k x)) (hx : x.slot = .child id)
    (hmin : x.Minimal) (hfit : x.Fits v.bits) (r : Region) :
    ∃ answer, t.findRegion (.child id) r = pure answer ∧
      v.Exact (v.answered x.accepts true) answer fun found d p => found.Tells t id r v d p := by
  have hnode := isNode_of_slot hx
  refine ⟨x.found? r, hx ▸ h.findRegion hnode r,
    .intro (fun d p hblock => ?_) fun found hfound => ?_⟩
  · obtain ⟨j, rfl, hj⟩ := hmin.exists_spine_of_block hfit hblock
    obtain ⟨f, j, rfl⟩ := List.exists_cons_of_ne_nil (ne_nil_of_isNode_plug hnode rfl)
    exact ⟨_, found?_plug hj r⟩
  · obtain ⟨f, j, rfl, hj, rfl⟩ := found?_eq_some hfound
    obtain ⟨p, hblock, hpath, hdescribes⟩ :=
      exists_block_of_spine (b := true) hfit hmin.sidesMinimal hj
    obtain ⟨hwalk, n, hcell, hslot⟩ := h.slot_of_spine hx
    exact ⟨_, p, hblock, hdescribes r, rfl, path j, n, (path_cons f j).symm.trans hpath, hwalk,
      hcell, hslot⟩

theorem Shows.findHole_exact (h : t.Shows w (plug k x)) (hx : x.slot = .child id)
    (hsides : x.SidesMinimal) (hfit : x.Fits v.bits) (hsome : ∃ c, x.accepts c = true)
    (r : Region) :
    ∃ answer, t.findHole id r = pure answer ∧
      v.Exact (v.answered x.accepts false) answer fun hole d p => hole.Describes r v d p := by
  refine ⟨x.hole? r, h.findHole hx r, .intro (fun d p hblock => ?_) fun hole hhole => ?_⟩
  · -- both answers are given, so not even the root has the same leaf on both sides
    obtain ⟨c, -, hc⟩ := hblock.nonempty
    have hmin := hsides.minimal_of_both fun b => by
      cases b with
      | false => exact ⟨c, hc⟩
      | true => exact hsome
    obtain ⟨j, rfl, hj⟩ := hmin.exists_spine_of_block hfit hblock
    exact ⟨_, hole?_plug hj (by simp)⟩
  · obtain ⟨j, rfl, hj, rfl⟩ := hole?_eq_some hhole
    obtain ⟨p, hblock, -, hdescribes⟩ := exists_block_of_spine (b := false) hfit hsides hj
    exact ⟨_, p, hblock, hdescribes r⟩

/-- The place of a node is on a level of its own, that of the width below the node. -/
theorem Represents.decidesAt (h : t.Represents w (plug k x)) (hx : x.slot = .child id)
    (hS : ∀ c, (plug k x).accepts c = true ↔ w.residue c ∈ S) :
    ∃ v : Width, x.Fits v.bits ∧ x.SidesMinimal ∧ (k ≠ [] → x.Minimal) ∧
      t.DecidesAt S id v x.accepts := by
  obtain ⟨bit, off, on, rfl⟩ := slot_eq_child.mp hx
  obtain ⟨m, habove, hfit, hsides, hmin⟩ := exists_above h.sound.fits h.sound.sides
  obtain ⟨m, rfl⟩ := hfit.pos
  let v : Width := ⟨m + 1, Nat.succ_pos m, Nat.le_trans habove.le w.le_widest⟩
  refine ⟨v, hfit, hsides, hmin, ⟨_, h.shows.cell?_eq, hfit.1⟩, h.shows.accepts hx, ?_⟩
  rw [h.shows.holds.width]
  refine ⟨path k, h.shows.idAt?_path hx, ?_, fun c hc => ?_⟩
  · rw [length_path]
    exact habove.length_add
  · rw [← hS, accepts_plug_of_follows ((habove.follows_iff_path c).mpr hc),
      accepts_congr v.le_widest hfit (v.agreeBelow_residue c)]

/-- The searches of the pruner are exact in every trie with a history, and they end. From a slot
that holds a node, a region is found exactly if the values accepted below the slot are a single
block, and what is found tells this block. At a node that accepts some value, a hole is found
exactly if the values rejected below the node are a single block, and the hole describes this
block. -/
theorem History.searches_exact (h : t.History w S) :
    (∀ {above n side id}, t.cell? above = some n → n.slot side = .child id →
      ∃ v accepted, t.DecidesAt S id v accepted ∧ ∀ r, ∃ answer,
        t.findRegion (n.slot side) r = pure answer ∧
        v.Exact (v.answered accepted true) answer fun found d p => found.Tells t id r v d p) ∧
    ∀ {id}, t.Live id →
      ∃ v accepted, t.DecidesAt S id v accepted ∧ ((∃ c, accepted c = true) → ∀ r, ∃ answer,
        t.findHole id r = pure answer ∧
        v.Exact (v.answered accepted false) answer fun hole d p => hole.Describes r v d p) := by
  obtain ⟨s, hrep, hS⟩ := h.represents
  constructor
  · intro above n side id hcell hslot
    obtain ⟨k, f, bit, off, on, rfl, -⟩ := hrep.shows.exists_below hcell hslot
    obtain ⟨v, hfit, -, hmin, hdecides⟩ := hrep.decidesAt rfl hS
    rw [hslot]
    exact ⟨v, _, hdecides, hrep.shows.findRegion_exact rfl (hmin (List.cons_ne_nil _ _)) hfit⟩
  · intro id hlive
    obtain ⟨n, hcell⟩ := Option.isSome_iff_exists.mp hlive
    obtain ⟨k, bit, off, on, rfl, -⟩ := hrep.shows.exists_node hcell
    obtain ⟨v, hfit, hsides, -, hdecides⟩ := hrep.decidesAt rfl hS
    exact ⟨v, _, hdecides, hrep.shows.findHole_exact rfl hsides hfit⟩

/-- In the upper half of three bits only 6 is accepted, and in the lower half only 2 is not. -/
theorem History.searches_exact_pair :
    let w : Width := ⟨3, by decide, by decide⟩
    let root : Node := ⟨4, .child 4, .child 1, none⟩
    let t : Trie := ⟨w, #[some root, some ⟨2, .child 3, .full, some 0⟩, none,
      some ⟨1, .full, .absent, some 1⟩, some ⟨2, .child 5, .absent, some 0⟩,
      some ⟨1, .absent, .full, some 4⟩], 4⟩
    let S : Set CodeValue := {v | v ∈ [0#32, 1#32, 3#32, 6#32]}
    let found : Found := ⟨5, false, ⟨7, 6⟩, 2⟩
    let hole : Region := ⟨7, 2⟩
    t.History w S ∧
      (t.cell? 0 = some root ∧ root.slot true = .child 4 ∧
        ∃ v accepted, t.DecidesAt S 4 v accepted ∧
          t.findRegion (root.slot true) ⟨4, 4⟩ = pure (some found) ∧
          v.Exact (v.answered accepted true) (some found)
            fun found d p => found.Tells t 4 ⟨4, 4⟩ v d p) ∧
      t.Live 1 ∧ ∃ v accepted, t.DecidesAt S 1 v accepted ∧ (∃ c, accepted c = true) ∧
        t.findHole 1 ⟨4, 0⟩ = pure (some hole) ∧
        v.Exact (v.answered accepted false) (some hole)
          fun hole d p => hole.Describes ⟨4, 0⟩ v d p := by
  intro w root t S found hole
  have hsorted : Trie.ofSorted w [0, 1, 3, 6] = pure t := by cbv
  have hvalues : ∀ v ∈ ([0, 1, 3, 6] : List CodeValue), w.contains v = true := by
    simp [w, Width.contains, Width.maxValue]
  have h : t.History w S := .ofSorted hvalues hsorted
  have hcell : t.cell? 0 = some root := rfl
  have hslot : root.slot true = .child 4 := rfl
  have hlive : t.Live 1 := rfl
  have hfound : t.findRegion (root.slot true) ⟨4, 4⟩ = pure (some found) := by cbv
  have hhole : t.findHole 1 ⟨4, 0⟩ = pure (some hole) := by cbv
  have hzero : t.accepts 0 1 = pure true := by cbv
  obtain ⟨v, accepted, hdecides, hregions⟩ := (History.searches_exact h).1 hcell hslot
  obtain ⟨answer, hanswer, hexact⟩ := hregions ⟨4, 4⟩
  obtain rfl := Run.pure_inj.mp (hanswer.symm.trans hfound)
  obtain ⟨v', accepted', hdecides', hholes⟩ := (History.searches_exact h).2 hlive
  have hsome : ∃ c, accepted' c = true :=
    ⟨0, Run.pure_inj.mp ((hdecides'.accepts 0).symm.trans hzero)⟩
  obtain ⟨answer', hanswer', hexact'⟩ := hholes hsome ⟨4, 0⟩
  obtain rfl := Run.pure_inj.mp (hanswer'.symm.trans hhole)
  exact ⟨h, ⟨hcell, hslot, v, accepted, hdecides, hfound, hexact⟩, hlive, v', accepted',
    hdecides', hsome, hhole, hexact'⟩

end Trie

end BitClassifier
