import BitClassifier.Proofs.Prune.Derivation

/-!
# Normal form

A compiled predicate is a constant only if its set is empty or the whole domain. In every other case
it is in normal form (`Predicate.Normal`), which says what the pruner never emits: constants, tests
that are no test of a region of the domain, anything but a plain test on the left of a conjunction
or disjunction, and jumps that do not go down through the bits of the domain.
-/

namespace BitClassifier

open BitVec

/-- Predicates over the domain without constants, in which a test stands on the left of every
conjunction and disjunction, only a test with nothing behind it may be negated, and every jump is
made on a bit below `2 ^ n` and below the bits of the jumps before it. -/
inductive Predicate.Normal (w : Width) : (n : Nat) → Predicate → Prop where
  | bitTest {n : Nat} {mask value : CodeValue} {equals : Bool} :
      Region.Proper w ⟨mask, value⟩ → Normal w n (.bitTest mask value equals)
  | and {n : Nat} {mask value : CodeValue} {right : Predicate} :
      Region.Proper w ⟨mask, value⟩ → Normal w n right →
      Normal w n (.and (.bitTest mask value true) right)
  | or {n : Nat} {mask value : CodeValue} {right : Predicate} :
      Region.Proper w ⟨mask, value⟩ → Normal w n right →
      Normal w n (.or (.bitTest mask value true) right)
  | cond {m n : Nat} {on off : Predicate} :
      m < n → Normal w m on → Normal w m off → Normal w n (.cond (twoPow 32 m) on off)

variable {w : Width} {m n : Nat}

theorem Predicate.Normal.mono {p : Predicate} (h : p.Normal w m) (hle : m ≤ n) :
    p.Normal w n := by
  induction h with
  | bitTest hproper => exact .bitTest hproper
  | and hproper _ ih => exact .and hproper (ih hle)
  | or hproper _ ih => exact .or hproper (ih hle)
  | cond hlt hOn hOff => exact .cond (Nat.lt_of_lt_of_le hlt hle) hOn hOff

theorem Predicate.Normal.within {p : Predicate} (h : p.Normal w n) (hn : n ≤ w.bits) :
    p.Within w := by
  induction h with
  | bitTest hproper => exact hproper.within
  | and hproper _ ih => exact ⟨hproper.within, ih hn⟩
  | or hproper _ ih => exact ⟨hproper.within, ih hn⟩
  | cond hlt _ _ ihOn ihOff =>
    have hle := Nat.le_of_lt (Nat.lt_of_lt_of_le hlt hn)
    exact ⟨Width.contains_twoPow (Nat.lt_of_lt_of_le hlt hn), ihOn hle, ihOff hle⟩

namespace Subtree

variable {s : Subtree} {r : Region} {p : Plan}

theorem Pruned.normal (h : Pruned w n s r p) : p.predicate.Normal w n := by
  induction h with
  | chain h _ hne => exact .bitTest (h.proper_along hne)
  | hole h _ hhole => exact .bitTest (h.proper_hole hhole)
  | narrow h _ hne _ _ ih =>
    exact .and (h.proper_along hne) (ih.mono (Nat.le_add_right _ _))
  | twins _ _ _ _ ih => exact ih.mono (Nat.le_succ _)
  | pop h _ _ _ _ ih => exact .or (h.proper_along (by simp)) ih
  | fork h _ _ _ ihOn ihOff =>
    obtain ⟨rfl, -, -⟩ := h.fits
    exact .cond (Nat.lt_succ_self _) ihOn ihOff

theorem whole_leaf (answer : Bool) :
    (node 0 w.highBit (leaf answer) (leaf answer)).whole w = ⟨.constant answer, 0, []⟩ := by
  cases answer <;> simp [whole]

/-- The predicate of a whole trie is a constant only if the trie gives one answer. -/
theorem Sound.whole_eq_constant_iff (h : Sound w s) (answer : Bool) :
    (s.whole w).predicate = .constant answer ↔ ∀ c, s.accepts c = answer := by
  constructor
  · intro hconstant c
    rw [← h.eval_whole c, hconstant]
    rfl
  · intro hall
    rw [(h.accepts_all_iff answer).mp hall, whole_leaf]

theorem Sound.constant_or_normal (h : Sound w s) :
    (∃ answer, (s.whole w).predicate = .constant answer) ∨
      (s.whole w).predicate.Normal w w.bits := by
  rcases h.whole_cases with ⟨answer, hconstant⟩ | hpruned
  · exact .inl ⟨answer, by rw [hconstant]⟩
  · exact .inr hpruned.normal

theorem Sound.within_whole (h : Sound w s) : (s.whole w).predicate.Within w := by
  rcases h.constant_or_normal with ⟨answer, hconstant⟩ | hnormal
  · rw [hconstant]
    trivial
  · exact hnormal.within (Nat.le_refl _)

end Subtree

/-- A compiled predicate decides membership in the domain, and its masks and bits lie within it. -/
theorem compile_within (values : List CodeValue) (w : Width) :
    ∃ out, compile values w = .ok out ∧ out.predicate.Within w ∧
      ∀ c, w.contains c = true → (out.predicate.eval c = true ↔ c ∈ values) := by
  obtain ⟨t, s, hrep, haccepts, hrun⟩ := compile_eq values w
  refine ⟨_, hrun, hrep.sound.within_whole, fun c hc => ?_⟩
  rw [hrep.sound.eval_whole, haccepts, Width.residue_of_contains hc]

/-- A compiled predicate is `false` exactly if no value of the domain is listed and `true` exactly
if all of them are. Otherwise it is in normal form, with jumps on bits of the domain. -/
theorem compile_normal (values : List CodeValue) (w : Width) :
    ∃ out, compile values w = .ok out ∧
      (out.predicate = .constant false ↔ ¬∃ v ∈ values, w.contains v = true) ∧
      (out.predicate = .constant true ↔ ∀ v, w.contains v = true → v ∈ values) ∧
      (out.predicate ≠ .constant false → out.predicate ≠ .constant true →
        out.predicate.Normal w w.bits) := by
  obtain ⟨t, s, hrep, haccepts, hrun⟩ := compile_eq values w
  have hmem {v : CodeValue} (hv : w.contains v = true) : s.accepts v = true ↔ v ∈ values := by
    rw [haccepts, Width.residue_of_contains hv]
  refine ⟨_, hrun, ?_, ?_, ?_⟩
  · rw [hrep.sound.whole_eq_constant_iff]
    constructor
    · rintro hnone ⟨v, hv, hdomain⟩
      have hacc := (hmem hdomain).mpr hv
      rw [hnone v] at hacc
      cases hacc
    · intro hnone c
      rw [← Bool.not_eq_true, haccepts]
      exact fun hc => hnone ⟨_, hc, w.contains_residue c⟩
  · rw [hrep.sound.whole_eq_constant_iff]
    constructor
    · intro hall v hv
      exact (hmem hv).mp (hall v)
    · intro hall c
      exact (haccepts c).mpr (hall _ (w.contains_residue c))
  · intro hfalse htrue
    rcases hrep.sound.constant_or_normal with ⟨answer, hconstant⟩ | hnormal
    · cases answer
      · exact absurd hconstant hfalse
      · exact absurd hconstant htrue
    · exact hnormal

/-- Of four listed values three lie in a domain of 3 bits. -/
theorem compile_normal_some :
    let values : List CodeValue := [4#32, 9#32, 2#32, 1#32]
    let w : Width := ⟨3, by decide, by decide⟩
    (∃ v ∈ values, w.contains v = true) ∧ (∃ v, w.contains v = true ∧ v ∉ values) ∧
      ∃ out, compile values w = .ok out ∧ out.predicate.Normal w 3 := by
  intro values w
  have hsome : ∃ v ∈ values, w.contains v = true := ⟨4#32, by simp [values], by decide⟩
  have hmissing : ∃ v, w.contains v = true ∧ v ∉ values := ⟨3#32, by decide, by simp [values]⟩
  obtain ⟨out, hrun, hfalse, htrue, hnormal⟩ := compile_normal values w
  refine ⟨hsome, hmissing, out, hrun, hnormal ?_ ?_⟩
  · exact fun h => hfalse.mp h hsome
  · intro h
    obtain ⟨v, hv, hnot⟩ := hmissing
    exact hnot (htrue.mp h v hv)

end BitClassifier
