import BitClassifier.Proofs.Trie.Ledger

/-!
# The entries of a trie

An operation that gives up nodes leaves their entries where they are: the array stays as long as it
was. Only a new node makes it longer, by one entry.
-/

namespace BitClassifier

namespace Trie

variable {t t' : Trie} {s x : Slot} {id held m released : Nat} {side : Bool}

theorem putSlot_size (h : t.putSlot id side x = pure t') : t'.nodes.size = t.nodes.size := by
  obtain ⟨n, -, h⟩ := Run.bind_eq_pure.mp h
  obtain rfl := Run.pure_inj.mp h
  exact Array.size_setIfInBounds

theorem uncount_size (h : t.uncount = pure t') : t'.nodes.size = t.nodes.size := by
  unfold uncount at h
  split at h
  · cases h
  · obtain rfl := Run.pure_inj.mp h
    rfl

theorem uncount_count (h : t.uncount = pure t') : t'.count + 1 = t.count := by
  unfold uncount at h
  split at h
  · cases h
  · obtain rfl := Run.pure_inj.mp h
    show t.count - 1 + 1 = t.count
    omega

theorem putSlotOf_size (h : t.putSlotOf id held x = pure t') : t'.nodes.size = t.nodes.size := by
  obtain ⟨n, -, h⟩ := Run.bind_eq_pure.mp h
  split at h
  · obtain rfl := Run.pure_inj.mp h
    exact Array.size_setIfInBounds
  · split at h
    · obtain rfl := Run.pure_inj.mp h
      exact Array.size_setIfInBounds
    · cases h

theorem free_size (h : t.free id = pure t') : t'.nodes.size = t.nodes.size := by
  unfold free at h
  split at h
  · cases h
  · split at h
    · obtain rfl := Run.pure_inj.mp h
      rfl
    · split at h
      · cases h
      · rw [uncount_size h]
        exact Array.size_setIfInBounds

/-- A cascade ends at once, or replaces one node and goes on from the parent. -/
theorem cascade_cases (h : cascade s t id = pure (m, t')) :
    m = 0 ∧ t' = t ∨ ∃ parent t₁ t₂ rest, m = rest + 1 ∧ t.putSlotOf parent id s = pure t₁ ∧
      t₁.free id = pure t₂ ∧ cascade s t₂ parent = pure (rest, t') := by
  rw [cascade] at h
  obtain ⟨n, -, h⟩ := Run.bind_eq_pure.mp h
  split at h
  · obtain ⟨rfl, rfl⟩ := Run.pure_mk_inj.mp h
    exact .inl ⟨rfl, rfl⟩
  · split at h
    · obtain ⟨t₁, hput, h⟩ := Run.bind_eq_pure.mp h
      obtain ⟨t₂, hfree, h⟩ := Run.bind_eq_pure.mp h
      obtain ⟨⟨rest, t₃⟩, hrest, h⟩ := Run.bind_eq_pure.mp h
      obtain ⟨rfl, rfl⟩ := Run.pure_mk_inj.mp h
      exact .inr ⟨_, t₁, t₂, rest, rfl, hput, hfree, hrest⟩
    · obtain ⟨rfl, rfl⟩ := Run.pure_mk_inj.mp h
      exact .inl ⟨rfl, rfl⟩

/-- The induction is on the number of nodes that the cascade replaces. -/
theorem cascade_size (h : cascade s t id = pure (m, t')) : t'.nodes.size = t.nodes.size := by
  induction m generalizing t id with
  | zero =>
    obtain ⟨-, rfl⟩ | ⟨_, _, _, _, hm, -⟩ := cascade_cases h
    · rfl
    · exact absurd hm.symm (Nat.succ_ne_zero _)
  | succ m ih =>
    obtain ⟨hm, -⟩ | ⟨parent, t₁, t₂, rest, hm, hput, hfree, hrest⟩ := cascade_cases h
    · exact absurd hm (Nat.succ_ne_zero m)
    · obtain rfl : m = rest := Nat.succ.inj hm
      rw [ih hrest, free_size hfree, putSlotOf_size hput]

/-- Each round takes a number off the stack or counts a node less. -/
theorem releaseAll_size {stack : List Nat} (h : t.releaseAll stack released = pure (m, t')) :
    t'.nodes.size = t.nodes.size := by
  induction hcount : t.count using Nat.strongRecOn generalizing t stack released with
  | _ count ih =>
    induction stack with
    | nil =>
      rw [releaseAll] at h
      obtain ⟨-, rfl⟩ := Run.pure_mk_inj.mp h
      rfl
    | cons id stack ihStack =>
      rw [releaseAll] at h
      split at h
      · exact ihStack h
      · obtain ⟨t₁, huncount, h⟩ := Run.bind_eq_pure.mp h
        have hless := uncount_count huncount
        change t₁.count + 1 = t.count at hless
        rw [ih t₁.count (by omega) h rfl, uncount_size huncount]
        exact Array.size_setIfInBounds

theorem releaseSlot_size (h : t.releaseSlot x = pure (m, t')) : t'.nodes.size = t.nodes.size := by
  cases x with
  | child id => exact releaseAll_size h
  | absent | full =>
    obtain ⟨-, rfl⟩ := Run.pure_mk_inj.mp h
    rfl

/-- Clearing makes no new entries. -/
theorem clear_size (h : t.clear id side = pure (m, t')) : t'.nodes.size = t.nodes.size := by
  obtain ⟨n, -, h⟩ := Run.bind_eq_pure.mp h
  obtain ⟨t₁, hput, h⟩ := Run.bind_eq_pure.mp h
  obtain ⟨⟨m₂, t₂⟩, hrelease, h⟩ := Run.bind_eq_pure.mp h
  obtain ⟨⟨m₃, t₃⟩, hremove, h⟩ := Run.bind_eq_pure.mp h
  obtain ⟨-, rfl⟩ := Run.pure_mk_inj.mp h
  rw [cascade_size hremove, releaseSlot_size hrelease, putSlot_size hput]

end Trie

end BitClassifier
