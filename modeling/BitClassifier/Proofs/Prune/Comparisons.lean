import BitClassifier.Proofs.Prune.Derivation

/-!
# The account of comparisons

The pruner counts instructions in one place and builds the predicate in another. The count is right
for every plan (`Pruned.comparisons_eq`), and it is linear in the nodes of the tree: each of them
pays for two instructions, and a tree has one to spare (`Pruned.comparisons_le`). A tree whose root
has an only child has two to spare, since a chain is one test however long it is; this is what pays
for a region that was taken out before.
-/

namespace BitClassifier

namespace Subtree

variable {w : Width} {n : Nat} {s : Subtree} {r : Region} {p : Plan}

/-- The instructions counted for a plan are those of its predicate. -/
theorem Pruned.comparisons_eq (h : Pruned w n s r p) : p.comparisons = p.predicate.comparisons := by
  induction h with
  | chain => rfl
  | hole => rfl
  | narrow _ _ _ _ _ ih => exact congrArg (1 + ·) ih
  | twins _ _ _ _ ih => exact (Nat.zero_add _).trans ih
  | pop _ _ _ _ _ ih => exact congrArg (1 + ·) ih
  | fork _ _ _ _ ihOn ihOff => exact congrArg₂ (1 + · + ·) ihOn ihOff

theorem Pruned.comparisons_le (h : Pruned w n s r p) :
    p.comparisons ≤ 2 * s.size - 1 ∧
      (¬s.Forked → p.comparisons ≤ max 1 (2 * s.size - 2)) := by
  induction h with
  | @chain _ _ j _ h =>
    have hsize := size_pos h.node
    exact ⟨show 1 ≤ 2 * (plug j full).size - 1 by omega, fun _ => Nat.le_max_left _ _⟩
  | @hole _ s _ _ _ h =>
    have hsize := size_pos h.node
    exact ⟨show 1 ≤ 2 * s.size - 1 by omega, fun _ => Nat.le_max_left _ _⟩
  | @narrow _ _ j rest p _ _ _ hne _ hrest ih =>
    have hsize := size_pos hrest.pending.node
    have hplug := size_plug_le j rest
    have hlength := List.length_pos_iff.mpr hne
    show 1 + p.comparisons ≤ _ ∧ (_ → 1 + p.comparisons ≤ _)
    exact ⟨by omega, fun _ => by omega⟩
  | @twins _ _ _ off on _ p _ _ hforked _ _ ih =>
    show 0 + p.comparisons ≤ 2 * (1 + off.size + on.size) - 1 ∧ _
    exact ⟨by omega, fun hnot => absurd hforked hnot⟩
  | @pop _ _ f j p _ _ hforked _ hother _ ih =>
    have hlone := ih.2 fun hboth => (forked_fill.mp hboth).1 rfl
    have hsize := size_pos hother
    have hplug : (plug (j ++ [f]) full).size = 1 + (plug j full).size + f.other.size := by
      rw [plug_append]
      exact size_fill f (plug j full)
    rw [size_fill, size] at hlone
    show 1 + p.comparisons ≤ _ ∧ _
    exact ⟨by omega, fun hnot => absurd hforked hnot⟩
  | @fork _ _ _ off on _ p q _ hforked hOn hOff ihOn ihOff =>
    have hsizeOn := size_pos hOn.pending.node
    have hsizeOff := size_pos hOff.pending.node
    show 1 + p.comparisons + q.comparisons ≤ 2 * (1 + off.size + on.size) - 1 ∧ _
    exact ⟨by omega, fun hnot => absurd hforked hnot⟩

/-- The account for a whole trie. -/
theorem Sound.comparisons_whole (h : Sound w s) :
    (s.whole w).comparisons = (s.whole w).predicate.comparisons ∧
      (s.whole w).comparisons ≤ 2 * s.size - 1 := by
  rcases h.whole_cases with ⟨b, hconstant⟩ | hpruned
  · rw [hconstant]
    exact ⟨rfl, Nat.zero_le _⟩
  · exact ⟨hpruned.comparisons_eq, hpruned.comparisons_le.1⟩

end Subtree

/-- A run of the pruner in a trie with a history returns the number of instructions of the predicate
that it returns, which is at most one more than twice the nodes below the root. So it is for what
compiling reports. -/
theorem comparisons_exact_and_linear :
    (∀ {t : Trie} {w : Width} {S : Set CodeValue}, t.History w S →
      ∃ predicate q, (Pruner.start t).run = pure (predicate, q) ∧
        q.comparisons = predicate.comparisons ∧ q.comparisons ≤ 2 * t.len + 1) ∧
    ∀ (values : List CodeValue) (w : Width), ∃ out, compile values w = .ok out ∧
      out.comparisons = out.predicate.comparisons ∧ out.comparisons ≤ 2 * out.nodes + 1 := by
  constructor
  · intro t w S h
    obtain ⟨s, hrep, -⟩ := h.represents
    obtain ⟨t', b, hrun, -⟩ := Pruner.run_eq (p := .start t) hrep
    obtain ⟨heq, hle⟩ := hrep.sound.comparisons_whole
    have hlen := hrep.len_add_one
    have hcount : ((Pruner.start t).spend t' (s.whole w)).comparisons = (s.whole w).comparisons :=
      Nat.zero_add _
    refine ⟨_, _, hrun, hcount.trans heq, ?_⟩
    show ((Pruner.start t).spend t' (s.whole w)).comparisons ≤ _
    omega
  · intro values w
    obtain ⟨t, s, hrep, -, hrun⟩ := compile_eq values w
    obtain ⟨heq, hle⟩ := hrep.sound.comparisons_whole
    have hlen := hrep.len_add_one
    refine ⟨_, hrun, heq, ?_⟩
    show (s.whole w).comparisons ≤ 2 * t.len + 1
    omega

/-- The values 1 and 2 of a trie from which 7 was taken out again: three nodes below the root and
three instructions. -/
theorem comparisons_exact_and_linear_cleared :
    let w : Width := ⟨3, by decide, by decide⟩
    let t : Trie :=
      ⟨w, #[some ⟨4, .absent, .child 1, none⟩, some ⟨2, .child 3, .child 2, some 0⟩,
        some ⟨1, .full, .absent, some 1⟩, some ⟨1, .absent, .full, some 1⟩, none, none], 3⟩
    (∃ S, t.History w S) ∧
      ∃ predicate q, (Pruner.start t).run = pure (predicate, q) ∧
        q.comparisons = predicate.comparisons ∧ q.comparisons ≤ 2 * t.len + 1 := by
  intro w t
  let t₁ : Trie :=
    ⟨w, #[some ⟨4, .child 4, .child 1, none⟩, some ⟨2, .child 3, .child 2, some 0⟩,
      some ⟨1, .full, .absent, some 1⟩, some ⟨1, .absent, .full, some 1⟩,
      some ⟨2, .child 5, .absent, some 0⟩, some ⟨1, .full, .absent, some 4⟩], 5⟩
  have hsorted : Trie.ofSorted w [1, 2, 7] = pure t₁ := by cbv
  have hvalues : ∀ v ∈ ([1, 2, 7] : List CodeValue), w.contains v = true := by
    simp [w, Width.contains, Width.maxValue]
  have hclear : t₁.clear 0 true = pure (2, t) := by cbv
  have hlive : t₁.Live 0 := rfl
  have h := Trie.History.clear (.ofSorted hvalues hsorted) hlive hclear
  exact ⟨⟨_, h⟩, comparisons_exact_and_linear.1 h⟩

end BitClassifier
