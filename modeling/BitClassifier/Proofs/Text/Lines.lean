import BitClassifier.Proofs.Text.Rows
import BitClassifier.Text.Line

/-!
# The lines of a text

Cutting a text into lines goes forward over the longest row of characters that end no line, then over
one end of a line (`Line.split_eq`). A text that ends with a line feed has the lines before that end
and one empty line behind it, and what is put behind such a text keeps its own lines.
-/

namespace BitClassifier.Line

/-- The characters that do not end a line. -/
def isInner (c : Char) : Bool :=
  c != '\n' && c != '\r'

/-- What stands behind the end of a line, and the number of line feeds in that end. -/
def ending? : List Char → Option (Nat × List Char)
  | '\r' :: '\n' :: rest => some (1, rest)
  | '\r' :: rest => some (0, rest)
  | '\n' :: rest => some (1, rest)
  | _ => none

variable {number feeds : Nat} {begun cs rest : List Char}

theorem length_ending? (h : ending? cs = some (feeds, rest)) : rest.length < cs.length := by
  unfold ending? at h
  split at h <;> grind

theorem ending?_eq_none (h : Begins isInner cs) : ending? cs = none ↔ cs = [] := by
  cases cs with
  | nil => simp [ending?]
  | cons c cs =>
    have hc : c = '\n' ∨ c = '\r' := by
      have hinner := begins_cons.mp h
      grind [isInner]
    rcases hc with rfl | rfl
    · simp [ending?]
    · cases cs with
      | nil => simp [ending?]
      | cons c cs => by_cases hc : c = '\n' <;> simp [ending?, hc]

/-- A text begins with one line, and the others follow behind the end of that line. -/
theorem split_eq (number : Nat) (begun cs : List Char) :
    split number begun cs =
      ⟨number, begun.reverse ++ cs.takeWhile isInner⟩ ::
        (ending? (cs.dropWhile isInner)).elim [] fun (feeds, rest) =>
          split (number + feeds) [] rest := by
  fun_induction split number begun cs with
  | case1 number begun => simp [ending?]
  | case2 number begun rest => simp [ending?, isInner]
  | case3 number begun rest hpair ih =>
    have hend : ending? ('\r' :: rest) = some (0, rest) := ending?.eq_2 rest hpair
    simp [isInner, hend]
  | case4 number begun rest => simp [ending?, isInner]
  | case5 number begun c rest hpair hreturn hfeed ih =>
    have hinner : isInner c = true := by
      rw [isInner, Bool.and_eq_true, bne_iff_ne, bne_iff_ne]
      exact ⟨hfeed, hreturn⟩
    simp [hinner, ih]

/-- The number of the first line is added to all others. -/
theorem split_add (number k : Nat) (begun cs : List Char) :
    split (number + k) begun cs =
      (split number begun cs).map fun line => ⟨line.number + k, line.text⟩ := by
  fun_induction split number begun cs with
  | case1 number begun => rfl
  | case2 number begun rest ih => simp [split, ← ih, Nat.add_right_comm]
  | case3 number begun rest hpair ih => rw [split.eq_3 _ _ _ hpair, ih]; rfl
  | case4 number begun rest ih => simp [split, ← ih, Nat.add_right_comm]
  | case5 number begun c rest hpair hreturn hfeed ih =>
    rw [split.eq_5 _ _ _ _ hpair hreturn hfeed, ih]

/-- Nothing reaches over a line feed: what stands behind it has lines of its own. -/
theorem exists_split_append (number : Nat) (begun cs : List Char) :
    ∃ lines, ∀ rest, split number begun (cs ++ '\n' :: rest) =
      lines ++ split (number + cs.count '\n' + 1) [] rest := by
  fun_induction split number begun cs with
  | case1 number begun => exact ⟨[⟨number, begun.reverse⟩], fun rest => rfl⟩
  | case2 number begun cs ih =>
    obtain ⟨lines, hlines⟩ := ih
    refine ⟨⟨number, begun.reverse⟩ :: lines, fun rest => ?_⟩
    simp [split, hlines, Nat.add_comm, Nat.add_left_comm]
  | case3 number begun cs hpair ih =>
    cases cs with
    | nil => exact ⟨[⟨number, begun.reverse⟩], fun rest => rfl⟩
    | cons c cs =>
      obtain ⟨lines, hlines⟩ := ih
      refine ⟨⟨number, begun.reverse⟩ :: lines, fun rest => ?_⟩
      have hc : c ≠ '\n' := by
        rintro rfl
        exact hpair cs rfl
      rw [List.cons_append, List.cons_append, split.eq_3 _ _ _ (by simp [hc]), ← List.cons_append,
        hlines]
      simp
  | case4 number begun cs ih =>
    obtain ⟨lines, hlines⟩ := ih
    refine ⟨⟨number, begun.reverse⟩ :: lines, fun rest => ?_⟩
    simp [split, hlines, Nat.add_comm, Nat.add_left_comm]
  | case5 number begun c cs hpair hreturn hfeed ih =>
    obtain ⟨lines, hlines⟩ := ih
    refine ⟨lines, fun rest => ?_⟩
    have hcount : (c :: cs).count '\n' = cs.count '\n' := List.count_cons_of_ne hfeed
    rw [List.cons_append, split.eq_5 _ _ _ _ (fun _ h => absurd h hreturn) hreturn hfeed, hlines,
      hcount]

end BitClassifier.Line
