import BitClassifier.Ascending
import Mathlib.Data.List.Sort

/-!
# Facts of ascending lists

`ascending` keeps the listed values and puts them in order, so a test that holds up to some value
cuts its list in two.
-/

namespace BitClassifier

section Repetitions

variable {α : Type} [BEq α]

/-- The values that were passed come first in the accumulator. -/
theorem eraseRepsBy_loop (a : α) (l acc : List α) :
    List.eraseRepsBy.loop (· == ·) a l acc =
      acc.reverse ++ List.eraseRepsBy.loop (· == ·) a l [] := by
  induction l generalizing a acc with
  | nil => simp [List.eraseRepsBy.loop]
  | cons b l ih =>
    rw [List.eraseRepsBy.loop, List.eraseRepsBy.loop]
    split
    · exact ih a acc
    · rw [ih b (a :: acc), ih b [a]]
      simp

/-- Of two equal neighbours the first one is kept. -/
theorem eraseReps_cons_cons (a b : α) (l : List α) :
    (a :: b :: l).eraseReps =
      if a == b then (a :: l).eraseReps else a :: (b :: l).eraseReps := by
  rw [List.eraseReps, List.eraseRepsBy, List.eraseRepsBy.loop]
  split
  · rename_i heq
    rw [if_pos heq]
    rfl
  · rename_i hne
    rw [eraseRepsBy_loop, if_neg (by simp [hne])]
    rfl

theorem eraseReps_sublist (l : List α) : l.eraseReps.Sublist l := by
  cases l with
  | nil => exact .slnil
  | cons a l =>
    induction l generalizing a with
    | nil => exact .refl _
    | cons b l ih =>
      rw [eraseReps_cons_cons]
      split
      · exact (ih a).trans ((List.sublist_cons_self b l).cons_cons a)
      · exact (ih b).cons_cons a

theorem mem_eraseReps [LawfulBEq α] {a : α} {l : List α} : a ∈ l.eraseReps ↔ a ∈ l := by
  refine ⟨fun h => (eraseReps_sublist l).subset h, fun h => ?_⟩
  cases l with
  | nil => exact h
  | cons b l =>
    induction l generalizing b with
    | nil => exact h
    | cons c l ih =>
      rw [eraseReps_cons_cons]
      split
      · rename_i heq
        obtain rfl : b = c := eq_of_beq heq
        exact ih b (by simpa using h)
      · rcases List.mem_cons.mp h with rfl | h
        · exact List.mem_cons_self
        · exact List.mem_cons_of_mem b (ih c h)

/-- Nothing is left out of a list that has no repetitions. -/
theorem eraseReps_of_nodup [LawfulBEq α] {l : List α} (h : l.Nodup) : l.eraseReps = l := by
  cases l with
  | nil => rfl
  | cons a l =>
    induction l generalizing a with
    | nil => rfl
    | cons b l ih =>
      rw [List.nodup_cons, List.mem_cons, not_or] at h
      rw [eraseReps_cons_cons, if_neg (by simpa using h.1.1), ih b h.2]

end Repetitions

section Sorting

variable {α : Type} [LE α] [Std.IsLinearOrder α]

theorem pairwise_mergeSort [DecidableLE α] (l : List α) :
    (l.mergeSort fun a b => decide (a ≤ b)).Pairwise (· ≤ ·) := by
  have hsorted : (l.mergeSort fun a b => decide (a ≤ b)).Pairwise
      fun a b => decide (a ≤ b) = true := by
    apply List.pairwise_mergeSort
    · intro a b c hab hbc
      rw [decide_eq_true_iff] at hab hbc ⊢
      exact Std.le_trans hab hbc
    · intro a b
      rw [Bool.or_eq_true, decide_eq_true_iff, decide_eq_true_iff]
      exact Std.le_total
  exact hsorted.imp fun h => of_decide_eq_true h

/-- Without repetitions, ascending values increase. -/
theorem pairwise_lt_eraseReps [LT α] [Std.LawfulOrderLT α] [BEq α] [LawfulBEq α] {l : List α}
    (h : l.Pairwise (· ≤ ·)) : l.eraseReps.Pairwise (· < ·) := by
  cases l with
  | nil => exact .nil
  | cons a l =>
    induction l generalizing a with
    | nil => exact List.pairwise_singleton _ a
    | cons b l ih =>
      rw [List.pairwise_cons, List.forall_mem_cons] at h
      obtain ⟨⟨hab, hal⟩, htail⟩ := h
      rw [eraseReps_cons_cons]
      split
      · exact ih a (List.pairwise_cons.mpr ⟨hal, (List.pairwise_cons.mp htail).2⟩)
      · rename_i hne
        refine List.pairwise_cons.mpr ⟨fun c hc => ?_, ih b htail⟩
        have hlt : a < b := Std.lt_of_le_of_ne hab (by simpa using hne)
        rcases List.mem_cons.mp (mem_eraseReps.mp hc) with rfl | hc
        · exact hlt
        · exact Std.lt_of_lt_of_le hlt ((List.pairwise_cons.mp htail).1 c hc)

end Sorting

theorem mem_ascending {v : CodeValue} {values : List CodeValue} :
    v ∈ ascending values ↔ v ∈ values := by
  rw [ascending, mem_eraseReps, List.mem_mergeSort]

theorem pairwise_ascending (values : List CodeValue) :
    (ascending values).Pairwise (· ≤ ·) :=
  (pairwise_mergeSort values).sublist (eraseReps_sublist _)

theorem pairwise_lt_ascending (values : List CodeValue) :
    (ascending values).Pairwise (· < ·) :=
  pairwise_lt_eraseReps (pairwise_mergeSort values)

/-- Increasing lists with the same values are the same. -/
theorem ascending_congr {values values' : List CodeValue} (h : ∀ v, v ∈ values ↔ v ∈ values') :
    ascending values = ascending values' := by
  refine (pairwise_lt_ascending values).eq_of_mem_iff (pairwise_lt_ascending values') fun v => ?_
  rw [mem_ascending, mem_ascending, h]

/-- In an ascending list the values up to a bound come first. -/
theorem takeWhile_eq_filter {p : CodeValue → Bool} {l : List CodeValue}
    (hp : ∀ a b, a ≤ b → p b = true → p a = true) (hl : l.Pairwise (· ≤ ·)) :
    l.takeWhile p = l.filter p := by
  induction l with
  | nil => rfl
  | cons a l ih =>
    rw [List.pairwise_cons] at hl
    cases ha : p a with
    | true => rw [List.takeWhile_cons_of_pos ha, List.filter_cons_of_pos ha, ih hl.2]
    | false =>
      have hnone : ∀ b ∈ l, ¬p b = true := fun b hb hpb => by
        rw [hp a b (hl.1 b hb) hpb] at ha
        cases ha
      rw [List.takeWhile_cons_of_neg (by simp [ha]), List.filter_cons_of_neg (by simp [ha]),
        List.filter_eq_nil_iff.mpr hnone]

end BitClassifier
