import Mathlib.Data.List.TakeWhile

/-!
# Rows of characters

A reader that takes the longest row of characters of a kind splits a text where it was put together
if what follows begins with no character of that kind (`Begins`).
-/

namespace BitClassifier

variable {p q : Char → Bool} {c : Char} {xs ys : List Char}

/-- A row that begins with no character of a kind. -/
def Begins (p : Char → Bool) (cs : List Char) : Prop :=
  ∀ c ∈ cs.head?, p c = false

@[simp] theorem begins_nil : Begins p [] := by
  simp [Begins]

@[simp] theorem begins_cons : Begins p (c :: xs) ↔ p c = false := by
  simp [Begins]

theorem Begins.append (hxs : Begins p xs) (hys : Begins p ys) : Begins p (xs ++ ys) := by
  cases xs with
  | nil => exact hys
  | cons x xs => exact hxs

theorem Begins.mono (hxs : Begins q xs) (h : ∀ c, p c = true → q c = true) : Begins p xs := by
  intro c hc
  rw [← Bool.not_eq_true]
  intro hp
  exact Bool.false_ne_true ((hxs c hc).symm.trans (h c hp))

/-- A row of one kind begins with no character of another kind. -/
theorem begins_of_all (hxs : xs.all q = true) (h : ∀ c, q c = true → p c = false) :
    Begins p xs :=
  fun c hc => h c (List.all_eq_true.mp hxs c (List.mem_of_mem_head? hc))

theorem begins_dropWhile (p : Char → Bool) (xs : List Char) : Begins p (xs.dropWhile p) := by
  intro c hc
  have h := List.head?_dropWhile_not p xs
  rwa [hc] at h

theorem dropWhile_of_begins (h : Begins p xs) : xs.dropWhile p = xs := by
  cases xs with
  | nil => rfl
  | cons x xs => rw [List.dropWhile_cons_of_neg (by simp [begins_cons.mp h])]

theorem takeWhile_append_of_begins (hxs : xs.all p = true) (hys : Begins p ys) :
    (xs ++ ys).takeWhile p = xs := by
  rw [List.takeWhile_append_of_pos (List.all_eq_true.mp hxs)]
  cases ys with
  | nil => simp
  | cons y ys => rw [List.takeWhile_cons_of_neg (by simp [begins_cons.mp hys]), List.append_nil]

theorem dropWhile_append_of_begins (hxs : xs.all p = true) (hys : Begins p ys) :
    (xs ++ ys).dropWhile p = ys := by
  rw [List.dropWhile_append_of_pos (List.all_eq_true.mp hxs), dropWhile_of_begins hys]

end BitClassifier
