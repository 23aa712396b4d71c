import BitClassifier.Proofs.Peg.DataFile

/-!
# Reading within a line

No part of a line but its end takes a line feed or a carriage return. So what an expression leaves
behind within a line depends on the line alone. `Reads` says what that is, with one lemma for each
way to build an expression. Between two parts it goes on at what stands `behind` blanks and a
comment, and a comment takes the rest of the line.
-/

namespace BitClassifier

open Peg
open Line (isInner)
open Record (isBlank isFieldChar skipBlanks semicolon? mayEnd ofChars?)

namespace DataFile

/-! ## Within a line -/

/-- What is left of a line behind blanks and a comment. -/
def behind (l : List Char) : List Char :=
  if (skipBlanks l).head? = some '#' then [] else skipBlanks l

/-- A place in a line with a number: `l` is what is left of the line, and `rest` what stands behind
it. -/
structure At (p : Cursor) (number : Nat) (l rest : List Char) : Prop where
  after : p.after = l ++ rest
  line : p.line = number
  inner : l.all isInner = true
  ends : Begins isInner rest

section Within

variable {p q : Cursor} {number : Nat} {l rest : List Char} {k : Char → Bool} {c : Char}

theorem takeWhile_append_of_ends (h : Begins k rest) :
    (l ++ rest).takeWhile k = l.takeWhile k := by
  induction l with
  | nil => exact takeWhile_append_of_begins (by rfl : [].all k = true) h
  | cons c l ih => simp [List.takeWhile_cons, ih]

theorem dropWhile_append_of_ends (h : Begins k rest) :
    (l ++ rest).dropWhile k = l.dropWhile k ++ rest := by
  induction l with
  | nil => exact dropWhile_of_begins h
  | cons c l ih =>
    rw [List.cons_append, List.dropWhile_cons, List.dropWhile_cons, ih]
    split <;> rfl

theorem all_dropWhile (h : l.all isInner = true) : (l.dropWhile k).all isInner = true := by
  rw [List.all_eq_true] at h ⊢
  exact fun c hc => h c ((List.dropWhile_suffix k).subset hc)

namespace At

/-- A row of inner characters ends in its line. -/
theorem pass (h : At p number l rest) (hfeed : k '\n' = false) (hreturn : k '\r' = false) :
    At (p.pass k) number (l.dropWhile k) rest ∧ p.after.takeWhile k = l.takeWhile k := by
  have hends : Begins k rest := h.ends.mono (isInner_of hfeed hreturn)
  refine ⟨⟨?_, ?_, all_dropWhile h.inner, h.ends⟩, ?_⟩
  · rw [Cursor.after_pass, h.after, dropWhile_append_of_ends hends]
  · rw [Cursor.line_pass hfeed, h.line]
  · rw [h.after, takeWhile_append_of_ends hends]

theorem gap (h : At p number l rest) : At (gap p) number (behind l) rest := by
  have hblanks := (h.pass (k := isBlank) (by decide) (by decide)).1
  have hhead : (p.pass isBlank).after.head? = some '#' ↔ (skipBlanks l).head? = some '#' := by
    rw [hblanks.after]
    cases hl : l.dropWhile isBlank with
    | nil =>
      have hrest : rest.head? ≠ some '#' := fun heq => absurd (h.ends '#' heq) (by decide)
      simp [skipBlanks, hl, hrest]
    | cons c cs => simp [skipBlanks, hl]
  unfold DataFile.gap behind
  split
  · rename_i hsign
    rw [if_pos (hhead.mp hsign)]
    have hcomment := (hblanks.pass (k := isInner) (by decide) (by decide)).1
    rwa [List.dropWhile_eq_nil_iff.mpr] at hcomment
    exact List.all_eq_true.mp hblanks.inner
  · rename_i hsign
    rwa [if_neg (mt hhead.mpr hsign)]

theorem step? (h : At p number (c :: l) rest) (hc : k c = true) :
    ∃ q, p.step? k = some q ∧ At q number l rest := by
  obtain ⟨hinner, hall⟩ := Bool.and_eq_true .. ▸ List.all_cons (l := l) ▸ h.inner
  refine ⟨⟨c :: p.before, l ++ rest⟩, ?_, rfl, ?_, hall, h.ends⟩
  · simp [Cursor.step?, h.after, hc]
  · have hne : c ≠ '\n' := by
      rintro rfl
      cases hinner
    have hline := h.line
    simp_all [Cursor.line]

theorem step?_eq_none (h : At p number l rest) (hl : Begins k l) (hfeed : k '\n' = false)
    (hreturn : k '\r' = false) : p.step? k = none := by
  rw [Cursor.step?_eq_none, h.after]
  exact hl.append (h.ends.mono (isInner_of hfeed hreturn))

theorem upTo {l' : List Char} (hp : At p number l rest) (hq : At q number l' rest) :
    p.upTo q = l.take (l.length - l'.length) := by
  have hlength : (l ++ rest).length - (l' ++ rest).length = l.length - l'.length := by
    simp only [List.length_append]
    omega
  rw [Cursor.upTo, hp.after, hq.after, hlength, List.take_append_of_le_length (by omega)]

end At

end Within

/-! ## Reading within a line -/

/-- An expression takes `l` from a line with the given number, or a part of it: what it leaves
behind and what it leaves of the line, or failure. -/
def Reads (e : Expr Rule) (number : Nat) (l : List Char) :
    Option (List (Pair Rule) × List Char) → Prop
  | none => ∀ p rest, At p number l rest → e.run gap false p = none
  | some (xs, l') => ∀ p rest, At p number l rest →
    ∃ q, e.run gap false p = some (xs, q) ∧ At q number l' rest

namespace Reads

variable {e f : Expr Rule} {number : Nat} {l l' m : List Char} {xs ys : List (Pair Rule)}
  {out : Option (List (Pair Rule) × List Char)}

theorem seq_none (h : Reads e number l none) : Reads (.seq e f) number l none :=
  fun p rest hp => Expr.run_seq_of_none (h p rest hp)

theorem seq (he : Reads e number l (some (xs, l'))) (hf : Reads f number (behind l') out) :
    Reads (.seq e f) number l (out.map fun (ys, m) => (xs ++ ys, m)) := by
  cases out with
  | none =>
    intro p rest hp
    obtain ⟨q, hrun, hq⟩ := he p rest hp
    rw [Expr.run_seq_of_some hrun, hf _ rest hq.gap, Option.map_none]
  | some out =>
    intro p rest hp
    obtain ⟨q, hrun, hq⟩ := he p rest hp
    obtain ⟨r, hnext, hr⟩ := hf _ rest hq.gap
    exact ⟨r, by rw [Expr.run_seq_of_some hrun, hnext, Option.map_some], hr⟩

theorem alt_left (he : Reads e number l (some (xs, l'))) :
    Reads (.alt e f) number l (some (xs, l')) := by
  intro p rest hp
  obtain ⟨q, hrun, hq⟩ := he p rest hp
  exact ⟨q, by rw [Expr.run, hrun], hq⟩

theorem alt_right (he : Reads e number l none) (hf : Reads f number l out) :
    Reads (.alt e f) number l out := by
  have halt (p rest) (hp : At p number l rest) :
      (Expr.alt e f).run gap false p = f.run gap false p := by
    rw [Expr.run, he p rest hp]
  cases out with
  | none => exact fun p rest hp => (halt p rest hp).trans (hf p rest hp)
  | some out =>
    intro p rest hp
    rw [halt p rest hp]
    exact hf p rest hp

theorem optional (he : Reads e number l out) :
    Reads (.optional e) number l (some (out.getD ([], l))) := by
  intro p rest hp
  cases out with
  | none => exact ⟨p, by rw [Expr.run, he p rest hp], hp⟩
  | some out =>
    obtain ⟨q, hrun, hq⟩ := he p rest hp
    exact ⟨q, by rw [Expr.run, hrun], hq⟩

theorem rule (he : Reads e number l out) (r : Rule) :
    Reads (.rule r e) number l
      (out.map fun (xs, m) => ([⟨r, number, l.take (l.length - m.length), xs⟩], m)) := by
  cases out with
  | none =>
    intro p rest hp
    rw [Expr.run, he p rest hp]
  | some out =>
    intro p rest hp
    obtain ⟨q, hrun, hq⟩ := he p rest hp
    exact ⟨q, by rw [Expr.run, hrun, ← hp.upTo hq, ← hp.line]; rfl, hq⟩

theorem star_none (he : Reads e number l none) :
    Reads (.star e) number l (some ([], l)) :=
  fun p rest hp => ⟨p, Expr.run_star_of_none (he p rest hp), hp⟩

theorem star_last (he : Reads e number l (some (xs, l')))
    (hlast : Reads e number (behind l') none) : Reads (.star e) number l (some (xs, l')) := by
  intro p rest hp
  obtain ⟨q, hrun, hq⟩ := he p rest hp
  exact ⟨q, Expr.run_star_of_last hrun (hlast _ rest hq.gap), hq⟩

theorem star_more {m' : List Char} {zs : List (Pair Rule)} (he : Reads e number l (some (xs, l')))
    (hnext : Reads e number (behind l') (some (ys, m))) (hlt : m.length < l'.length)
    (hrest : Reads (.star e) number (behind l') (some (zs, m'))) :
    Reads (.star e) number l (some (xs ++ zs, m')) := by
  intro p rest hp
  obtain ⟨q, hrun, hq⟩ := he p rest hp
  obtain ⟨r, hround, hr⟩ := hnext _ rest hq.gap
  obtain ⟨s, hstar, hs⟩ := hrest _ rest hq.gap
  refine ⟨s, ?_, hs⟩
  rw [Expr.run_star_of_more hrun hround, hstar, Option.map_some]
  simpa [hr.after, hq.after] using hlt

/-- An atomic rule that takes a row of characters. -/
theorem token (he : Expr.Takes gap e k) (hfeed : k '\n' = false) (hreturn : k '\r' = false)
    (r : Rule) (number : Nat) (l : List Char) :
    Reads (.rule r (.atomic (.star e))) number l
      (some ([⟨r, number, l.takeWhile k, []⟩], l.dropWhile k)) := by
  intro p rest hp
  obtain ⟨hq, htake⟩ := hp.pass hfeed hreturn
  refine ⟨p.pass k, ?_, hq⟩
  rw [Expr.run, Expr.run, he.star, ← htake, ← Cursor.upTo_pass, ← hp.line]
  rfl

/-- An atomic rule that takes a row of characters and looks at the first of them. -/
theorem row {j : Char → Bool} (he : Expr.Takes gap e j) (hf : Expr.Takes gap f k)
    (hjk : ∀ c, j c = true → k c = true) (hfeed : k '\n' = false) (hreturn : k '\r' = false)
    (r : Rule) (number : Nat) (l : List Char) :
    Reads (.rule r (.atomic (.seq e (.star f)))) number l
      (if l.head?.any j then some ([⟨r, number, l.takeWhile k, []⟩], l.dropWhile k) else none) := by
  have hrow := he.row hf hjk
  have hj (c : Char) (hc : k c = false) : j c = false := by
    rw [← Bool.not_eq_true] at hc ⊢
    exact mt (hjk c) hc
  cases l with
  | nil =>
    intro p rest hp
    rw [Expr.run, Expr.run, hrow, hp.step?_eq_none begins_nil (hj _ hfeed) (hj _ hreturn)]
    rfl
  | cons c l =>
    cases hc : j c with
    | false =>
      rw [List.head?_cons, Option.any_some, hc, if_neg Bool.false_ne_true]
      intro p rest hp
      rw [Expr.run, Expr.run, hrow,
        hp.step?_eq_none (begins_cons.mpr hc) (hj _ hfeed) (hj _ hreturn)]
      rfl
    | true =>
      rw [List.head?_cons, Option.any_some, if_pos hc]
      intro p rest hp
      obtain ⟨hq, htake⟩ := hp.pass hfeed hreturn
      obtain ⟨_, hstep, _⟩ := hp.step? hc
      refine ⟨p.pass k, ?_, hq⟩
      rw [Expr.run, Expr.run, hrow, hstep, ← htake, ← Cursor.upTo_pass, ← hp.line]
      rfl

end Reads

/-! ## What stands behind blanks and a comment -/

section Behind

variable {l : List Char}

theorem begins_behind (l : List Char) : Begins isBlank (behind l) := by
  unfold behind
  split
  · exact begins_nil
  · exact begins_dropWhile isBlank l

theorem head?_behind (l : List Char) : (behind l).head? ≠ some '#' := by
  unfold behind
  split
  · simp
  · assumption

theorem behind_eq_self (hblank : Begins isBlank l) (hsign : l.head? ≠ some '#') : behind l = l := by
  rw [behind, skipBlanks, dropWhile_of_begins hblank, if_neg hsign]

/-- No comment stands at the front of what is left. -/
theorem ne_sign_of_behind {c : Char} (h : behind (c :: l) = c :: l) : c ≠ '#' := by
  rintro rfl
  exact head?_behind ('#' :: l) (by rw [h]; rfl)

theorem behind_behind (l : List Char) : behind (behind l) = behind l :=
  behind_eq_self (begins_behind l) (head?_behind l)

theorem behind_eq_nil (hblank : Begins isBlank l) (hsign : l.head? = some '#') : behind l = [] := by
  rw [behind, skipBlanks, dropWhile_of_begins hblank, if_pos hsign]

theorem all_behind (h : l.all isInner = true) : (behind l).all isInner = true := by
  unfold behind
  split
  · rfl
  · exact all_dropWhile h

theorem length_behind_le (l : List Char) : (behind l).length ≤ l.length := by
  unfold behind
  split
  · exact Nat.zero_le _
  · exact List.length_dropWhile_le isBlank l

theorem all_of_semicolon? {m : List Char} (h : semicolon? l = some m) (hl : l.all isInner = true) :
    m.all isInner = true := by
  rw [Record.semicolon?_eq_some.mp h, List.all_cons, Bool.and_eq_true] at hl
  exact hl.2

/-- No semicolon stands in a comment. -/
theorem semicolon?_behind (l : List Char) :
    semicolon? (behind l) = semicolon? (skipBlanks l) := by
  unfold behind
  split
  · rename_i hsign
    obtain ⟨cs, hcs⟩ := List.head?_eq_some_iff.mp hsign
    rw [hcs]
    rfl
  · rfl

theorem mayEnd_behind (l : List Char) : mayEnd (behind l) = mayEnd (skipBlanks l) := by
  unfold behind
  split
  · rename_i hsign
    obtain ⟨cs, hcs⟩ := List.head?_eq_some_iff.mp hsign
    rw [hcs]
    rfl
  · rfl

end Behind

end DataFile

end BitClassifier
