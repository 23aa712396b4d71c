import BitClassifier.Proofs.Text.Rows

/-!
# Parsing expressions

A parsing expression takes a row of characters from the front of a text or fails. Choices are
ordered, repetitions take as much as they can, and nothing is taken back once an expression has
been passed: a repetition does not give way for what stands behind it.

Between the parts of a sequence and between the rounds of a repetition, blanks and comments are
passed over, but not within an atomic expression. A named rule leaves a `Pair` behind that tells
what it has taken, unless it stands within an atomic expression or is only looked ahead for.
-/

namespace BitClassifier.Peg

/-- A place in a text: what lies before it, the nearest character first, and what lies behind it. -/
structure Cursor where
  before : List Char
  after : List Char

namespace Cursor

/-- The place before a text. -/
def start (text : List Char) : Cursor :=
  ⟨[], text⟩

/-- The number of the line that a place is in. -/
def line (p : Cursor) : Nat :=
  1 + p.before.count '\n'

/-- What lies between a place and another one behind it. -/
def upTo (p q : Cursor) : List Char :=
  p.after.take (p.after.length - q.after.length)

/-- The place behind one character of a kind. -/
def step? (k : Char → Bool) (p : Cursor) : Option Cursor :=
  match p.after with
  | [] => none
  | c :: cs => if k c then some ⟨c :: p.before, cs⟩ else none

/-- The place behind the longest row of characters of a kind. -/
def pass (k : Char → Bool) (p : Cursor) : Cursor :=
  ⟨(p.after.takeWhile k).reverse ++ p.before, p.after.dropWhile k⟩

end Cursor

/-- What a named rule has taken: the line in which it begins, its characters, and what the rules
within it have taken. -/
inductive Pair (ρ : Type) where
  | mk (rule : ρ) (line : Nat) (text : List Char) (inner : List (Pair ρ))

/-- A parsing expression over named rules. -/
inductive Expr (ρ : Type) where
  /-- One character of a kind. -/
  | char (k : Char → Bool)
  /-- The given characters. -/
  | word (cs : List Char)
  /-- The beginning of the text. -/
  | beginning
  /-- The end of the text. -/
  | ending
  /-- One expression behind another. -/
  | seq (e f : Expr ρ)
  /-- The second expression if the first one fails. -/
  | alt (e f : Expr ρ)
  | optional (e : Expr ρ)
  /-- As many rounds as there are. -/
  | star (e : Expr ρ)
  /-- Takes nothing, and fails if the expression does. -/
  | ahead (e : Expr ρ)
  /-- Takes nothing, and fails unless the expression does. -/
  | notAhead (e : Expr ρ)
  | rule (r : ρ) (e : Expr ρ)
  /-- Passes over nothing between the parts. -/
  | atomic (e : Expr ρ)

/-- What an expression comes to: the pairs that are left behind and the place behind them, or
failure. -/
abbrev Outcome (ρ : Type) := Option (List (Pair ρ) × Cursor)

variable {ρ : Type}

/-- Takes as many rounds as there are. A round that takes nothing would be taken for ever; it ends
the repetition. -/
def many (round : Cursor → Outcome ρ) (p : Cursor) : List (Pair ρ) × Cursor :=
  match round p with
  | none => ([], p)
  | some (xs, q) =>
    if q.after.length < p.after.length then
      let (ys, q) := many round q
      (xs ++ ys, q)
    else (xs, q)
termination_by p.after.length

namespace Expr

/-- One round or more. -/
def plus (e : Expr ρ) : Expr ρ :=
  seq e (star e)

/-- Takes an expression from a place on. `skip` passes over blanks and comments,
unless the expression stands within an atomic one (`tight`). -/
def run (skip : Cursor → Cursor) : Expr ρ → (tight : Bool) → Cursor → Outcome ρ
  | char k, _, p => (p.step? k).map fun q => ([], q)
  | word cs, _, p =>
    if cs.isPrefixOf p.after then
      some ([], ⟨cs.reverse ++ p.before, p.after.drop cs.length⟩)
    else none
  | beginning, _, p => if p.before = [] then some ([], p) else none
  | ending, _, p => if p.after = [] then some ([], p) else none
  | seq e f, tight, p =>
    match e.run skip tight p with
    | none => none
    | some (xs, q) =>
      match f.run skip tight (if tight then q else skip q) with
      | none => none
      | some (ys, q) => some (xs ++ ys, q)
  | alt e f, tight, p =>
    match e.run skip tight p with
    | none => f.run skip tight p
    | some out => some out
  | optional e, tight, p =>
    match e.run skip tight p with
    | none => some ([], p)
    | some out => some out
  | star e, tight, p =>
    match e.run skip tight p with
    | none => some ([], p)
    | some (xs, q) =>
      let (ys, q) := many (fun q => e.run skip tight (if tight then q else skip q)) q
      some (xs ++ ys, q)
  | ahead e, tight, p =>
    match e.run skip tight p with
    | none => none
    | some _ => some ([], p)
  | notAhead e, tight, p =>
    match e.run skip tight p with
    | none => some ([], p)
    | some _ => none
  | rule r e, tight, p =>
    match e.run skip tight p with
    | none => none
    | some (xs, q) => some (if tight then xs else [⟨r, p.line, p.upTo q, xs⟩], q)
  | atomic e, _, p => e.run skip true p

end Expr

/-- A grammar: how files are written, and what may stand between the parts. -/
structure Grammar (ρ : Type) where
  blank : Expr ρ
  comment : Expr ρ
  file : Expr ρ

namespace Grammar

/-- Passes over blanks and comments. Nothing is passed over within them. -/
def skip (g : Grammar ρ) (p : Cursor) : Cursor :=
  let blanks (p : Cursor) : Cursor := (many (g.blank.run id true) p).2
  (many (fun p => (g.comment.run id true p).map fun (xs, q) => (xs, blanks q)) (blanks p)).2

/-- The pairs that a file leaves behind. -/
def parse (g : Grammar ρ) (text : List Char) : Option (List (Pair ρ)) :=
  (g.file.run g.skip false (.start text)).map (·.1)

end Grammar

/-! ## Rows of characters of a kind -/

variable {k : Char → Bool} {e : Expr ρ} {skip : Cursor → Cursor} {tight : Bool} {p q : Cursor}
  {round : Cursor → Outcome ρ} {xs : List (Pair ρ)}

namespace Cursor

@[simp] theorem after_pass (k : Char → Bool) (p : Cursor) :
    (p.pass k).after = p.after.dropWhile k := rfl

/-- A row without line feeds stays in its line. -/
theorem line_pass (hk : k '\n' = false) (p : Cursor) : (p.pass k).line = p.line := by
  have hcount : (p.after.takeWhile k).count '\n' = 0 := by
    rw [List.count_eq_zero]
    intro hmem
    rw [List.mem_takeWhile_imp hmem] at hk
    cases hk
  simp [line, pass, hcount]

theorem upTo_pass (k : Char → Bool) (p : Cursor) : p.upTo (p.pass k) = p.after.takeWhile k := by
  have hlength := congrArg List.length (List.takeWhile_append_dropWhile (p := k) (l := p.after))
  rw [List.length_append] at hlength
  rw [upTo, after_pass, ← hlength, Nat.add_sub_cancel]
  exact (List.prefix_iff_eq_take.mp (List.takeWhile_prefix k)).symm

theorem step?_eq_none : p.step? k = none ↔ Begins k p.after := by
  unfold step?
  split
  · rename_i hafter
    simp [hafter]
  · rename_i c cs hafter
    simp [hafter]

theorem step?_mono {j : Char → Bool} (hjk : ∀ c, j c = true → k c = true)
    (h : p.step? j = some q) : p.step? k = some q := by
  unfold step? at h ⊢
  split at h
  · cases h
  · rename_i c cs hafter
    split at h
    · rename_i hc
      simpa [hjk c hc] using h
    · cases h

theorem pass_of_begins (h : Begins k p.after) : p.pass k = p := by
  have htake : p.after.takeWhile k = [] :=
    takeWhile_append_of_begins (by rfl : [].all k = true) h
  rw [pass, htake, dropWhile_of_begins h]
  rfl

/-- A row begins with one character. -/
theorem pass_of_step? (h : p.step? k = some q) :
    p.pass k = q.pass k ∧ q.after.length < p.after.length := by
  unfold step? at h
  split at h
  · cases h
  · rename_i c cs hafter
    split at h
    · rename_i hc
      obtain rfl := Option.some.inj h
      simp [pass, hafter, hc]
    · cases h

end Cursor

theorem many_of_none (h : round p = none) : many round p = ([], p) := by
  rw [many, h]

theorem many_of_some (h : round p = some (xs, q)) (hlt : q.after.length < p.after.length) :
    many round p = (xs ++ (many round q).1, (many round q).2) := by
  rw [many, h]
  simp only [hlt, if_true]

/-- Rounds of one character take a row. -/
theorem many_eq_pass (h : ∀ p, round p = (p.step? k).map fun q => ([], q)) (p : Cursor) :
    many round p = ([], p.pass k) := by
  induction hn : p.after.length using Nat.strong_induction_on generalizing p with
  | _ n ih =>
    cases hstep : p.step? k with
    | none =>
      rw [many_of_none (by rw [h, hstep]; rfl),
        Cursor.pass_of_begins (Cursor.step?_eq_none.mp hstep)]
    | some q =>
      obtain ⟨hpass, hlt⟩ := Cursor.pass_of_step? hstep
      rw [many_of_some (by rw [h, hstep]; rfl) hlt, ih _ (hn ▸ hlt) q rfl, hpass, List.nil_append]

namespace Expr

theorem run_seq (e f : Expr ρ) :
    (e.seq f).run skip tight p =
      match e.run skip tight p with
      | none => none
      | some (xs, q) =>
        match f.run skip tight (if tight then q else skip q) with
        | none => none
        | some (ys, q) => some (xs ++ ys, q) :=
  rfl

theorem run_star (e : Expr ρ) :
    (star e).run skip tight p =
      match e.run skip tight p with
      | none => some ([], p)
      | some (xs, q) =>
        let (ys, q) := many (fun q => e.run skip tight (if tight then q else skip q)) q
        some (xs ++ ys, q) :=
  rfl

/-- The expression takes one character of a kind. -/
def Takes (skip : Cursor → Cursor) (e : Expr ρ) (k : Char → Bool) : Prop :=
  ∀ p, e.run skip true p = (p.step? k).map fun q => ([], q)

theorem isSome_char (k : Char → Bool) (p : Cursor) :
    ((char k : Expr ρ).run skip tight p).isSome = p.after.head?.any k := by
  cases hafter : p.after with
  | nil => simp [run, Cursor.step?, hafter]
  | cons c cs => cases hc : k c <;> simp [run, Cursor.step?, hafter, hc]

theorem isSome_alt (e f : Expr ρ) (p : Cursor) :
    ((e.alt f).run skip tight p).isSome =
      ((e.run skip tight p).isSome || (f.run skip tight p).isSome) := by
  rw [run]
  cases e.run skip tight p <;> simp

/-- Where a sequence begins, its first part does. -/
theorem run_seq_of_none {f : Expr ρ} (h : e.run skip tight p = none) :
    (e.seq f).run skip tight p = none := by
  rw [run_seq, h]

theorem run_seq_of_some {f : Expr ρ} (h : e.run skip false p = some (xs, q)) :
    (e.seq f).run skip false p =
      (f.run skip false (skip q)).map fun out => (xs ++ out.1, out.2) := by
  rw [run_seq, h]
  simp only [Bool.false_eq_true, if_false]
  cases f.run skip false (skip q) <;> rfl

theorem takes_char (k : Char → Bool) : Takes skip (char k : Expr ρ) k :=
  fun _ => rfl

/-- Any character unless one of another kind is ahead. -/
theorem takes_notAhead
    (h : ∀ p, (e.run skip true p).isSome = p.after.head?.any fun c => !k c) :
    Takes skip (seq (notAhead e) (char fun _ => true)) k := by
  intro p
  have hp := h p
  cases hrun : e.run skip true p with
  | none =>
    rw [hrun] at hp
    cases hafter : p.after <;> simp_all [run, Cursor.step?]
  | some out =>
    rw [hrun] at hp
    cases hafter : p.after <;> simp_all [run, Cursor.step?]

theorem Takes.star (h : Takes skip e k) (p : Cursor) :
    (star e).run skip true p = some ([], p.pass k) := by
  rw [run_star, h]
  cases hstep : p.step? k with
  | none => rw [Cursor.pass_of_begins (Cursor.step?_eq_none.mp hstep)]; rfl
  | some q => simp [many_eq_pass h, (Cursor.pass_of_step? hstep).1]

/-- One character and a row of characters of a wider kind. -/
theorem Takes.row {f : Expr ρ} {j : Char → Bool} (he : Takes skip e j) (hf : Takes skip f k)
    (hjk : ∀ c, j c = true → k c = true) (p : Cursor) :
    (seq e (Expr.star f)).run skip true p = (p.step? j).map fun _ => ([], p.pass k) := by
  rw [run_seq, he]
  cases hstep : p.step? j with
  | none => rfl
  | some q => simp [hf.star, (Cursor.pass_of_step? (Cursor.step?_mono hjk hstep)).1]

/-! ### Rounds with blanks and comments between them -/

theorem run_star_of_none (h : e.run skip false p = none) :
    (star e).run skip false p = some ([], p) := by
  rw [run_star, h]

theorem run_star_of_last (h : e.run skip false p = some (xs, q))
    (hlast : e.run skip false (skip q) = none) : (star e).run skip false p = some (xs, q) := by
  have hmany : many (fun q => e.run skip false (skip q)) q = ([], q) := many_of_none hlast
  rw [run_star, h]
  simp [hmany]

/-- What stands behind a first round is taken as if the repetition began there. -/
theorem run_star_of_more {ys : List (Pair ρ)} {r : Cursor} (h : e.run skip false p = some (xs, q))
    (hnext : e.run skip false (skip q) = some (ys, r)) (hlt : r.after.length < q.after.length) :
    (star e).run skip false p =
      ((star e).run skip false (skip q)).map fun out => (xs ++ out.1, out.2) := by
  have hmany : many (fun q => e.run skip false (skip q)) q =
      (ys ++ (many (fun q => e.run skip false (skip q)) r).1, _) := many_of_some hnext hlt
  rw [run_star, run_star, h, hnext]
  simp [hmany]

/-- A first round may be taken out of a repetition. What is passed over behind it is passed over once,
whether or not another round follows. -/
theorem run_seq_star {f : Expr ρ} (hskip : ∀ p, skip (skip p) = skip p)
    (h : e.run skip false p = some (xs, q))
    (hnext : ∀ ys r, e.run skip false (skip q) = some (ys, r) → r.after.length < q.after.length) :
    ((star e).seq f).run skip false p =
      (((star e).seq f).run skip false (skip q)).map fun out => (xs ++ out.1, out.2) := by
  cases hround : e.run skip false (skip q) with
  | none =>
    have hstop := run_star_of_none hround
    rw [run_seq_of_some (run_star_of_last h hround), run_seq_of_some hstop, hskip]
    cases f.run skip false (skip q) <;> rfl
  | some out =>
    obtain ⟨ys, r⟩ := out
    have hmore := run_star_of_more h hround (hnext ys r hround)
    cases hstar : (star e).run skip false (skip q) with
    | none =>
      rw [hstar, Option.map_none] at hmore
      rw [run_seq_of_none hmore, run_seq_of_none hstar, Option.map_none]
    | some rest =>
      rw [hstar, Option.map_some] at hmore
      rw [run_seq_of_some hmore, run_seq_of_some hstar]
      cases f.run skip false (skip rest.2) <;> simp

end Expr

end BitClassifier.Peg
