import BitClassifier.Proofs.Source.Lexeme

/-!
# Expressions

The part of the grammar of expressions that emitted classifiers use, in the form in which the
standards of both languages give it: one level for each precedence, where operators with two
operands group to the left (`Derives`). A row of lexemes has one reading at most
(`Derives.unique`): it is read from left to right without a choice (`Reads`).
-/

namespace BitClassifier.Source

/-- An expression. -/
inductive Expr where
  | number (value : Nat)
  | name (text : String)
  /-- A call without arguments. -/
  | call (function : String)
  | not (operand : Expr)
  | binary (operator : BinaryOp) (left right : Expr)
  | cond (test yes no : Expr)
deriving DecidableEq

/-- The precedence of an operator. Conditionals have the level 0, and signs and primary expressions
the level 5. -/
def BinaryOp.level : BinaryOp → Nat
  | or => 1
  | and => 2
  | bitAnd => 3
  | equal => 4
  | notEqual => 4

/-- The lexemes of a function's name, which may be qualified. -/
inductive Named : String → List Lexeme → Prop
  | plain (text : String) : Named text [.name text]
  | qualified (space text : String) :
    Named (space ++ "::" ++ text) [.name space, .scope, .name text]

/-- The reading of a row of lexemes as an expression of a level. -/
inductive Derives : (level : Nat) → List Lexeme → Expr → Prop
  | number (n : Nat) : Derives 5 [.number n] (.number n)
  | name (text : String) : Derives 5 [.name text] (.name text)
  | call {function : String} {ts : List Lexeme} (h : Named function ts) :
    Derives 5 (ts ++ [.opening, .closing]) (.call function)
  | group {ts : List Lexeme} {e : Expr} (h : Derives 0 ts e) :
    Derives 5 (.opening :: (ts ++ [.closing])) e
  | not {ts : List Lexeme} {e : Expr} (h : Derives 5 ts e) : Derives 5 (.not :: ts) (.not e)
  | binary {op : BinaryOp} {ls rs : List Lexeme} {left right : Expr}
    (hleft : Derives op.level ls left) (hright : Derives (op.level + 1) rs right) :
    Derives op.level (ls ++ .op op :: rs) (.binary op left right)
  | cond {ts ys ns : List Lexeme} {test yes no : Expr} (htest : Derives 1 ts test)
    (hyes : Derives 0 ys yes) (hno : Derives 0 ns no) :
    Derives 0 (ts ++ .question :: (ys ++ .colon :: ns)) (.cond test yes no)
  | weaken {level : Nat} {ts : List Lexeme} {e : Expr} (h : Derives (level + 1) ts e) :
    Derives level ts e

/-- What is read: an expression of a level, or what an expression of a level that has been read
goes on with. -/
inductive Mode where
  | whole (level : Nat)
  | after (level : Nat) (e : Expr)

/-- Whether an expression of a level goes on with a lexeme behind an expression of the next one. -/
def continues (level : Nat) : Lexeme → Bool
  | .op op => op.level == level
  | .question => level == 0
  | _ => false

/-- Whether an expression that has been read as one of a level ends before a row of lexemes. -/
def Ends (level : Nat) (ts : List Lexeme) : Prop :=
  ∀ t ∈ ts.head?, continues level t = false

/-- Whether a name is complete before a row of lexemes. -/
def Separate (ts : List Lexeme) : Prop :=
  ∀ t ∈ ts.head?, t ≠ .opening ∧ t ≠ .scope

/-- Reading from left to right: in a mode, from a row of lexemes, an expression is read and the rest
is left. -/
inductive Reads : Mode → List Lexeme → Expr → List Lexeme → Prop
  | number (n : Nat) (rest : List Lexeme) : Reads (.whole 5) (.number n :: rest) (.number n) rest
  | name (text : String) {rest : List Lexeme} (h : Separate rest) :
    Reads (.whole 5) (.name text :: rest) (.name text) rest
  | call (text : String) (rest : List Lexeme) :
    Reads (.whole 5) (.name text :: .opening :: .closing :: rest) (.call text) rest
  | qualified (space text : String) (rest : List Lexeme) :
    Reads (.whole 5) (.name space :: .scope :: .name text :: .opening :: .closing :: rest)
      (.call (space ++ "::" ++ text)) rest
  | group {ts rest : List Lexeme} {e : Expr} (h : Reads (.whole 0) ts e (.closing :: rest)) :
    Reads (.whole 5) (.opening :: ts) e rest
  | not {ts rest : List Lexeme} {e : Expr} (h : Reads (.whole 5) ts e rest) :
    Reads (.whole 5) (.not :: ts) (.not e) rest
  | first {level : Nat} {ts us rest : List Lexeme} {left e : Expr} (hlevel : level < 5)
    (hleft : Reads (.whole (level + 1)) ts left us) (h : Reads (.after level left) us e rest) :
    Reads (.whole level) ts e rest
  | next {op : BinaryOp} {level : Nat} {ts us rest : List Lexeme} {left right e : Expr}
    (hlevel : op.level = level) (hright : Reads (.whole (level + 1)) ts right us)
    (h : Reads (.after level (.binary op left right)) us e rest) :
    Reads (.after level left) (.op op :: ts) e rest
  | cond {ts us rest : List Lexeme} {test yes no : Expr}
    (hyes : Reads (.whole 0) ts yes (.colon :: us)) (hno : Reads (.whole 0) us no rest) :
    Reads (.after 0 test) (.question :: ts) (.cond test yes no) rest
  | stop {level : Nat} {e : Expr} {rest : List Lexeme} (h : Ends level rest) :
    Reads (.after level e) rest e rest

/-- There is no choice in reading from left to right. -/
theorem Reads.deterministic {m : Mode} {ts rest rest' : List Lexeme} {e e' : Expr}
    (h : Reads m ts e rest) (h' : Reads m ts e' rest') : e = e' ∧ rest = rest' := by
  induction h generalizing e' rest' with
  | number n rest =>
    cases h' with
    | number => exact ⟨rfl, rfl⟩
    | first hlevel => omega
  | name text hseparate =>
    cases h' with
    | name => exact ⟨rfl, rfl⟩
    | call => simp [Separate] at hseparate
    | qualified => simp [Separate] at hseparate
    | first hlevel => omega
  | call text rest =>
    cases h' with
    | name _ hseparate => simp [Separate] at hseparate
    | call => exact ⟨rfl, rfl⟩
    | first hlevel => omega
  | qualified space text rest =>
    cases h' with
    | name _ hseparate => simp [Separate] at hseparate
    | qualified => exact ⟨rfl, rfl⟩
    | first hlevel => omega
  | group h ih =>
    cases h' with
    | group h' =>
      obtain ⟨he, hrest⟩ := ih h'
      exact ⟨he, List.tail_eq_of_cons_eq hrest⟩
    | first hlevel => omega
  | not h ih =>
    cases h' with
    | not h' =>
      obtain ⟨rfl, rfl⟩ := ih h'
      exact ⟨rfl, rfl⟩
    | first hlevel => omega
  | first hlevel hleft h ihLeft ih =>
    cases h' with
    | first _ hleft' h' =>
      obtain ⟨rfl, rfl⟩ := ihLeft hleft'
      exact ih h'
    | _ => omega
  | next hlevel hright h ihRight ih =>
    cases h' with
    | next _ hright' h' =>
      obtain ⟨rfl, rfl⟩ := ihRight hright'
      exact ih h'
    | stop hends => simp [Ends, continues, hlevel] at hends
  | cond hyes hno ihYes ihNo =>
    cases h' with
    | cond hyes' hno' =>
      obtain ⟨rfl, hus⟩ := ihYes hyes'
      obtain ⟨rfl, rfl⟩ := ihNo (List.tail_eq_of_cons_eq hus ▸ hno')
      exact ⟨rfl, rfl⟩
    | stop hends => simp [Ends, continues] at hends
  | stop hends =>
    cases h' with
    | next hlevel => simp [Ends, continues, hlevel] at hends
    | cond => simp [Ends, continues] at hends
    | stop => exact ⟨rfl, rfl⟩

/-! ### Every derivation is read -/

theorem BinaryOp.level_lt (op : BinaryOp) : op.level < 5 := by
  cases op <;> decide

theorem BinaryOp.level_pos (op : BinaryOp) : 0 < op.level := by
  cases op <;> decide

theorem Derives.level_le {level : Nat} {ts : List Lexeme} {e : Expr} (h : Derives level ts e) :
    level ≤ 5 := by
  induction h with
  | binary hleft hright ihLeft ihRight => exact ihLeft
  | weaken h ih => omega
  | _ => omega

/-- An expression of a level is one of every level that binds less close. -/
theorem Derives.mono {level level' : Nat} {ts : List Lexeme} {e : Expr} (h : Derives level' ts e)
    (hle : level ≤ level') : Derives level ts e := by
  induction hle with
  | refl => exact h
  | step _ ih => exact ih h.weaken

/-- Nothing of an expression of the level or of one that binds closer goes on in a row of
lexemes. -/
structure Closed (level : Nat) (ts : List Lexeme) : Prop where
  separate : Separate ts
  ends : ∀ k, level ≤ k → Ends k ts

variable {level : Nat} {ts rest : List Lexeme} {e : Expr}

theorem Closed.mono {level' : Nat} (h : Closed level ts) (hle : level ≤ level') :
    Closed level' ts :=
  ⟨h.separate, fun k hk => h.ends k (hle.trans hk)⟩

theorem closed_nil : Closed level [] :=
  ⟨by simp [Separate], by simp [Ends]⟩

theorem closed_closing : Closed level (.closing :: ts) :=
  ⟨by simp [Separate], by simp [Ends, continues]⟩

theorem closed_colon : Closed level (.colon :: ts) :=
  ⟨by simp [Separate], by simp [Ends, continues]⟩

theorem closed_question : Closed (level + 1) (.question :: ts) :=
  ⟨by simp [Separate], by simp [Ends, continues]; omega⟩

theorem closed_op {op : BinaryOp} (h : op.level < level) : Closed level (.op op :: ts) :=
  ⟨by simp [Separate], by simp [Ends, continues]; omega⟩

/-- Primary expressions and signs are not gone on with. -/
theorem closed_of_separate (h : Separate ts) : Closed 5 ts where
  separate := h
  ends := by
    intro k hk t _
    cases t with
    | op op =>
      have := op.level_lt
      simp only [continues, beq_eq_false_iff_ne]
      omega
    | question =>
      simp only [continues, beq_eq_false_iff_ne]
      omega
    | _ => rfl

/-- What a derivation of a level makes certain. An operand of an operator that groups to the left is
read together with what it goes on with. -/
def Readable (ts : List Lexeme) (e : Expr) : (level : Nat) → Prop
  | 0 => ∀ rest, Closed 0 rest → Reads (.whole 0) (ts ++ rest) e rest
  | level + 1 => ∀ rest e' rest', Closed (level + 2) rest →
    Reads (.after (level + 1) e) rest e' rest' →
      Reads (.whole (level + 1)) (ts ++ rest) e' rest'

/-- An expression with nothing to go on with is read up to its end. -/
theorem Readable.reads (h : Readable ts e (level + 1)) (hrest : Closed (level + 1) rest) :
    Reads (.whole (level + 1)) (ts ++ rest) e rest :=
  h rest e rest (hrest.mono (Nat.le_succ _)) (.stop (hrest.ends _ (Nat.le_refl _)))

theorem readable_five (h : ∀ rest, Separate rest → Reads (.whole 5) (ts ++ rest) e rest) :
    Readable ts e 5 := by
  intro rest e' rest' hclosed hafter
  cases hafter with
  | next hlevel => exact absurd hlevel (BinaryOp.level_lt _).ne
  | stop => exact h rest hclosed.separate

theorem Derives.readable (h : Derives level ts e) : Readable ts e level := by
  induction h with
  | number n => exact readable_five fun rest _ => .number n rest
  | name text => exact readable_five fun rest hrest => .name text hrest
  | call h =>
    apply readable_five
    intro rest _
    cases h with
    | plain => exact .call _ rest
    | qualified space text => exact .qualified space text rest
  | group h ih =>
    apply readable_five
    intro rest _
    rw [List.cons_append, List.append_assoc]
    exact .group (ih _ closed_closing)
  | not h ih =>
    apply readable_five
    intro rest hrest
    exact .not (ih.reads (closed_of_separate hrest))
  | @binary op ls rs left right hleft hright ihLeft ihRight =>
    -- the left operand is read together with the operator and the right operand
    obtain ⟨level, hlevel⟩ : ∃ level, op.level = level + 1 :=
      Nat.exists_eq_succ_of_ne_zero op.level_pos.ne'
    rw [hlevel] at ihLeft ihRight ⊢
    intro rest e' rest' hclosed hafter
    rw [List.append_assoc, List.cons_append]
    refine ihLeft _ e' rest' (closed_op (by omega)) ?_
    exact .next hlevel (ihRight.reads hclosed) hafter
  | cond htest hyes hno ihTest ihYes ihNo =>
    intro rest hclosed
    rw [List.append_assoc, List.cons_append, List.append_assoc, List.cons_append]
    refine .first (by decide) (ihTest.reads closed_question) ?_
    exact .cond (ihYes _ closed_colon) (ihNo rest hclosed)
  | @weaken level ts e h ih =>
    have hle := h.level_le
    cases level with
    | zero =>
      intro rest hclosed
      have hfirst := ih.reads (hclosed.mono (Nat.zero_le 1))
      exact .first (by decide) hfirst (.stop (hclosed.ends 0 (Nat.le_refl 0)))
    | succ level =>
      intro rest e' rest' hclosed hafter
      exact .first (by omega) (ih.reads hclosed) hafter

/-- A row of lexemes has one reading as an expression. -/
theorem Derives.unique {e' : Expr} (h : Derives 0 ts e) (h' : Derives 0 ts e') : e = e' :=
  ((h.readable [] closed_nil).deterministic (h'.readable [] closed_nil)).1

end BitClassifier.Source
