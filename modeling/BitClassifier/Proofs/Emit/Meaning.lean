import BitClassifier.Proofs.Emit.Shorthands
import BitClassifier.Proofs.Predicate.Within
import BitClassifier.Proofs.Source.Meaning

/-!
# The meaning of emitted expressions

An emitted expression is well formed, it has one reading, and its value is known (`Predicate.word`):
1 or 0, but for a test of the masked input against zero that decides the answer, which yields the
masked input itself. Its truth value is the answer of the predicate (`classifier_meaning`).
-/

namespace BitClassifier

open Source
open Piece (lexemes)

namespace Predicate

/-- The value of the emitted expression. -/
def word (c : CodeValue) : Predicate → CodeValue
  | bitTest mask value false =>
    if value &&& mask = 0#32 then c &&& mask else truth (c &&& mask != value &&& mask)
  | cond bit on off => if hits c bit then on.word c else off.word c
  | p => truth (p.eval c)

/-- The value of an emitted comparison with `value`, where `v` is the input under the mask. -/
def compared (v value : CodeValue) (equals : Bool) : CodeValue :=
  if equals = false ∧ value = 0#32 then v else truth ((v == value) == equals)

theorem word_bitTest (c mask value : CodeValue) (equals : Bool) :
    (bitTest mask value equals).word c = compared (c &&& mask) (value &&& mask) equals := by
  cases equals with
  | true => simp [word, compared, eval]
  | false =>
    by_cases hzero : value &&& mask = 0#32
    · simp [word, compared, hzero]
    · simp [word, compared, hzero, bne]

/-- The truth value of the emitted expression is the answer. -/
theorem word_ne_zero (c : CodeValue) (p : Predicate) : p.word c ≠ 0#32 ↔ p.eval c = true := by
  induction p with
  | bitTest mask value equals =>
    cases equals with
    | false =>
      rw [word]
      split
      · rename_i hzero
        simp [eval, hzero]
      · simp [eval]
    | true => exact truth_ne_zero _
  | cond bit on off ihOn ihOff =>
    rw [word, eval]
    split <;> assumption
  | _ => exact truth_ne_zero _

end Predicate

theorem bne_zero_eq {v : CodeValue} {b : Bool} (h : v ≠ 0#32 ↔ b = true) : (v != 0#32) = b := by
  rw [Bool.eq_iff_iff, bne_iff_ne]
  exact h

/-- What the names in a classifier stand for on an input. The counting functions that count for a
branch that is taken hold, and the others fail. -/
def Language.scope (l : Language) (c : CodeValue) : Scope where
  value? name :=
    if name = "c" then some c
    else if l = .cpp ∧ name = l.constant true then some (truth true)
    else if l = .cpp ∧ name = l.constant false then some (truth false)
    else none
  result? name :=
    if name = l.counter .moreTrue ∨ name = l.counter .lessTrue then some (truth true)
    else if name = l.counter .moreFalse ∨ name = l.counter .lessFalse then some (truth false)
    else none

/-- If the left operand decides, the right one does not matter. -/
theorem BinaryOp.apply_of_decides {op : BinaryOp} {v : CodeValue} (h : op.decides v = true)
    (v' : CodeValue) : op.apply v v' = truth (v != 0#32) := by
  cases op with
  | or => simp_all [BinaryOp.decides, BinaryOp.apply, truth]
  | and => simp_all [BinaryOp.decides, BinaryOp.apply]
  | _ => cases h

/-- A row of lexemes is an expression of a level with a known value on every input of the
domain. -/
def Style.Yields (s : Style) (level : Nat) (ts : List Lexeme) (f : CodeValue → CodeValue) : Prop :=
  ∃ e, Derives level ts e ∧ ∀ c, s.width.contains c = true →
    ∃ calls, e.run (s.language.scope c) = some (f c, calls)

namespace Style.Yields

variable {s : Style} {level : Nat} {ts us vs : List Lexeme} {f g h : CodeValue → CodeValue}

theorem congr (hf : s.Yields level ts f) (heq : ∀ c, s.width.contains c = true → f c = g c) :
    s.Yields level ts g := by
  obtain ⟨e, he, hrun⟩ := hf
  exact ⟨e, he, fun c hc => heq c hc ▸ hrun c hc⟩

theorem mono {level' : Nat} (hf : s.Yields level' ts f) (hle : level ≤ level') :
    s.Yields level ts f := by
  obtain ⟨e, he, hrun⟩ := hf
  exact ⟨e, he.mono hle, hrun⟩

theorem group (hf : s.Yields 0 ts f) : s.Yields 5 (.opening :: (ts ++ [.closing])) f := by
  obtain ⟨e, he, hrun⟩ := hf
  exact ⟨e, .group he, hrun⟩

theorem not (hf : s.Yields 5 ts f) : s.Yields 5 (.not :: ts) fun c => truth (f c == 0#32) := by
  obtain ⟨e, he, hrun⟩ := hf
  refine ⟨_, .not he, fun c hc => ?_⟩
  obtain ⟨calls, hcalls⟩ := hrun c hc
  exact ⟨calls, by simp [Expr.run, hcalls]⟩

theorem run_binary {σ : Scope} {op : BinaryOp} {left right : Expr} {v v' : CodeValue}
    {calls calls' : List String} (hleft : left.run σ = some (v, calls))
    (hright : right.run σ = some (v', calls')) :
    ∃ calls'', (Expr.binary op left right).run σ = some (op.apply v v', calls'') := by
  by_cases hdecides : op.decides v = true
  · exact ⟨calls, by simp [Expr.run, hleft, hdecides, BinaryOp.apply_of_decides hdecides]⟩
  · exact ⟨calls ++ calls', by simp [Expr.run, hleft, hright, hdecides]⟩

theorem binary {op : BinaryOp} (hf : s.Yields op.level ts f) (hg : s.Yields (op.level + 1) us g) :
    s.Yields op.level (ts ++ .op op :: us) fun c => op.apply (f c) (g c) := by
  obtain ⟨left, hleft, hrunLeft⟩ := hf
  obtain ⟨right, hright, hrunRight⟩ := hg
  refine ⟨_, .binary hleft hright, fun c hc => ?_⟩
  obtain ⟨calls, hcalls⟩ := hrunLeft c hc
  obtain ⟨calls', hcalls'⟩ := hrunRight c hc
  exact run_binary hcalls hcalls'

/-- The operands of a conjunction may be conjunctions on both sides. -/
theorem and (hf : s.Yields 2 ts f) (hg : s.Yields 2 us g) :
    s.Yields 2 (ts ++ .op .and :: us) fun c => truth (f c != 0#32 && g c != 0#32) := by
  obtain ⟨left, hleft, hrunLeft⟩ := hf
  obtain ⟨right, hright, hrunRight⟩ := hg
  obtain ⟨e, he, hrun⟩ := hleft.and hright
  refine ⟨e, he, fun c hc => ?_⟩
  obtain ⟨calls, hcalls⟩ := hrunLeft c hc
  obtain ⟨calls', hcalls'⟩ := hrunRight c hc
  rw [hrun]
  exact run_binary hcalls hcalls'

theorem cond (hf : s.Yields 1 ts f) (hg : s.Yields 0 us g) (hh : s.Yields 0 vs h) :
    s.Yields 0 (ts ++ .question :: (us ++ .colon :: vs))
      fun c => if f c = 0#32 then h c else g c := by
  obtain ⟨test, htest, hrunTest⟩ := hf
  obtain ⟨yes, hyes, hrunYes⟩ := hg
  obtain ⟨no, hno, hrunNo⟩ := hh
  refine ⟨_, .cond htest hyes hno, fun c hc => ?_⟩
  obtain ⟨calls, hcalls⟩ := hrunTest c hc
  obtain ⟨calls', hcalls'⟩ := hrunYes c hc
  obtain ⟨calls'', hcalls''⟩ := hrunNo c hc
  by_cases hzero : f c = 0#32
  · exact ⟨calls ++ calls'', by simp [Expr.run, hcalls, hcalls'', hzero]⟩
  · exact ⟨calls ++ calls', by simp [Expr.run, hcalls, hcalls', hzero]⟩

end Style.Yields

namespace Style

variable (s : Style)

theorem yields_c : s.Yields 5 [.name "c"] fun c => c :=
  ⟨_, .name "c", fun c _ => ⟨[], by simp [Expr.run, Language.scope]⟩⟩

theorem yields_number (v : CodeValue) : s.Yields 5 [.number v.toNat] fun _ => v :=
  ⟨_, .number _, fun c _ => ⟨[], by simp [Expr.run, v.isLt]⟩⟩

theorem yields_constant (b : Bool) :
    s.Yields 5 [constantLexeme s.language b] fun _ => truth b := by
  cases hl : s.language with
  | c => exact ⟨_, .number _, fun c _ => ⟨[], by cases b <;> simp [Expr.run, truth]⟩⟩
  | cpp =>
    refine ⟨_, .name _, fun c _ => ⟨[], ?_⟩⟩
    cases b <;> simp [Expr.run, hl, Language.scope, Language.constant]

theorem named_counter (l : Language) (k : Counter) : Named (l.counter k) (k.lexemes l) := by
  have hqualified : ∀ {function text : String}, function = "Profiler" ++ "::" ++ text →
      Named function [.name "Profiler", .scope, .name text] := by
    rintro _ text rfl
    exact .qualified "Profiler" text
  cases l with
  | c => exact .plain _
  | cpp => cases k <;> exact hqualified (by decide)

theorem yields_call {k : Counter} {b : Bool}
    (hk : ∀ c, (s.language.scope c).result? (s.language.counter k) = some (truth b)) :
    s.Yields 5 (k.call s.language) fun _ => truth b :=
  ⟨_, .call (named_counter s.language k), fun c _ =>
    ⟨[s.language.counter k], by simp [Expr.run, hk c]⟩⟩

theorem result?_holds (l : Language) (c : CodeValue) {k : Counter}
    (hk : k = .moreTrue ∨ k = .lessTrue) :
    (l.scope c).result? (l.counter k) = some (truth true) := by
  rcases hk with rfl | rfl <;> simp [Language.scope]

theorem result?_fails (l : Language) (c : CodeValue) {k : Counter}
    (hk : k = .moreFalse ∨ k = .lessFalse) :
    (l.scope c).result? (l.counter k) = some (truth false) := by
  rcases hk with rfl | rfl <;> cases l <;> simp [Language.scope, Language.counter]

/-- A shorthand keeps the truth value of its operand. -/
theorem Yields.operand {s : Style} {xs : List Lexeme} {f : CodeValue → CodeValue} (w : Wrapper)
    (hf : s.Yields 2 xs f) :
    ∃ g, s.Yields w.level (s.operand w xs) g ∧ ∀ c, (g c ≠ 0#32 ↔ f c ≠ 0#32) := by
  rw [Style.operand]
  split
  · have hgroup : s.Yields 5 (.opening :: (xs ++ [.closing])) f := (hf.mono (by decide)).group
    have hinc := (s.yields_call fun c => result?_holds s.language c (.inl rfl)).mono
      (by decide : 2 ≤ 5)
    have hand := hinc.and (hgroup.mono (by decide))
    cases w with
    | ja =>
      have hdec := (s.yields_call fun c => result?_holds s.language c (.inr rfl)).mono
        (by decide : 2 ≤ 5)
      exact ⟨_, hand.and hdec, fun c => by simp [truth]⟩
    | jo =>
      have hfails := s.yields_call fun c => result?_fails s.language c (.inl rfl)
      have hdec := s.yields_call fun c => result?_fails s.language c (.inr rfl)
      have hor : s.Yields BinaryOp.or.level _ _ :=
        (hfails.mono (by decide)).binary (hgroup.mono (by decide))
      exact ⟨_, hor.binary (hdec.mono (by decide)), fun c => by simp [BinaryOp.apply, truth]⟩
    | jr =>
      exact ⟨_, ((hand.mono (by decide)).group).mono (by decide), fun c => by simp [truth]⟩
  · refine ⟨f, hf.mono ?_, fun c => Iff.rfl⟩
    cases w <;> decide

/-- The input stands for itself under the mask of the whole domain. -/
theorem yields_whole :
    s.Yields 5 (lexemes [.token (.word "c")]) fun c => c &&& s.width.maxValue := by
  have hlexemes : lexemes [.token (.word "c")] = [.name "c"] := by simp [Token.lexemes]
  rw [hlexemes]
  exact s.yields_c.congr fun c hc => (Width.and_maxValue hc).symm

theorem yields_masked (mask : CodeValue) :
    s.Yields 3 (lexemes (s.masked mask)) fun c => c &&& mask := by
  rw [masked]
  split
  · rename_i hwhole
    subst hwhole
    exact s.yields_whole.mono (by decide)
  · have hlexemes : lexemes [.token (.word "c"), .token .bitAnd, .token (.hex mask)] =
        [.name "c"] ++ .op .bitAnd :: [.number mask.toNat] := by simp [Token.lexemes]
    have hand : s.Yields BinaryOp.bitAnd.level _ _ :=
      (s.yields_c.mono (by decide)).binary ((s.yields_number mask).mono (by decide))
    rw [hlexemes]
    exact hand

theorem yields_group (mask : CodeValue) :
    s.Yields 5 (.opening :: (lexemes (s.masked mask) ++ [.closing])) fun c => c &&& mask :=
  ((s.yields_masked mask).mono (by decide)).group

/-- The left side of a comparison with a value other than zero. -/
theorem yields_left (mask : CodeValue) :
    s.Yields 5 (lexemes (if mask = s.width.maxValue then s.masked mask
      else [.token .opening] ++ s.masked mask ++ [.token .closing])) fun c => c &&& mask := by
  split
  · rename_i hwhole
    subst hwhole
    rw [masked, if_pos rfl]
    exact s.yields_whole
  · simpa [Token.lexemes] using s.yields_group mask

/-- Where the mask has no bits, nothing but zero may be compared. -/
theorem yields_test {mask value : CodeValue} (h : mask = 0#32 → value = 0#32) (equals : Bool) :
    s.Yields 5 (lexemes (s.test mask value equals))
      fun c => Predicate.compared (c &&& mask) value equals := by
  rw [test]
  split
  · rename_i hmask
    have hvalue := h hmask
    subst hmask hvalue
    refine Yields.congr (by simpa [Token.lexemes] using s.yields_constant equals) fun c _ => ?_
    cases equals <;> simp [Predicate.compared, truth]
  split
  · rename_i hvalue
    subst hvalue
    have hgroup := s.yields_group mask
    cases equals with
    | false =>
      refine Yields.congr (by simpa [Token.lexemes] using hgroup) fun c _ => ?_
      simp [Predicate.compared]
    | true =>
      refine Yields.congr (by simpa [Token.lexemes] using hgroup.not) fun c _ => ?_
      simp [Predicate.compared]
  · rename_i hvalue
    have hleft := (s.yields_left mask).mono (by decide : 4 ≤ 5)
    have hright := s.yields_number value
    cases equals with
    | false =>
      have hdiffer : s.Yields BinaryOp.notEqual.level _ _ := hleft.binary hright
      refine Yields.congr (by simpa [Token.lexemes] using (hdiffer.mono (by decide)).group)
        fun c _ => ?_
      simp [Predicate.compared, hvalue, BinaryOp.apply, bne]
    | true =>
      have hagree : s.Yields BinaryOp.equal.level _ _ := hleft.binary hright
      refine Yields.congr (by simpa [Token.lexemes] using (hagree.mono (by decide)).group)
        fun c _ => ?_
      simp [Predicate.compared, BinaryOp.apply]

theorem yields_jump (bit : CodeValue) :
    s.Yields 5 (jump bit) fun c => truth (c &&& bit == 0#32) := by
  have hand : s.Yields BinaryOp.bitAnd.level _ _ :=
    (s.yields_c.mono (by decide)).binary ((s.yields_number bit).mono (by decide))
  exact ((hand.mono (by decide)).group).not

/-- The lexemes of an emitted expression, with its shorthands written out, are an expression whose
value is known. -/
theorem yields_expanded {p : Predicate} (hp : p.Within s.width) :
    s.Yields 2 (s.expanded p) fun c => p.word c := by
  induction p with
  | constant answer => exact (s.yields_constant answer).mono (by decide)
  | bitTest mask value equals =>
    have hvalue : mask = 0#32 → value &&& mask = 0#32 := by
      rintro rfl
      exact BitVec.and_zero
    rw [expanded, Width.and_maxValue hp]
    refine ((s.yields_test hvalue equals).mono (by decide)).congr fun c _ => ?_
    rw [Predicate.word_bitTest]
  | and left right ihLeft ihRight =>
    obtain ⟨f, hf, hleft⟩ := (ihLeft hp.1).operand .ja
    obtain ⟨g, hg, hright⟩ := (ihRight hp.2).operand .jr
    refine (hf.and hg).congr fun c _ => ?_
    rw [bne_zero_eq ((hleft c).trans (left.word_ne_zero c)),
      bne_zero_eq ((hright c).trans (right.word_ne_zero c))]
    rfl
  | or left right ihLeft ihRight =>
    obtain ⟨f, hf, hleft⟩ := (ihLeft hp.1).operand .jo
    obtain ⟨g, hg, hright⟩ := (ihRight hp.2).operand .jr
    have hor : s.Yields BinaryOp.or.level _ _ := hf.binary hg
    have hgroup := ((hor.mono (by decide)).group).mono (by decide : 2 ≤ 5)
    refine Yields.congr (by simpa [expanded] using hgroup) fun c _ => ?_
    rw [BinaryOp.apply, bne_zero_eq ((hleft c).trans (left.word_ne_zero c)),
      bne_zero_eq ((hright c).trans (right.word_ne_zero c))]
    rfl
  | cond bit on off ihOn ihOff =>
    obtain ⟨f, hf, hjump⟩ := ((s.yields_jump bit).mono (by decide)).operand .ja
    have hcond := (hf.mono (by decide)).cond ((ihOff hp.2.2).mono (by decide))
      ((ihOn hp.2.1).mono (by decide))
    have hgroup := hcond.group.mono (by decide : 2 ≤ 5)
    refine Yields.congr (by simpa [expanded] using hgroup) fun c _ => ?_
    have hzero : f c = 0#32 ↔ hits c bit = true := by
      have h := hjump c
      simp only [truth_ne_zero, beq_iff_eq] at h
      rw [hits, bne_iff_ne]
      exact (not_iff_comm.mp h).symm
    simp only [Predicate.word, hzero]

/-! ### Classifiers -/

/-- The head of a classifier's function up to its expression. -/
def heading (name : String) : String :=
  unlines [s.language.boolType ++ " " ++ name ++ "(uint32_t c)", "\x7b"]
    ++ (if s.profiler then "\t" ++ s.language.counter .reset ++ "();\n" else "")
    ++ "\treturn\n\t\t"

theorem classifier_eq (name : String) (p : Predicate) :
    s.classifier name p =
      s.preamble ++ s.heading name ++ Piece.join (s.expression 2 p) ++ "\n\t;\n\x7d\n" := by
  simp [classifier, preamble, heading, String.append_assoc]

/-- A reading of the lexemes of an expression, with its shorthands written out, is one of its
text. -/
theorem parses_of_derives {p : Predicate} {e : Expr} (h : Derives 0 (s.expanded p) e)
    (indent : Nat) :
    Parses (definitions s.preamble.toList) (Piece.join (s.expression indent p)).toList e := by
  refine ⟨lexemes (s.expression indent p), _, ?_, ?_, h⟩
  · rw [Piece.toList_join]
    simpa using s.legible_expression indent p [] begins_nil
  · rw [definitions_preamble]
    exact (s.expands_expression indent p).expand_eq

/-- The text of an expression is well formed if its lexemes are an expression with a known value. -/
theorem parses_of_yields {p : Predicate} {f : CodeValue → CodeValue}
    (h : s.Yields 2 (s.expanded p) f) (indent : Nat) :
    ∃ e, Parses (definitions s.preamble.toList) (Piece.join (s.expression indent p)).toList e ∧
      ∀ c, s.width.contains c = true →
        ∃ calls, e.run (s.language.scope c) = some (f c, calls) := by
  obtain ⟨e, he, hrun⟩ := h.mono (Nat.zero_le 2)
  exact ⟨e, s.parses_of_derives he indent, hrun⟩

/-- The text of an emitted expression is well formed, and its value is known. -/
theorem parses_expression {p : Predicate} (hp : p.Within s.width) :
    ∃ e, Parses (definitions s.preamble.toList) (Piece.join (s.expression 2 p)).toList e ∧
      ∀ c, s.width.contains c = true →
        ∃ calls, e.run (s.language.scope c) = some (p.word c, calls) :=
  s.parses_of_yields (s.yields_expanded hp) 2

end Style

end BitClassifier
