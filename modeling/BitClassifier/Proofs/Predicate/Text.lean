import BitClassifier.Predicate.Basic
import BitClassifier.Proofs.Emit.Lexemes

/-!
# The text of predicates

The text of a predicate is unambiguous. It is cut into lexemes (`lexes_text`), and no row of lexemes
begins with those of two predicates (`readable`): behind a parenthesis the input stands for a test
or a jump, and everything else for a conjunction or disjunction. The text does not show the bits of
a tested value that are not compared (`masked`), but nothing else is lost (`text_unambiguous`).
-/

namespace BitClassifier

open Source

namespace Predicate

/-- A predicate without the bits of tested values that are not compared. -/
def masked : Predicate → Predicate
  | constant answer => constant answer
  | bitTest mask value equals => bitTest mask (value &&& mask) equals
  | and left right => and left.masked right.masked
  | or left right => or left.masked right.masked
  | cond bit on off => cond bit on.masked off.masked

theorem text_masked (p : Predicate) : p.masked.text = p.text := by
  induction p with
  | constant answer => rfl
  | bitTest mask value equals => rw [masked, text, text, BitVec.and_assoc, BitVec.and_self]
  | and left right ihLeft ihRight => rw [masked, text, text, ihLeft, ihRight]
  | or left right ihLeft ihRight => rw [masked, text, text, ihLeft, ihRight]
  | cond bit on off ihOn ihOff => rw [masked, text, text, ihOn, ihOff]

theorem eval_masked (c : CodeValue) (p : Predicate) : p.masked.eval c = p.eval c := by
  induction p with
  | constant answer => rfl
  | bitTest mask value equals => rw [masked, eval, eval, BitVec.and_assoc, BitVec.and_self]
  | and left right ihLeft ihRight => rw [masked, eval, eval, ihLeft, ihRight]
  | or left right ihLeft ihRight => rw [masked, eval, eval, ihLeft, ihRight]
  | cond bit on off ihOn ihOff => rw [masked, eval, eval, ihOn, ihOff]

/-! ### Lexemes -/

/-- The lexemes of a constant. -/
def answerLexeme (answer : Bool) : Lexeme :=
  .name (if answer then "true" else "false")

/-- The lexemes of the text. -/
def lexemes : Predicate → List Lexeme
  | constant answer => [answerLexeme answer]
  | bitTest mask value equals =>
    [.opening, .name "c", .op .bitAnd, .number mask.toNat, .closing,
      .op (if equals then .equal else .notEqual), .number (value &&& mask).toNat]
  | and left right => .opening :: (left.lexemes ++ .op .and :: (right.lexemes ++ [.closing]))
  | or left right => .opening :: (left.lexemes ++ .op .or :: (right.lexemes ++ [.closing]))
  | cond bit on off =>
    .opening :: .name "c" :: .op .bitAnd :: .number bit.toNat :: .question
      :: (on.lexemes ++ .colon :: (off.lexemes ++ [.closing]))

/-- The text is read lexeme by lexeme. -/
theorem lexes_text (p : Predicate) : Lexes p.text.toList p.lexemes := by
  induction p with
  | constant answer => cases answer <;> exact lexes_word (by decide) (by decide)
  | bitTest mask value equals =>
    intro rest hrest
    cases equals <;>
      simp [text, lexemes, Hex.text, lex_c, lex_bitAnd, lex_hex, hrest, lex_space, isWordChar,
        Function.comp_def]
  | and left right ihLeft ihRight =>
    intro rest hrest
    simp [text, lexemes, ihLeft, ihRight, lex_space, isWordChar, Function.comp_def]
  | or left right ihLeft ihRight =>
    intro rest hrest
    simp [text, lexemes, ihLeft, ihRight, lex_space, isWordChar, Function.comp_def]
  | cond bit on off ihOn ihOff =>
    intro rest hrest
    simp [text, lexemes, Hex.text, lex_c, lex_bitAnd, lex_hex, lex_colon, ihOn, ihOff, lex_space,
      isWordChar, Function.comp_def]

/-! ### Unique readability -/

/-- No predicate begins with the input, so behind a parenthesis the input is that of a test or of a
jump. -/
theorem lexemes_ne_input (p : Predicate) (rest us : List Lexeme) :
    p.lexemes ++ rest ≠ .name "c" :: us := by
  cases p with
  | constant answer => cases answer <;> simp [lexemes, answerLexeme]
  | _ => simp [lexemes]

/-- A predicate can be told from what follows it: no other one begins the same row of lexemes. -/
def Readable (p : Predicate) : Prop :=
  ∀ {q : Predicate} {rest rest' : List Lexeme}, p.lexemes ++ rest = q.lexemes ++ rest' →
    p.masked = q.masked ∧ rest = rest'

/-- Two operands with an operator between them can be told apart. -/
theorem Readable.pair {left right left' right' : Predicate} {op op' : BinaryOp}
    {rest rest' : List Lexeme} (hleft : left.Readable) (hright : right.Readable)
    (h : left.lexemes ++ .op op :: (right.lexemes ++ .closing :: rest) =
      left'.lexemes ++ .op op' :: (right'.lexemes ++ .closing :: rest')) :
    left.masked = left'.masked ∧ op = op' ∧ right.masked = right'.masked ∧ rest = rest' := by
  obtain ⟨hmasked, htail⟩ := hleft h
  obtain ⟨hop, htail⟩ := List.cons.inj htail
  obtain ⟨hmasked', htail⟩ := hright htail
  exact ⟨hmasked, Lexeme.op.inj hop, hmasked', List.tail_eq_of_cons_eq htail⟩

/-- What begins with an operand behind a parenthesis is a predicate with the same operator. -/
theorem Readable.joined {left right q : Predicate} {op : BinaryOp} {rest rest' : List Lexeme}
    (hleft : left.Readable) (hright : right.Readable)
    (h : .opening :: (left.lexemes ++ .op op :: (right.lexemes ++ .closing :: rest)) =
      q.lexemes ++ rest') :
    ∃ left' right', (q = and left' right' ∧ op = .and ∨ q = or left' right' ∧ op = .or) ∧
      left.masked = left'.masked ∧ right.masked = right'.masked ∧ rest = rest' := by
  cases q with
  | constant answer => simp [lexemes, answerLexeme] at h
  | and left' right' =>
    simp only [lexemes, List.cons_append, List.append_assoc, List.nil_append, List.cons.injEq,
      true_and] at h
    obtain ⟨hmasked, hop, hmasked', hrest⟩ := hleft.pair hright h
    exact ⟨left', right', .inl ⟨rfl, hop⟩, hmasked, hmasked', hrest⟩
  | or left' right' =>
    simp only [lexemes, List.cons_append, List.append_assoc, List.nil_append, List.cons.injEq,
      true_and] at h
    obtain ⟨hmasked, hop, hmasked', hrest⟩ := hleft.pair hright h
    exact ⟨left', right', .inr ⟨rfl, hop⟩, hmasked, hmasked', hrest⟩
  | _ => exact absurd (List.cons.inj h).2 (left.lexemes_ne_input _ _)

theorem readable (p : Predicate) : p.Readable := by
  induction p with
  | constant answer =>
    intro q rest rest' h
    cases q with
    | constant answer' => cases answer <;> cases answer' <;> simp_all [lexemes, answerLexeme, masked]
    | _ => simp [lexemes, answerLexeme] at h
  | bitTest mask value equals =>
    intro q rest rest' h
    cases q with
    | bitTest mask' value' equals' =>
      simp only [lexemes, List.cons_append, List.nil_append, List.cons.injEq, Lexeme.number.injEq,
        BitVec.toNat_inj, true_and] at h
      obtain ⟨rfl, hequals, hvalue, hrest⟩ := h
      have hequals' : equals = equals' := by
        cases equals <;> cases equals' <;> simp_all
      exact ⟨by rw [masked, masked, hvalue, hequals'], hrest⟩
    | and left right | or left right =>
      simp only [lexemes, List.cons_append, List.append_assoc, List.cons.injEq, true_and] at h
      exact absurd h.symm (left.lexemes_ne_input _ _)
    | _ => simp [lexemes, answerLexeme] at h
  | and left right ihLeft ihRight =>
    intro q rest rest' h
    simp only [lexemes, List.cons_append, List.append_assoc, List.nil_append] at h
    obtain ⟨left', right', ⟨rfl, -⟩ | ⟨-, hop⟩, hmasked, hmasked', hrest⟩ := ihLeft.joined ihRight h
    · exact ⟨by rw [masked, masked, hmasked, hmasked'], hrest⟩
    · cases hop
  | or left right ihLeft ihRight =>
    intro q rest rest' h
    simp only [lexemes, List.cons_append, List.append_assoc, List.nil_append] at h
    obtain ⟨left', right', ⟨-, hop⟩ | ⟨rfl, -⟩, hmasked, hmasked', hrest⟩ := ihLeft.joined ihRight h
    · cases hop
    · exact ⟨by rw [masked, masked, hmasked, hmasked'], hrest⟩
  | cond bit on off ihOn ihOff =>
    intro q rest rest' h
    cases q with
    | cond bit' on' off' =>
      simp only [lexemes, List.cons_append, List.append_assoc, List.nil_append, List.cons.injEq,
        Lexeme.number.injEq, BitVec.toNat_inj, true_and] at h
      obtain ⟨hbit, h⟩ := h
      obtain ⟨hon, h⟩ := ihOn h
      obtain ⟨hoff, h⟩ := ihOff (List.tail_eq_of_cons_eq h)
      exact ⟨by rw [masked, masked, hbit, hon, hoff], List.tail_eq_of_cons_eq h⟩
    | and left right | or left right =>
      simp only [lexemes, List.cons_append, List.append_assoc, List.cons.injEq, true_and] at h
      exact absurd h.symm (left.lexemes_ne_input _ _)
    | _ => simp [lexemes, answerLexeme] at h

/-- Two predicates have the same text exactly if they are equal up to the bits of tested values that
are not compared. So predicates with the same text give the same answers. -/
theorem text_unambiguous (p q : Predicate) :
    (p.text = q.text ↔ p.masked = q.masked) ∧ (p.text = q.text → ∀ c, p.eval c = q.eval c) := by
  have hlex : ∀ p : Predicate, lex p.text.toList = some p.lexemes := by
    intro p
    simpa using p.lexes_text [] begins_nil
  have hiff : p.text = q.text ↔ p.masked = q.masked := by
    constructor
    · intro htext
      have hsame := hlex p
      rw [htext, hlex q] at hsame
      have hlexemes : p.lexemes ++ [] = q.lexemes ++ [] := by rw [Option.some.inj hsame]
      exact (p.readable hlexemes).1
    · intro hmasked
      rw [← text_masked p, hmasked, text_masked q]
  refine ⟨hiff, fun htext c => ?_⟩
  rw [← eval_masked c p, hiff.mp htext, eval_masked c q]

end Predicate

end BitClassifier
