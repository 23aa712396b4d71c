import BitClassifier.Emit.Test
import BitClassifier.Proofs.Emit.Lexemes
import BitClassifier.Proofs.Source.Routine

/-!
# Reading initializers

The list of the matching values in an emitted test is written by a loop of its own, in rows and with
commas between the values. Its text has the values as its numbers (`Style.lex_initializer`), and
they are read in order (`Style.numbers?_initializer`).
-/

namespace BitClassifier

open Source

namespace Style

/-- The lexemes of an initializer behind its first number. -/
def furtherLexemes (codes : List CodeValue) : List Lexeme :=
  codes.flatMap fun v => [.mark .comma, .number v.toNat]

/-- The lexemes of an initializer. -/
def initializerLexemes : List CodeValue → List Lexeme
  | [] => [.number 0]
  | v :: codes => .number v.toNat :: furtherLexemes codes

variable {rest : List Char} {codes : List CodeValue} {v : CodeValue} {k : Nat}

theorem lex_initializerPiece_zero (h : Begins isWordChar rest) :
    lex ((initializerPiece v 0).toList ++ rest) = (lex rest).map (.number v.toNat :: ·) := by
  have hlex := lex_hex v.toNat h
  simpa [initializerPiece, Hex.text, lex_layout, isLayout] using hlex

theorem lex_initializerPiece (hk : 0 < k) (h : Begins isWordChar rest) :
    lex ((initializerPiece v k).toList ++ rest) =
      (lex rest).map fun ts => .mark .comma :: .number v.toNat :: ts := by
  have hlex := lex_hex v.toNat h
  have hcomma (cs : List Char) : lex (',' :: cs) = (lex cs).map (.mark .comma :: ·) :=
    lex_single rfl rfl rfl fun _ _ => rfl
  rw [initializerPiece, if_neg (by omega)]
  split <;> simp [Hex.text, hcomma, lex_layout, isLayout, hlex, Function.comp_def]

theorem begins_initializerPiece (hk : 0 < k) (cs : List Char) :
    Begins isWordChar ((initializerPiece v k).toList ++ cs) := by
  rw [initializerPiece, if_neg (by omega)]
  simp [isWordChar]

/-- The text of values in an initializer, from an index on. -/
def initializerRow (codes : List CodeValue) (k : Nat) : List Char :=
  (codes.zipIdx k).flatMap fun (v, k) => (initializerPiece v k).toList

theorem begins_initializerRow (hk : 0 < k) (h : Begins isWordChar rest) :
    Begins isWordChar (initializerRow codes k ++ rest) := by
  cases codes with
  | nil => exact h
  | cons v codes =>
    rw [initializerRow, List.zipIdx_cons, List.flatMap_cons, List.append_assoc]
    exact begins_initializerPiece hk _

theorem lex_initializerRow (hk : 0 < k) (h : Begins isWordChar rest) :
    lex (initializerRow codes k ++ rest) = (lex rest).map (furtherLexemes codes ++ ·) := by
  induction codes generalizing k with
  | nil => simp [initializerRow, furtherLexemes]
  | cons v codes ih =>
    have hbegins : Begins isWordChar (initializerRow codes (k + 1) ++ rest) :=
      begins_initializerRow (Nat.succ_pos k) h
    have hrest := ih (Nat.succ_pos k)
    rw [initializerRow] at hbegins hrest ⊢
    rw [List.zipIdx_cons, List.flatMap_cons, List.append_assoc, lex_initializerPiece hk hbegins,
      hrest]
    simp [furtherLexemes, Function.comp_def]

theorem toList_initializer (v : CodeValue) (codes : List CodeValue) :
    (initializer (v :: codes)).toList =
      (initializerPiece v 0).toList ++ initializerRow codes 1 := by
  simp [initializer, initializerRow, String.toList_join, List.zipIdx_cons, List.flatMap_map]

theorem lex_initializer (codes : List CodeValue) (h : Begins isWordChar rest) :
    lex ((initializer codes).toList ++ rest) = (lex rest).map (initializerLexemes codes ++ ·) := by
  cases codes with
  | nil =>
    have hzero : lex ('0' :: rest) = (lex rest).map (.number 0 :: ·) :=
      lex_word (w := ['0']) rfl rfl h
    simp [initializer, lex_layout, isLayout, hzero, initializerLexemes]
  | cons v codes =>
    rw [toList_initializer, List.append_assoc,
      lex_initializerPiece_zero (begins_initializerRow Nat.one_pos h),
      lex_initializerRow Nat.one_pos h]
    simp [initializerLexemes, Function.comp_def]

/-- The characters of an initializer. -/
def isListChar (c : Char) : Bool :=
  c == '\n' || c == '\t' || c == ',' || isWordChar c

theorem all_initializerPiece (v : CodeValue) (k : Nat) :
    (initializerPiece v k).toList.all isListChar = true := by
  have hdigits : (Hex.digits v.toNat).all isListChar = true := by
    rw [List.all_eq_true]
    intro c hc
    have hword := isWordChar_of_isDigit (List.all_eq_true.mp (Hex.all_digits v.toNat) c hc)
    simp [isListChar, hword]
  have hzero : "0x".toList.all isListChar = true := by decide +kernel
  simp only [initializerPiece, Hex.text, String.toList_append, String.toList_ofList,
    List.all_append, hdigits, hzero, Bool.and_true]
  split <;> split <;> decide +kernel

theorem all_initializer (codes : List CodeValue) :
    (initializer codes).toList.all isListChar = true := by
  cases codes with
  | nil => decide +kernel
  | cons v codes =>
    rw [toList_initializer, List.all_append, all_initializerPiece, initializerRow, List.all_flatMap,
      Bool.true_and, List.all_eq_true]
    exact fun _ _ => all_initializerPiece ..

/-- The numbers of an initializer are read up to the brace that closes it. -/
theorem numbers?_initializerLexemes (codes : List CodeValue) (ts : List Lexeme) :
    numbers? (initializerLexemes codes ++ .mark .closeBrace :: ts) =
      some (if codes = [] then [0] else codes.map (·.toNat), ts) := by
  have hfurther (v : CodeValue) (codes : List CodeValue) :
      numbers? (.number v.toNat :: (furtherLexemes codes ++ .mark .closeBrace :: ts)) =
        some ((v :: codes).map (·.toNat), ts) := by
    induction codes generalizing v with
    | nil => simp [furtherLexemes, numbers?]
    | cons u codes ih =>
      have hu := ih u
      rw [furtherLexemes] at hu ⊢
      simp [numbers?, hu]
  cases codes with
  | nil => simp [initializerLexemes, numbers?]
  | cons v codes => simpa [initializerLexemes] using hfurther v codes

/-- An initializer lists its values in order, or a single zero if there are none. -/
theorem numbers?_initializer (codes : List CodeValue) :
    (lex ((initializer codes).toList ++ ['\x7d'])).bind numbers? =
      some (if codes = [] then [0] else codes.map (·.toNat), []) := by
  have hclose : lex ['\x7d'] = some [.mark .closeBrace] := by decide +kernel
  rw [lex_initializer codes (by simp [isWordChar]), hclose]
  exact numbers?_initializerLexemes codes []

theorem known_initializerLexemes (codes : List CodeValue) :
    (initializerLexemes codes).map (Lexeme.known ["AVG"]) = initializerLexemes codes := by
  cases codes <;> simp [initializerLexemes, furtherLexemes, Lexeme.known, List.map_flatMap]

end Style

end BitClassifier
