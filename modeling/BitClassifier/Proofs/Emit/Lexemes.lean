import BitClassifier.Proofs.Source.Lexeme

/-!
# The lexemes of emitted expressions

The text of an emitted expression is read token by token: no two neighbours grow together
(`lexes_expression`).
-/

namespace BitClassifier

open Source

/-- The lexemes of a word. A qualified name has more than one. -/
def wordLexemes (name : String) : List Lexeme :=
  (lex name.toList).getD []

/-- The lexemes of a token. -/
def Token.lexemes : Token → List Lexeme
  | word name => wordLexemes name
  | hex value => [.number value.toNat]
  | opening => [.opening]
  | closing => [.closing]
  | not => [.not]
  | bitAnd => [.op .bitAnd]
  | and => [.op .and]
  | or => [.op .or]
  | equal => [.op .equal]
  | notEqual => [.op .notEqual]
  | question => [.question]
  | colon => [.colon]

namespace Piece

/-- The characters of a row of pieces. -/
def chars (ps : List Piece) : List Char :=
  ps.flatMap fun p => p.text.toList

/-- The lexemes of a row of pieces. -/
def lexemes (ps : List Piece) : List Lexeme :=
  (tokens ps).flatMap Token.lexemes

variable {ps qs : List Piece} {t : Token} {space : String}

@[simp] theorem text_token : (token t).text = t.text := rfl

@[simp] theorem text_layout : (layout space).text = space := rfl

theorem toList_join (ps : List Piece) : (join ps).toList = chars ps := by
  rw [join, String.toList_join, chars, List.flatMap_map]

@[simp] theorem chars_nil : chars [] = [] := rfl

@[simp] theorem chars_cons {p : Piece} : chars (p :: ps) = p.text.toList ++ chars ps := rfl

@[simp] theorem chars_append : chars (ps ++ qs) = chars ps ++ chars qs :=
  List.flatMap_append

@[simp] theorem lexemes_nil : lexemes [] = [] := rfl

@[simp] theorem lexemes_token : lexemes (token t :: ps) = t.lexemes ++ lexemes ps := rfl

@[simp] theorem lexemes_layout : lexemes (layout space :: ps) = lexemes ps := rfl

@[simp] theorem lexemes_newline (indent : Nat) : lexemes (newline indent :: ps) = lexemes ps := rfl

@[simp] theorem lexemes_append : lexemes (ps ++ qs) = lexemes ps ++ lexemes qs := by
  rw [lexemes, tokens, List.filterMap_append, List.flatMap_append]
  rfl

end Piece

open Piece (chars lexemes)

/-- A text is read as a row of lexemes, whatever follows that is no part of a word. -/
abbrev Lexes (text : List Char) (ts : List Lexeme) : Prop :=
  ∀ rest, Begins isWordChar rest → lex (text ++ rest) = (lex rest).map (ts ++ ·)

variable {rest : List Char} {ps : List Piece}

/-! ### Words -/

theorem lexes_word {name : List Char} {t : Lexeme} (hchars : name.all isWordChar = true)
    (ht : word? name = some t) : Lexes name [t] :=
  fun _ => lex_word hchars ht

theorem Lexes.wordLexemes_eq {name : String} {ts : List Lexeme} (h : Lexes name.toList ts) :
    wordLexemes name = ts := by
  have hread := h [] begins_nil
  rw [List.append_nil, lex_nil, Option.map_some, List.append_nil] at hread
  rw [wordLexemes, hread, Option.getD_some]

theorem lex_c (h : Begins isWordChar rest) : lex ('c' :: rest) = (lex rest).map (.name "c" :: ·) :=
  lex_word (w := ['c']) (by decide) (by decide) h

@[simp] theorem wordLexemes_c : wordLexemes "c" = [.name "c"] :=
  Lexes.wordLexemes_eq fun _ h => by simpa using lex_c h

theorem lexes_wrapper (w : Wrapper) : Lexes w.name.toList [.name w.name] := by
  cases w <;> exact lexes_word (by decide) (by decide)

@[simp] theorem wordLexemes_wrapper (w : Wrapper) : wordLexemes w.name = [.name w.name] :=
  (lexes_wrapper w).wordLexemes_eq

/-- The lexeme of the constant for an answer. -/
def constantLexeme : Language → Bool → Lexeme
  | .c, b => .number b.toNat
  | .cpp, b => .name (Language.cpp.constant b)

theorem lexes_constant (l : Language) (b : Bool) :
    Lexes (l.constant b).toList [constantLexeme l b] := by
  cases l <;> cases b <;> exact lexes_word (by decide) (by decide)

@[simp] theorem wordLexemes_constant (l : Language) (b : Bool) :
    wordLexemes (l.constant b) = [constantLexeme l b] :=
  (lexes_constant l b).wordLexemes_eq

theorem isWordChar_of_isDigit {c : Char} (h : Hex.isDigit c = true) : isWordChar c = true := by
  simp only [Hex.isDigit, Bool.or_eq_true, Bool.and_eq_true, decide_eq_true_eq, or_assoc] at h
  have halphanum : (c.isUpper = true ∨ c.isLower = true) ∨ c.isDigit = true := by
    rcases h with ⟨h, h'⟩ | ⟨h, h'⟩ | ⟨h, h'⟩
    · exact .inr (Bool.and_eq_true_iff.mpr ⟨decide_eq_true h, decide_eq_true h'⟩)
    · have hlast := Char.le_trans h' (by decide : 'f' ≤ 'z')
      exact .inl (.inr (Bool.and_eq_true_iff.mpr ⟨decide_eq_true h, decide_eq_true hlast⟩))
    · have hlast := Char.le_trans h' (by decide : 'F' ≤ 'Z')
      exact .inl (.inl (decide_eq_true (p := 'A'.val ≤ c.val ∧ c.val ≤ 'Z'.val) ⟨h, hlast⟩))
  rw [← Bool.or_eq_true, ← Bool.or_eq_true] at halphanum
  exact Bool.or_eq_true_iff.mpr (.inl halphanum)

theorem toList_hexText (n : Nat) : (Hex.text n).toList = '0' :: 'x' :: Hex.digits n := by
  simp [Hex.text]

theorem all_hexText (n : Nat) : (Hex.text n).toList.all isWordChar = true := by
  have hdigits : (Hex.digits n).all isWordChar = true :=
    List.all_eq_true.mpr fun c hc =>
      isWordChar_of_isDigit (List.all_eq_true.mp (Hex.all_digits n) c hc)
  rw [toList_hexText, List.all_cons, List.all_cons, hdigits]
  rfl

theorem word?_hexText (n : Nat) : word? (Hex.text n).toList = some (.number n) := by
  rw [toList_hexText, word?, Hex.digitsValue_digits]
  simp [Hex.all_digits n, Hex.digits_ne_nil]

theorem lex_hex (n : Nat) (h : Begins isWordChar rest) :
    lex ('0' :: 'x' :: (Hex.digits n ++ rest)) = (lex rest).map (.number n :: ·) := by
  have hlex := lex_word (all_hexText n) (word?_hexText n) h
  rwa [toList_hexText] at hlex

/-! ### Rows of pieces -/

/-- A row of pieces is read piece by piece. -/
abbrev Legible (ps : List Piece) : Prop :=
  Lexes (chars ps) (lexemes ps)

theorem lex_newline (indent : Nat) (rest : List Char) :
    lex ((Piece.newline indent).text.toList ++ rest) = lex rest := by
  have htabs : ∀ n, lex (List.replicate n '\t' ++ rest) = lex rest := by
    intro n
    induction n with
    | zero => rfl
    | succ n ih => rw [List.replicate_succ, List.cons_append, lex_layout (by decide), ih]
  simp [Piece.newline, tabs, lex_layout (c := '\n') (by decide), htabs]

theorem begins_newline (indent : Nat) (rest : List Char) :
    Begins isWordChar ((Piece.newline indent).text.toList ++ rest) := by
  simp [Piece.newline, isWordChar]

theorem lex_tab (rest : List Char) : lex ('\t' :: rest) = lex rest :=
  lex_layout (by decide)

theorem lex_space (rest : List Char) : lex (' ' :: rest) = lex rest :=
  lex_layout (by decide)

namespace Style

variable (s : Style)

theorem legible_masked (mask : CodeValue) : Legible (s.masked mask) := by
  intro rest hrest
  rw [masked]
  split
  · simp [Token.text, Token.lexemes, lex_c hrest]
  · simp [Token.text, Hex.text, Token.lexemes, Function.comp_def, lex_c, lex_bitAnd,
      lex_hex _ hrest, isWordChar]

theorem legible_constant (b : Bool) : Legible [.token (.word (s.language.constant b))] := by
  intro rest hrest
  simpa [Token.text, Token.lexemes] using lexes_constant s.language b rest hrest

theorem legible_test (mask value : CodeValue) (equals : Bool) :
    Legible (s.test mask value equals) := by
  have hmasked := s.legible_masked mask
  rw [test]
  split
  · exact s.legible_constant equals
  split
  · intro rest hrest
    cases equals <;>
      simp [Token.text, Token.lexemes, Function.comp_def, hmasked, lex_not, isWordChar]
  · intro rest hrest
    dsimp only
    split <;> cases equals <;>
      simp [Token.text, Token.lexemes, Function.comp_def, Hex.text, hmasked, lex_hex,
        isWordChar]

theorem legible_wrap (w : Wrapper) {xs : List Piece} (h : Legible xs) : Legible (s.wrap w xs) := by
  have hname := lexes_wrapper w
  rw [wrap]
  split
  · intro rest hrest
    simp [Token.text, Token.lexemes, Function.comp_def, h, hname, isWordChar]
  · exact h

/-- The test of a jump, before it is wrapped. -/
def jumpTest (bit : CodeValue) : List Piece :=
  [.token .not, .token .opening, .token (.word "c"), .token .bitAnd, .token (.hex bit),
    .token .closing]

/-- The lexemes of the test of a jump. -/
def jump (bit : CodeValue) : List Lexeme :=
  [.not, .opening, .name "c", .op .bitAnd, .number bit.toNat, .closing]

theorem lexemes_jumpTest (bit : CodeValue) : lexemes (jumpTest bit) = jump bit := by
  simp [jumpTest, jump, Token.lexemes]

theorem legible_jumpTest (bit : CodeValue) : Legible (jumpTest bit) := by
  intro rest hrest
  simp [jumpTest, Token.text, Token.lexemes, Function.comp_def, Hex.text, lex_c, lex_not,
    lex_bitAnd, lex_hex, isWordChar]

/-- An emitted expression is read token by token. -/
theorem legible_expression (indent : Nat) (p : Predicate) : Legible (s.expression indent p) := by
  induction p generalizing indent with
  | constant answer => exact s.legible_constant answer
  | bitTest mask value equals => exact s.legible_test _ _ _
  | and left right ihLeft ihRight =>
    have hleft := s.legible_wrap .ja (ihLeft indent)
    have hright := s.legible_wrap .jr (ihRight indent)
    intro rest hrest
    rw [expression]
    simp [Token.text, Token.lexemes, Function.comp_def, hleft, hright, hrest, isWordChar,
      lex_newline]
  | or left right ihLeft ihRight =>
    have hleft := s.legible_wrap .jo (ihLeft (indent + 1))
    have hright := s.legible_wrap .jr (ihRight (indent + 1))
    intro rest hrest
    rw [expression]
    simp [Token.text, Token.lexemes, Function.comp_def, hleft, hright, lex_newline,
      lex_tab, begins_newline]
  | cond bit on off ihOn ihOff =>
    have hjump := s.legible_wrap .ja (legible_jumpTest bit)
    have hoff := ihOff (indent + 1)
    have hon := ihOn (indent + 1)
    intro rest hrest
    rw [expression, ← jumpTest]
    simp [Token.text, Token.lexemes, Function.comp_def, hjump, hoff, hon, lex_newline,
      lex_tab, lex_colon, begins_newline]

end Style

end BitClassifier
