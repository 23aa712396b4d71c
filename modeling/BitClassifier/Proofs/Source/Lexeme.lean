import BitClassifier.Emit.Expression
import BitClassifier.Proofs.Text.Rows

/-!
# Reading source text

Source text is cut into lexemes (`lex`) as the standards of both languages say: white space
separates them, and each one is the longest that the text allows. A word is read up to the first
character that is none of a word (`lex_word`), what follows a text that is complete is read on its
own (`lex_append`), and no lexeme goes on behind the end of a line (`lex_lines`). Text with
characters that no emitted code has is not read at all.
-/

namespace BitClassifier.Source

/-- The operators with two operands. -/
inductive BinaryOp where
  | or
  | and
  | bitAnd
  | equal
  | notEqual
deriving DecidableEq

/-- The signs that stand in statements and in output, and in no emitted expression. -/
inductive Mark where
  | less
  | atMost
  | greater
  | shift
  | plus
  | minus
  | star
  | slash
  | dot
  | assign
  | increase
  | increment
  | comma
  | semicolon
  | openBracket
  | closeBracket
  | openBrace
  | closeBrace
deriving DecidableEq

/-- A word that is no name. -/
inductive Keyword where
  | cond
  | otherwise
  | loop
  | leave
  | type (name : String)
  /-- The beginning of a statement that puts something out. -/
  | output
deriving DecidableEq

/-- A lexeme of an expression, a statement or the definition of a macro. -/
inductive Lexeme where
  | name (text : String)
  | number (value : Nat)
  | opening
  | closing
  | not
  | question
  | colon
  /-- The two colons of a qualified name. -/
  | scope
  | op (operator : BinaryOp)
  | mark (mark : Mark)
  /-- A text in quotes, which is only ever put out. -/
  | quoted
  /-- The name of a macro that is left as it is. -/
  | unexpanded (name : String)
  | keyword (keyword : Keyword)
deriving DecidableEq

/-- The characters between lexemes. -/
def isLayout (c : Char) : Bool :=
  c == ' ' || c == '\t' || c == '\n'

/-- The characters of names and numbers. -/
def isWordChar (c : Char) : Bool :=
  c.isAlphanum || c == '_'

/-- The number that a row of decimal digits stands for. -/
def decimal (ds : List Char) : Nat :=
  ds.foldl (fun n d => 10 * n + (d.toNat - 48)) 0

/-- A row of word characters as a name or a number. Octal numbers and suffixes are not read. -/
def word? : List Char → Option Lexeme
  | [] => none
  | ['0'] => some (.number 0)
  | '0' :: 'x' :: ds =>
    if !ds.isEmpty && ds.all Hex.isDigit then some (.number (Hex.digitsValue ds)) else none
  | '0' :: _ => none
  | cs =>
    if cs.all Char.isDigit then some (.number (decimal cs))
    else if cs.head?.any Char.isDigit then none
    else some (.name (String.ofList cs))

/-- What follows a text in quotes that has begun, which ends on its line. -/
def quoted? : List Char → Option (List Char)
  | '"' :: cs => some cs
  | '\\' :: c :: cs => if c = '\n' then none else quoted? cs
  | c :: cs => if c = '\n' then none else quoted? cs
  | [] => none

theorem length_of_quoted? {cs rest : List Char} (h : quoted? cs = some rest) :
    rest.length < cs.length := by
  fun_induction quoted? cs with
  | case1 cs =>
    cases h
    exact Nat.lt_succ_self _
  | case3 c cs hc ih =>
    have hlength := ih h
    simp only [List.length_cons]
    omega
  | case5 c cs hquote hescape hc ih => exact (ih h).trans (Nat.lt_succ_self _)
  | _ => cases h

/-- What two characters are read as at the beginning of a text: one sign, nothing because they begin
what emitted code does not have, or no more than the first of them. Comments and counting down are
not read. -/
def pair? : Char → Char → Option (Option Lexeme)
  | '&', '&' => some (some (.op .and))
  | '&', '=' => some none
  | '|', '|' => some (some (.op .or))
  | '=', '=' => some (some (.op .equal))
  | '!', '=' => some (some (.op .notEqual))
  | ':', ':' => some (some .scope)
  | '<', '<' => some (some (.mark .shift))
  | '<', '=' => some (some (.mark .atMost))
  | '+', '+' => some (some (.mark .increment))
  | '+', '=' => some (some (.mark .increase))
  | '-', '-' => some none
  | '/', '/' => some none
  | '/', '*' => some none
  | _, _ => none

/-- A sign of one character. -/
def single? : Char → Option Lexeme
  | '&' => some (.op .bitAnd)
  | '!' => some .not
  | '(' => some .opening
  | ')' => some .closing
  | '?' => some .question
  | ':' => some .colon
  | '<' => some (.mark .less)
  | '>' => some (.mark .greater)
  | '+' => some (.mark .plus)
  | '-' => some (.mark .minus)
  | '*' => some (.mark .star)
  | '/' => some (.mark .slash)
  | '.' => some (.mark .dot)
  | '=' => some (.mark .assign)
  | ',' => some (.mark .comma)
  | ';' => some (.mark .semicolon)
  | '[' => some (.mark .openBracket)
  | ']' => some (.mark .closeBracket)
  | '\x7b' => some (.mark .openBrace)
  | '\x7d' => some (.mark .closeBrace)
  | _ => none

/-- The longest sign at the beginning of a text, and what follows it. -/
def sign? : List Char → Option (Lexeme × List Char)
  | [] => none
  | '"' :: cs => (quoted? cs).map fun rest => (.quoted, rest)
  | [c] => (single? c).map fun t => (t, [])
  | c :: d :: cs =>
    match pair? c d with
    | some t => t.map fun t => (t, cs)
    | none => (single? c).map fun t => (t, d :: cs)

theorem length_of_sign? {cs rest : List Char} {t : Lexeme} (h : sign? cs = some (t, rest)) :
    rest.length < cs.length := by
  unfold sign? at h
  split at h
  · cases h
  · obtain ⟨behind, hquoted, heq⟩ := Option.map_eq_some_iff.mp h
    cases heq
    exact (length_of_quoted? hquoted).trans (Nat.lt_succ_self _)
  · obtain ⟨t', -, heq⟩ := Option.map_eq_some_iff.mp h
    cases heq
    exact Nat.zero_lt_one
  · split at h <;> obtain ⟨t', -, heq⟩ := Option.map_eq_some_iff.mp h <;> cases heq <;>
      simp only [List.length_cons] <;> omega

/-- The lexemes of a text, if it has nothing else. -/
def lex (cs : List Char) : Option (List Lexeme) :=
  match cs with
  | [] => some []
  | c :: rest =>
    if isLayout c then lex rest
    else if isWordChar c then
      match word? (c :: rest.takeWhile isWordChar) with
      | none => none
      | some t => (lex (rest.dropWhile isWordChar)).map (t :: ·)
    else
      match _h : sign? (c :: rest) with
      | none => none
      | some (t, rest') => (lex rest').map (t :: ·)
termination_by cs.length
decreasing_by
  · simp
  · have := List.length_dropWhile_le isWordChar rest
    simp only [List.length_cons]
    omega
  · exact length_of_sign? ‹_›

variable {cs rest us w : List Char} {ts : List Lexeme} {c : Char} {t : Lexeme}

@[simp] theorem lex_nil : lex [] = some [] := by
  rw [lex]

/-- The first character decides what is read. -/
theorem lex_cons : lex (c :: rest) =
    if isLayout c then lex rest
    else if isWordChar c then
      (word? (c :: rest.takeWhile isWordChar)).bind fun t =>
        (lex (rest.dropWhile isWordChar)).map (t :: ·)
    else (sign? (c :: rest)).bind fun (t, rest') => (lex rest').map (t :: ·) := by
  rw [lex]
  split
  · rfl
  split <;> split <;> simp [*]

theorem lex_layout (h : isLayout c = true) : lex (c :: rest) = lex rest := by
  rw [lex_cons, if_pos h]

theorem isLayout_of_isWordChar (h : isWordChar c = true) : isLayout c = false := by
  rw [← Bool.not_eq_true]
  intro hlayout
  have hc : c = ' ' ∨ c = '\t' ∨ c = '\n' := by simpa [isLayout, or_assoc] using hlayout
  rcases hc with rfl | rfl | rfl <;> exact absurd h (by decide)

/-- A word is read up to the first character that is none of a word. -/
theorem lex_word (hw : w.all isWordChar = true) (ht : word? w = some t)
    (hrest : Begins isWordChar rest) : lex (w ++ rest) = (lex rest).map (t :: ·) := by
  cases w with
  | nil => cases ht
  | cons c w =>
    rw [List.all_cons, Bool.and_eq_true] at hw
    rw [List.cons_append, lex_cons, isLayout_of_isWordChar hw.1, if_neg Bool.false_ne_true,
      if_pos hw.1, takeWhile_append_of_begins hw.2 hrest, dropWhile_append_of_begins hw.2 hrest, ht,
      Option.bind_some]

theorem lex_sign (hlayout : isLayout c = false) (hword : isWordChar c = false)
    (h : sign? (c :: cs) = some (t, rest)) : lex (c :: cs) = (lex rest).map (t :: ·) := by
  rw [lex_cons, hlayout, hword, if_neg Bool.false_ne_true, if_neg Bool.false_ne_true, h,
    Option.bind_some]

/-- A sign of one character is read alone unless it begins a longer one. -/
theorem lex_single (hlayout : isLayout c = false) (hword : isWordChar c = false)
    (h : single? c = some t) (halone : ∀ d ∈ cs.head?, pair? c d = none) :
    lex (c :: cs) = (lex cs).map (t :: ·) := by
  have hquote : c ≠ '"' := by
    rintro rfl
    cases h
  refine lex_sign hlayout hword ?_
  cases cs with
  | nil => simp [sign?, h]
  | cons d cs => simp [sign?, h, halone d rfl]

theorem lex_pair (hlayout : isLayout c = false) (hword : isWordChar c = false) {d : Char}
    (h : pair? c d = some (some t)) : lex (c :: d :: cs) = (lex cs).map (t :: ·) := by
  have hquote : c ≠ '"' := by
    rintro rfl
    cases h
  exact lex_sign hlayout hword (by simp [sign?, h])

/-- A character that stands for itself in quotes. -/
def isQuotable (c : Char) : Bool :=
  c != '"' && c != '\\' && c != '\n'

theorem quoted?_of_all {cs : List Char} (h : cs.all isQuotable = true) (rest : List Char) :
    quoted? (cs ++ rest) = quoted? rest := by
  induction cs with
  | nil => rfl
  | cons c cs ih =>
    rw [List.all_cons, Bool.and_eq_true] at h
    simp only [isQuotable, Bool.and_eq_true, bne_iff_ne] at h
    obtain ⟨⟨⟨hquote, hescape⟩, hline⟩, hcs⟩ := h
    rw [List.cons_append, quoted?, if_neg hline, ih hcs]
    all_goals simp_all

theorem lex_quoted {cs : List Char} (h : quoted? cs = some rest) :
    lex ('"' :: cs) = (lex rest).map (.quoted :: ·) :=
  lex_sign rfl rfl (by simp [sign?, h])

theorem isQuotable_of_isWordChar {c : Char} (h : isWordChar c = true) : isQuotable c = true := by
  simp only [isQuotable, Bool.and_eq_true, bne_iff_ne]
  refine ⟨⟨?_, ?_⟩, ?_⟩ <;> rintro rfl <;> exact absurd h (by decide)

@[simp] theorem lex_opening : lex ('(' :: cs) = (lex cs).map (.opening :: ·) :=
  lex_single rfl rfl rfl fun _ _ => rfl

@[simp] theorem lex_closing : lex (')' :: cs) = (lex cs).map (.closing :: ·) :=
  lex_single rfl rfl rfl fun _ _ => rfl

@[simp] theorem lex_question : lex ('?' :: cs) = (lex cs).map (.question :: ·) :=
  lex_single rfl rfl rfl fun _ _ => rfl

@[simp] theorem lex_and : lex ('&' :: '&' :: cs) = (lex cs).map (.op .and :: ·) :=
  lex_pair rfl rfl rfl

@[simp] theorem lex_or : lex ('|' :: '|' :: cs) = (lex cs).map (.op .or :: ·) :=
  lex_pair rfl rfl rfl

@[simp] theorem lex_equal : lex ('=' :: '=' :: cs) = (lex cs).map (.op .equal :: ·) :=
  lex_pair rfl rfl rfl

@[simp] theorem lex_notEqual : lex ('!' :: '=' :: cs) = (lex cs).map (.op .notEqual :: ·) :=
  lex_pair rfl rfl rfl

theorem lex_scope : lex (':' :: ':' :: cs) = (lex cs).map (.scope :: ·) :=
  lex_pair rfl rfl rfl

theorem lex_not (h : c ≠ '=') : lex ('!' :: c :: cs) = (lex (c :: cs)).map (.not :: ·) :=
  lex_single rfl rfl rfl (by simp [pair?, h])

theorem lex_bitAnd (hand : c ≠ '&') (hequal : c ≠ '=') :
    lex ('&' :: c :: cs) = (lex (c :: cs)).map (.op .bitAnd :: ·) :=
  lex_single rfl rfl rfl (by simp [pair?, hand, hequal])

theorem lex_colon (h : c ≠ ':') : lex (':' :: c :: cs) = (lex (c :: cs)).map (.colon :: ·) :=
  lex_single rfl rfl rfl (by simp [pair?, h])

/-! ### What follows a text -/

theorem quoted?_append (h : quoted? cs = some us) (rest : List Char) :
    quoted? (cs ++ rest) = some (us ++ rest) := by
  fun_induction quoted? cs with
  | case1 cs =>
    cases h
    rfl
  | case3 c cs hc ih => simpa [quoted?, hc] using ih h
  | case5 c cs hquote hescape hc ih =>
    cases cs with
    | nil => cases h
    | cons d cs =>
      have hc' : c ≠ '\\' := fun heq => hescape d cs heq rfl
      rw [List.cons_append] at ih ⊢
      simp [quoted?, hc, hc', ih h]
  | _ => cases h

theorem exists_of_quoted? (h : quoted? cs = some us) : ∃ xs, cs = xs ++ us := by
  fun_induction quoted? cs with
  | case1 cs =>
    cases h
    exact ⟨['"'], rfl⟩
  | case3 c cs hc ih =>
    obtain ⟨xs, rfl⟩ := ih h
    exact ⟨'\\' :: c :: xs, rfl⟩
  | case5 c cs hquote hescape hc ih =>
    obtain ⟨xs, rfl⟩ := ih h
    exact ⟨c :: xs, rfl⟩
  | _ => cases h

/-- A sign is read the same whatever follows, unless it may go on at the end. -/
theorem sign?_append (h : sign? cs = some (t, us))
    (hend : ∀ c ∈ cs.getLast?, ∀ d, pair? c d = none) (rest : List Char) :
    sign? (cs ++ rest) = some (t, us ++ rest) ∧ ∃ xs, cs = xs ++ us := by
  unfold sign? at h
  split at h
  · cases h
  · rename_i cs
    obtain ⟨behind, hquoted, heq⟩ := Option.map_eq_some_iff.mp h
    cases heq
    have happend := quoted?_append hquoted rest
    obtain ⟨xs, rfl⟩ := exists_of_quoted? hquoted
    exact ⟨by simpa [sign?] using happend, '"' :: xs, rfl⟩
  · rename_i c hquote
    obtain ⟨t', ht, heq⟩ := Option.map_eq_some_iff.mp h
    cases heq
    refine ⟨?_, [c], rfl⟩
    cases rest with
    | nil => simp [sign?, ht]
    | cons d rest => simp [sign?, ht, hend c rfl d]
  · rename_i c d cs hquote
    split at h
    · rename_i t' hpair
      obtain ⟨t'', rfl, heq⟩ := Option.map_eq_some_iff.mp h
      cases heq
      exact ⟨by simp [sign?, hpair], [c, d], rfl⟩
    · rename_i hpair
      obtain ⟨t', ht, heq⟩ := Option.map_eq_some_iff.mp h
      cases heq
      exact ⟨by simp [sign?, hpair, ht], [c], rfl⟩

/-- A text that ends with no word and with no sign that may go on. -/
def Complete (cs : List Char) : Prop :=
  ∀ c ∈ cs.getLast?, isWordChar c = false ∧ ∀ d, pair? c d = none

theorem Complete.of_append (xs : List Char) (h : Complete (xs ++ us)) : Complete us := by
  intro c hc
  refine h c ?_
  rw [Option.mem_def] at hc ⊢
  rw [List.getLast?_append, hc, Option.some_or]

/-- What follows a complete text is read on its own. -/
theorem lex_append (h : lex cs = some ts) (hend : Complete cs) (rest : List Char) :
    lex (cs ++ rest) = (lex rest).map (ts ++ ·) := by
  fun_induction lex cs generalizing ts with
  | case1 =>
    cases h
    simp
  | case2 c cs hlayout ih =>
    rw [List.cons_append, lex_layout hlayout]
    exact ih h (Complete.of_append [c] hend)
  | case3 c cs hlayout hword hnone => cases h
  | case4 c cs hlayout hword t ht ih =>
    obtain ⟨us, hus, rfl⟩ := Option.map_eq_some_iff.mp h
    have hsplit : c :: cs = (c :: cs.takeWhile isWordChar) ++ cs.dropWhile isWordChar := by simp
    have hall : (c :: cs.takeWhile isWordChar).all isWordChar = true := by
      rw [List.all_cons, hword, Bool.true_and, List.all_takeWhile]
    have hbegins : Begins isWordChar (cs.dropWhile isWordChar ++ rest) := by
      cases hdrop : cs.dropWhile isWordChar with
      | nil =>
        -- then the text ends with the word
        rw [hdrop, List.append_nil] at hsplit
        rw [← hsplit, List.all_eq_true] at hall
        have hlast := List.getLast?_eq_some_getLast (List.cons_ne_nil c cs)
        have hno := (hend _ hlast).1
        rw [hall _ (List.getLast_mem _)] at hno
        cases hno
      | cons d ds =>
        have hd := begins_dropWhile isWordChar cs
        rw [hdrop] at hd
        exact begins_cons.mpr (begins_cons.mp hd)
    rw [hsplit, List.append_assoc, lex_word hall ht hbegins,
      ih hus (Complete.of_append _ (hsplit ▸ hend))]
    simp [Function.comp_def]
  | case5 c cs hlayout hword hnone => cases h
  | case6 c cs hlayout hword t us ht ih =>
    obtain ⟨vs, hvs, rfl⟩ := Option.map_eq_some_iff.mp h
    obtain ⟨hsign, xs, hxs⟩ := sign?_append ht (fun c hc => (hend c hc).2) rest
    rw [List.cons_append] at hsign ⊢
    rw [lex_sign (by simpa using hlayout) (by simpa using hword) hsign,
      ih hvs (Complete.of_append xs (hxs ▸ hend))]
    simp [Function.comp_def]

/-- A word is read between a complete text and one that does not go on with it. -/
theorem lex_insert (h : lex cs = some ts) (hend : Complete cs) (hw : w.all isWordChar = true)
    (ht : word? w = some t) (hrest : Begins isWordChar rest) :
    lex (cs ++ (w ++ rest)) = (lex rest).map fun us => ts ++ t :: us := by
  rw [lex_append h hend, lex_word hw ht hrest]
  simp [Function.comp_def]

/-! ### Lines -/

theorem quoted?_lines (cs rest : List Char) :
    quoted? (cs ++ '\n' :: rest) = (quoted? cs).map (· ++ '\n' :: rest) := by
  fun_induction quoted? cs with
  | case1 cs => rfl
  | case2 cs => simp [quoted?]
  | case3 c cs hc ih => simp [quoted?, hc, ih]
  | case4 cs hescape => simp [quoted?]
  | case5 c cs hquote hescape hc ih =>
    cases cs with
    | nil => by_cases hc : c = '\\' <;> simp [quoted?, hc]
    | cons d cs =>
      have hc' : c ≠ '\\' := fun heq => hescape d cs heq rfl
      rw [List.cons_append] at ih ⊢
      simp [quoted?, hc, hc', ih]
  | case6 => rfl

theorem pair?_break (c : Char) : pair? c '\n' = none := by
  unfold pair?
  split <;> simp_all

theorem sign?_lines (c : Char) (cs rest : List Char) :
    sign? (c :: (cs ++ '\n' :: rest)) =
      (sign? (c :: cs)).map fun (t, us) => (t, us ++ '\n' :: rest) := by
  by_cases hquote : c = '"'
  · subst hquote
    simp only [sign?, quoted?_lines, Option.map_map]
    rfl
  · cases cs with
    | nil => simp [sign?, pair?_break, Function.comp_def]
    | cons d cs =>
      rw [List.cons_append]
      simp only [sign?]
      cases pair? c d <;> simp [Function.comp_def]

/-- A word, with what it is, ends at the first character that is none of a word. -/
theorem lex_takeWhile (hword : isWordChar c = true) (rest : List Char) :
    lex (c :: (cs ++ '\n' :: rest)) = (word? (c :: cs.takeWhile isWordChar)).bind fun t =>
      (lex (cs.dropWhile isWordChar ++ '\n' :: rest)).map (t :: ·) := by
  have hbegins : Begins isWordChar (cs.dropWhile isWordChar ++ '\n' :: rest) :=
    (begins_dropWhile isWordChar cs).append (begins_cons.mpr rfl)
  have hsplit : cs ++ '\n' :: rest =
      cs.takeWhile isWordChar ++ (cs.dropWhile isWordChar ++ '\n' :: rest) := by
    rw [← List.append_assoc, List.takeWhile_append_dropWhile]
  have hall := List.all_takeWhile (p := isWordChar) (l := cs)
  rw [lex_cons, isLayout_of_isWordChar hword, if_neg Bool.false_ne_true, if_pos hword, hsplit,
    takeWhile_append_of_begins hall hbegins, dropWhile_append_of_begins hall hbegins]

/-- No lexeme goes on behind the end of a line. -/
theorem lex_lines (cs rest : List Char) :
    lex (cs ++ '\n' :: rest) = (lex cs).bind fun ts => (lex rest).map (ts ++ ·) := by
  fun_induction lex cs with
  | case1 => simp [lex_layout (c := '\n') rfl]
  | case2 c cs hlayout ih => rw [List.cons_append, lex_layout hlayout, ih]
  | case3 c cs hlayout hword hnone =>
    rw [List.cons_append, lex_takeWhile hword, hnone]
    rfl
  | case4 c cs hlayout hword t ht ih =>
    rw [List.cons_append, lex_takeWhile hword, ht, Option.bind_some, ih]
    cases lex (cs.dropWhile isWordChar) <;> simp [Function.comp_def]
  | case5 c cs hlayout hword hnone =>
    rw [List.cons_append, lex_cons, if_neg hlayout, if_neg hword, sign?_lines, hnone]
    rfl
  | case6 c cs hlayout hword t us ht ih =>
    rw [List.cons_append, lex_cons, if_neg hlayout, if_neg hword, sign?_lines, ht]
    simp only [Option.map_some, Option.bind_some, ih]
    cases lex us <;> simp [Function.comp_def]

/-- The lexemes of a text are those of its lines. -/
theorem lex_splitOn (text : List Char) :
    ((text.splitOn '\n').mapM lex).map List.flatten = lex text := by
  have hlines : ∀ lines : List (List Char), lines ≠ [] →
      (lines.mapM lex).map List.flatten = lex (['\n'].intercalate lines) := by
    intro lines hne
    induction lines with
    | nil => exact absurd rfl hne
    | cons l lines ih =>
      cases lines with
      | nil => cases hl : lex l <;> simp [hl]
      | cons l' lines =>
        rw [List.intercalate_cons_cons, List.append_assoc, List.singleton_append, lex_lines,
          ← ih (by simp), List.mapM_cons]
        cases lex l with
        | none => rfl
        | some ts =>
          simp only [Option.bind_eq_bind, Option.bind_some]
          cases List.mapM lex (l' :: lines) <;> rfl
  rw [hlines _ (List.splitOn_ne_nil '\n' text), List.intercalate_splitOn]

end BitClassifier.Source
