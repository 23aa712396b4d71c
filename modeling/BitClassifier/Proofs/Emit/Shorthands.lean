import BitClassifier.Proofs.Emit.Lexemes
import BitClassifier.Proofs.Source.Macro

/-!
# The shorthands of profiled expressions

A profiled classifier defines its shorthands in front of the function (`Style.preamble`). Read as
macros, these are the shorthands that the style expects (`definitions_preamble`), and the emitted
expression expands to the row of lexemes in which every operand is written out
(`expands_expression`).
-/

namespace BitClassifier

open Source
open Piece (chars lexemes)

/-! ### Counting functions -/

/-- The lexemes of the name of a counting function. -/
def Counter.lexemes : Language → Counter → List Lexeme
  | .c, k => [.name (Language.c.counter k)]
  | .cpp, .reset => [.name "Profiler", .scope, .name "reset"]
  | .cpp, k => [.name "Profiler", .scope, .name (Language.c.counter k)]

theorem lexes_qualified {space name : List Char} {t u : Lexeme}
    (hspace : space.all isWordChar = true) (ht : word? space = some t)
    (hname : name.all isWordChar = true) (hu : word? name = some u) :
    Lexes (space ++ ':' :: ':' :: name) [t, .scope, u] := by
  intro rest hrest
  rw [List.append_assoc, lex_word hspace ht (by simp [isWordChar]), List.cons_append,
    List.cons_append, lex_scope, lex_word hname hu hrest]
  simp [Function.comp_def]

theorem lexes_counter (l : Language) (k : Counter) :
    Lexes (l.counter k).toList (k.lexemes l) := by
  cases l with
  | c => cases k <;> exact lexes_word (by decide) (by decide)
  | cpp =>
    cases k <;>
      exact @lexes_qualified "Profiler".toList _ _ _ (by decide) (by decide) (by decide) (by decide)

@[simp] theorem wordLexemes_counter (l : Language) (k : Counter) :
    wordLexemes (l.counter k) = k.lexemes l :=
  (lexes_counter l k).wordLexemes_eq

/-- The lexemes of a call of a counting function. -/
def Counter.call (l : Language) (k : Counter) : List Lexeme :=
  k.lexemes l ++ [.opening, .closing]

@[simp] theorem lexemes_call (l : Language) (k : Counter) :
    lexemes (Piece.call (l.counter k)) = k.call l := by
  simp [Piece.call, Token.lexemes, Counter.call]

theorem legible_call (l : Language) (k : Counter) : Legible (Piece.call (l.counter k)) := by
  have hcounter := lexes_counter l k
  intro rest hrest
  simp [Piece.call, Token.text, Token.lexemes, Function.comp_def, hcounter, isWordChar]

/-! ### Definitions -/

namespace Wrapper

/-- A shorthand as a macro. -/
def shorthand (l : Language) (w : Wrapper) : Macro :=
  ⟨w.name, "x", lexemes (w.expansion l [.token (.word "x")])⟩

/-- What a shorthand stands for, with the operand in its place. -/
def operand (l : Language) (xs : List Lexeme) : Wrapper → List Lexeme
  | ja =>
    (Counter.moreTrue.call l ++ .op .and :: .opening :: (xs ++ [.closing]))
      ++ .op .and :: Counter.lessTrue.call l
  | jo =>
    (Counter.moreFalse.call l ++ .op .or :: .opening :: (xs ++ [.closing]))
      ++ .op .or :: Counter.lessFalse.call l
  | jr =>
    .opening :: ((Counter.moreTrue.call l ++ .op .and :: .opening :: (xs ++ [.closing]))
      ++ [.closing])

/-- The level at which an operand is put together with another one. -/
def level : Wrapper → Nat
  | ja => 2
  | jo => 1
  | jr => 2

theorem lexemes_expansion (l : Language) (w : Wrapper) (ps : List Piece) :
    lexemes (w.expansion l ps) = w.operand l (lexemes ps) := by
  cases w <;> simp [expansion, operand, Token.lexemes]

theorem legible_expansion (l : Language) (w : Wrapper) {ps : List Piece} (h : Legible ps) :
    Legible (w.expansion l ps) := by
  have hcall := legible_call l
  intro rest hrest
  cases w <;>
    simp [expansion, Token.text, Token.lexemes, Function.comp_def, h, hcall, hrest, lex_space,
      isWordChar]

theorem lex_x {rest : List Char} (h : Begins isWordChar rest) :
    lex ('x' :: rest) = (lex rest).map (.name "x" :: ·) :=
  lex_word (w := ['x']) (by decide) (by decide) h

@[simp] theorem wordLexemes_x : wordLexemes "x" = [.name "x"] :=
  Lexes.wordLexemes_eq fun _ h => by simpa using lex_x h

theorem legible_x : Legible [.token (.word "x")] := by
  intro rest hrest
  simp [Token.text, Token.lexemes, lex_x hrest]

/-- A shorthand stands for its operand with the counting functions around it. -/
theorem substitute_shorthand (l : Language) (w : Wrapper) (xs : List Lexeme) :
    (w.shorthand l).substitute xs = w.operand l xs := by
  have hcall : ∀ k : Counter, ((k.call l).flatMap fun t => if t = .name "x" then xs else [t]) =
      k.call l := by
    intro k
    cases l <;> cases k <;> simp [Counter.call, Counter.lexemes, Language.counter]
  have hbody : (w.shorthand l).body = w.operand l [.name "x"] := by
    simp [shorthand, lexemes_expansion, Token.lexemes]
  have hparameter : (w.shorthand l).parameter = "x" := rfl
  rw [Macro.substitute, hbody, hparameter]
  cases w <;> simp [operand, hcall]

/-- The line that defines a shorthand, without its end. -/
def definitionLine (l : Language) (w : Wrapper) : String :=
  "#define " ++ w.name ++ "(x) " ++ Piece.join (w.expansion l [.token (.word "x")])

/-- The line that defines a shorthand is read as the shorthand. -/
theorem ofLine?_definitionLine (l : Language) (w : Wrapper) :
    Macro.ofLine? (w.definitionLine l).toList = some (w.shorthand l) := by
  have hname : w.name.toList.all isWordChar = true := by cases w <;> decide
  have hbegins : ∀ rest, Begins isWordChar ('(' :: rest) := by simp [isWordChar]
  have hbody : lex (chars (w.expansion l [.token (.word "x")])) =
      some (lexemes (w.expansion l [.token (.word "x")])) := by
    simpa using w.legible_expansion l legible_x [] begins_nil
  have hline : (w.definitionLine l).toList = "#define ".toList ++ (w.name.toList ++
      '(' :: 'x' :: ')' :: ' ' :: chars (w.expansion l [.token (.word "x")])) := by
    simp [definitionLine, Piece.toList_join]
  have hprefix : ∀ rest, "#define ".toList.isPrefixOf ("#define ".toList ++ rest) = true := by simp
  have hdrop : ∀ rest, ("#define ".toList ++ rest).drop 8 = rest := by simp
  rw [Macro.ofLine?, hline, hprefix, if_pos rfl, hdrop]
  simp only [dropWhile_append_of_begins hname (hbegins _),
    takeWhile_append_of_begins hname (hbegins _), String.ofList_toList]
  rw [lex_x (by simp [isWordChar]), lex_closing, lex_space, hbody]
  rfl

end Wrapper

/-- The first line of a text defines at most one macro. -/
theorem definitions_line {line : String} (h : '\n' ∉ line.toList) (rest : String) :
    definitions (line ++ ("\n" ++ rest)).toList =
      (Macro.ofLine? line.toList).toList ++ definitions rest.toList := by
  have hline : line.toList.splitOn '\n' = [line.toList] := List.splitOn_eq_singleton h
  have hsplit : (line.toList ++ '\n' :: rest.toList).splitOn '\n' =
      line.toList.splitOn '\n' ++ rest.toList.splitOn '\n' :=
    List.splitOnP_append_cons line.toList rest.toList (by simp)
  rw [String.toList_append, String.toList_append, show "\n".toList = ['\n'] from by simp,
    List.singleton_append, definitions, hsplit, hline, List.singleton_append, List.filterMap_cons,
    definitions]
  cases Macro.ofLine? line.toList <;> rfl

namespace Style

variable (s : Style)

/-- What stands in front of the function of a classifier. -/
def preamble : String :=
  banner ++ s.language.includeHeader ++ "\n"
    ++ if s.profiler then
        Wrapper.ja.definition s.language ++ Wrapper.jo.definition s.language
          ++ Wrapper.jr.definition s.language ++ "\n"
      else ""

/-- The shorthands that a style uses. -/
def shorthands : List Macro :=
  if s.profiler then [.ja, .jo, .jr].map (Wrapper.shorthand s.language) else []

theorem definitions_shorthand (l : Language) (w : Wrapper) (rest : String) :
    definitions (w.definition l ++ rest).toList = w.shorthand l :: definitions rest.toList := by
  have hline : '\n' ∉ (w.definitionLine l).toList := by
    cases l <;> cases w <;> decide
  have hdefinition : w.definition l = w.definitionLine l ++ "\n" := rfl
  rw [hdefinition, String.append_assoc, definitions_line hline, w.ofLine?_definitionLine]
  rfl

/-- The lines in front of the shorthands define nothing. -/
theorem definitions_banner (l : Language) (rest : String) :
    definitions (banner ++ l.includeHeader ++ "\n" ++ rest).toList = definitions rest.toList := by
  obtain ⟨line, hfeed, hnone, hlines⟩ : ∃ line : String, '\n' ∉ line.toList ∧
      Macro.ofLine? line.toList = none ∧ banner ++ l.includeHeader ++ "\n" =
        "// Autogenerated by uniclass 0.1.0. Do not edit." ++ ("\n" ++ ("" ++ ("\n" ++
          (line ++ ("\n" ++ ("" ++ "\n")))))) := by
    cases l with
    | c => exact ⟨"#include \"uniclass.h\"", by decide, by simp [Macro.ofLine?], by decide⟩
    | cpp => exact ⟨"#include \"uniclass.hpp\"", by decide, by simp [Macro.ofLine?], by decide⟩
  rw [hlines]
  simp only [String.append_assoc]
  rw [definitions_line (by decide), definitions_line (by decide), definitions_line hfeed,
    definitions_line (by decide), hnone]
  simp [Macro.ofLine?]

/-- The macros that are defined in front of the function are the shorthands. -/
theorem definitions_preamble : definitions s.preamble.toList = s.shorthands := by
  rw [preamble, definitions_banner, shorthands]
  split
  · have hend : definitions "\n".toList = [] := by decide
    rw [String.append_assoc, String.append_assoc, definitions_shorthand, definitions_shorthand,
      definitions_shorthand, hend]
    rfl
  · rfl

/-! ### Expansion -/

/-- The lexemes of an operand with its shorthand written out. -/
def operand (w : Wrapper) (xs : List Lexeme) : List Lexeme :=
  if s.profiler then w.operand s.language xs else xs

/-- The lexemes of an emitted expression with its shorthands written out. -/
def expanded : Predicate → List Lexeme
  | .constant answer => [constantLexeme s.language answer]
  | .bitTest mask value equals =>
    lexemes (s.test (mask &&& s.width.maxValue) (value &&& mask) equals)
  | .and left right =>
    s.operand .ja (expanded left) ++ .op .and :: s.operand .jr (expanded right)
  | .or left right =>
    .opening :: (s.operand .jo (expanded left)
      ++ .op .or :: (s.operand .jr (expanded right) ++ [.closing]))
  | .cond bit on off =>
    .opening :: (s.operand .ja (jump bit)
      ++ .question :: (expanded off ++ .colon :: (expanded on ++ [.closing])))

/-- A row of lexemes without the name of a shorthand. -/
def Plain (xs : List Lexeme) : Prop :=
  ∀ w : Wrapper, .name w.name ∉ xs

theorem plain_constant (b : Bool) : Plain [constantLexeme s.language b] := by
  intro w
  cases s.language <;> cases b <;> cases w <;>
    simp [constantLexeme, Language.constant, Wrapper.name]

theorem plain_test (mask value : CodeValue) (equals : Bool) :
    Plain (lexemes (s.test mask value equals)) := by
  have hc : ∀ w : Wrapper, "c" ≠ w.name := by
    intro w
    cases w <;> decide
  have hmasked : ∀ w : Wrapper, .name w.name ∉ lexemes (s.masked mask) := by
    intro w
    rw [masked]
    split <;> simp [Token.lexemes, (hc w).symm]
  rw [test]
  split
  · simpa [Token.lexemes] using s.plain_constant equals
  · intro w
    split
    · cases equals <;> simp [Token.lexemes, hmasked]
    · dsimp only
      split <;> cases equals <;> simp [Token.lexemes, hmasked]

theorem plain_jump (bit : CodeValue) : Plain (jump bit) := by
  intro w
  cases w <;> simp [jump, Wrapper.name]

theorem Plain.operand {xs : List Lexeme} (h : Plain xs) (w : Wrapper) : Plain (s.operand w xs) := by
  have hcall : ∀ k : Counter, Plain (k.call s.language) := by
    intro k w
    cases s.language <;> cases k <;> cases w <;>
      simp [Counter.call, Counter.lexemes, Language.counter, Wrapper.name]
  rw [Style.operand]
  split
  · intro w'
    have hxs := h w'
    have hcall' := fun k => hcall k w'
    cases w <;> simp [Wrapper.operand, hxs, hcall']
  · exact h

theorem plain_expanded (p : Predicate) : Plain (s.expanded p) := by
  induction p with
  | constant answer => exact s.plain_constant answer
  | bitTest mask value equals => exact s.plain_test _ _ _
  | and left right ihLeft ihRight =>
    intro w
    simp [expanded, ihLeft.operand s .ja w, ihRight.operand s .jr w]
  | or left right ihLeft ihRight =>
    intro w
    simp [expanded, ihLeft.operand s .jo w, ihRight.operand s .jr w]
  | cond bit on off ihOn ihOff =>
    intro w
    simp [expanded, (plain_jump bit).operand s .ja w, ihOn w, ihOff w]

theorem balanced_constant (b : Bool) : Balanced [constantLexeme s.language b] := by
  intro depth
  cases s.language <;> rfl

theorem balanced_test (mask value : CodeValue) (equals : Bool) :
    Balanced (lexemes (s.test mask value equals)) := by
  have hmasked : Balanced (lexemes (s.masked mask)) := by
    intro depth
    rw [masked]
    split <;> simp [Token.lexemes, depth?]
  rw [test]
  split
  · simpa [Token.lexemes] using s.balanced_constant equals
  · intro depth
    split
    · cases equals <;> simp [Token.lexemes, depth?, depth?_append, hmasked (depth + 1)]
    · dsimp only
      split <;> cases equals <;>
        simp [Token.lexemes, depth?, depth?_append, hmasked (depth + 1), hmasked (depth + 2)]

theorem balanced_wrap (w : Wrapper) {ps : List Piece} (h : Balanced (lexemes ps)) :
    Balanced (lexemes (s.wrap w ps)) := by
  rw [wrap]
  split
  · intro depth
    simp [Token.lexemes, depth?, depth?_append, h (depth + 1)]
  · exact h

theorem balanced_jumpTest (bit : CodeValue) : Balanced (lexemes (jumpTest bit)) := by
  rw [lexemes_jumpTest]
  intro depth
  rfl

theorem balanced_expression (indent : Nat) (p : Predicate) :
    Balanced (lexemes (s.expression indent p)) := by
  induction p generalizing indent with
  | constant answer => simpa [expression, Token.lexemes] using s.balanced_constant answer
  | bitTest mask value equals => exact s.balanced_test _ _ _
  | and left right ihLeft ihRight =>
    have hleft := s.balanced_wrap .ja (ihLeft indent)
    have hright := s.balanced_wrap .jr (ihRight indent)
    intro depth
    simp [expression, Token.lexemes, depth?, depth?_append, hleft depth, hright depth]
  | or left right ihLeft ihRight =>
    have hleft := s.balanced_wrap .jo (ihLeft (indent + 1))
    have hright := s.balanced_wrap .jr (ihRight (indent + 1))
    intro depth
    simp [expression, Token.lexemes, depth?, depth?_append, hleft (depth + 1), hright (depth + 1)]
  | cond bit on off ihOn ihOff =>
    have hjump := s.balanced_wrap .ja (balanced_jumpTest bit)
    have hoff := ihOff (indent + 1)
    have hon := ihOn (indent + 1)
    intro depth
    rw [expression, ← jumpTest]
    simp [Token.lexemes, depth?, depth?_append, hjump (depth + 1), hoff (depth + 1),
      hon (depth + 1)]

variable {s} in
/-- The name of a shorthand stands for it. -/
theorem defined?_shorthands (h : s.profiler = true) (w : Wrapper) :
    defined? s.shorthands w.name = some (w.shorthand s.language) := by
  rw [shorthands, if_pos h]
  cases w <;> rfl

theorem Plain.keep {ms : List Macro} {xs : List Lexeme} (h : Plain xs)
    (hms : ∀ m ∈ ms, ∃ w : Wrapper, m.name = w.name) : Expands ms xs xs := by
  apply Expands.keepAll
  intro name hname
  rw [defined?, List.find?_eq_none]
  intro m hm heq
  obtain ⟨w, hw⟩ := hms m hm
  exact h w (by simp_all)

theorem mem_shorthands {m : Macro} (h : m ∈ s.shorthands) : ∃ w : Wrapper, m.name = w.name := by
  rw [shorthands] at h
  split at h
  · obtain ⟨w, -, rfl⟩ := List.mem_map.mp h
    exact ⟨w, rfl⟩
  · cases h

theorem expands_wrap {ps : List Piece} {us : List Lexeme} (w : Wrapper)
    (h : Expands s.shorthands (lexemes ps) us) (hbalanced : Balanced (lexemes ps))
    (hplain : Plain us) : Expands s.shorthands (lexemes (s.wrap w ps)) (s.operand w us) := by
  rw [wrap, operand]
  split
  · rename_i hprofiler
    have hplain' : Plain (w.operand s.language us) := by
      have h := hplain.operand s w
      rwa [operand, if_pos hprofiler] at h
    have hbody : expand (without s.shorthands w.name) ((w.shorthand s.language).substitute us) =
        some (w.operand s.language us) := by
      rw [w.substitute_shorthand]
      exact (hplain'.keep fun m hm => s.mem_shorthands (List.mem_of_mem_eraseP hm)).expand_eq
    simpa [Token.lexemes] using
      Expands.call (defined?_shorthands hprofiler w) hbalanced h.expand_eq hbody
  · exact h

/-- The shorthands of an emitted expression expand to their operands with the counting functions
around them. -/
theorem expands_expression (indent : Nat) (p : Predicate) :
    Expands s.shorthands (lexemes (s.expression indent p)) (s.expanded p) := by
  induction p generalizing indent with
  | constant answer =>
    have hkeep := (s.plain_constant answer).keep fun m => s.mem_shorthands
    simpa [expression, expanded, Token.lexemes] using hkeep
  | bitTest mask value equals =>
    exact (s.plain_expanded (.bitTest mask value equals)).keep fun m => s.mem_shorthands
  | and left right ihLeft ihRight =>
    have hleft := s.expands_wrap .ja (ihLeft indent) (s.balanced_expression indent left)
      (s.plain_expanded left)
    have hright := s.expands_wrap .jr (ihRight indent) (s.balanced_expression indent right)
      (s.plain_expanded right)
    simpa [expression, expanded, Token.lexemes] using hleft.append (.cons (by simp) hright)
  | or left right ihLeft ihRight =>
    have hleft := s.expands_wrap .jo (ihLeft (indent + 1)) (s.balanced_expression _ left)
      (s.plain_expanded left)
    have hright := s.expands_wrap .jr (ihRight (indent + 1)) (s.balanced_expression _ right)
      (s.plain_expanded right)
    have hclosing := hright.append (.cons (t := .closing) (by simp) .nil)
    simpa [expression, expanded, Token.lexemes] using
      Expands.cons (t := .opening) (by simp) (hleft.append (.cons (by simp) hclosing))
  | cond bit on off ihOn ihOff =>
    have hkeep := (plain_jump bit).keep fun m => s.mem_shorthands
    have hjump := s.expands_wrap .ja ((lexemes_jumpTest bit).symm ▸ hkeep)
      (balanced_jumpTest bit) (plain_jump bit)
    have hon := (ihOn (indent + 1)).append (.cons (t := .closing) (by simp) .nil)
    have hbranches := (ihOff (indent + 1)).append (.cons (t := .colon) (by simp) hon)
    rw [expression, ← jumpTest]
    simpa [expanded, Token.lexemes] using
      Expands.cons (t := .opening) (by simp) (hjump.append (.cons (by simp) hbranches))

end Style

end BitClassifier
