import BitClassifier.Emit.Test
import BitClassifier.Proofs.Emit.Lexemes
import BitClassifier.Proofs.Source.Routine
import Mathlib.Data.List.Basic

/-!
# Reading emitted tests

The source file of a test is read as a function with one loop (`Style.testRoutine`): its text is
resolved under the flags that are defined, cut into lexemes and read statement by statement
(`Style.ofText?_testFile`). The name of the classifier has to be an identifier, and none of the
words that are not read as names (`IsFree`).
-/

namespace BitClassifier

open Source

/-! ### Names and numbers -/

/-- A positive number has no leading zero. -/
theorem head?_toDigits {n : Nat} (h : 0 < n) : ∀ c ∈ (Nat.toDigits 10 n).head?, c ≠ '0' := by
  induction n using Nat.strong_induction_on with
  | _ n ih =>
    by_cases hlt : n < 10
    · have hdigits : ∀ k : Fin 10, 0 < k.val → Nat.digitChar k.val ≠ '0' := by decide
      rw [Nat.toDigits_of_lt_base hlt]
      simpa using hdigits ⟨n, hlt⟩ h
    · rw [Nat.toDigits_of_base_le (by decide) (Nat.le_of_not_lt hlt),
        List.head?_append_of_ne_nil _ Nat.toDigits_ne_nil]
      exact ih (n / 10) (by omega) (by omega)

theorem decimal_toDigits (n : Nat) : decimal (Nat.toDigits 10 n) = n := by
  have hvalue := Nat.ofDigitChars_ten_toDigits (n := n)
  rwa [Nat.ofDigitChars_eq_foldl] at hvalue

theorem toList_toString (n : Nat) : (toString n).toList = Nat.toDigits 10 n := by
  rw [Nat.toString_eq_ofList_toDigits, String.toList_ofList]

theorem all_isDigit_toString (n : Nat) : (toString n).toList.all Char.isDigit = true := by
  rw [toList_toString, List.all_eq_true]
  exact fun c hc => Nat.isDigit_of_mem_toDigits (by decide) (by decide) hc

theorem all_toString (n : Nat) : (toString n).toList.all isWordChar = true := by
  rw [List.all_eq_true]
  intro c hc
  have hdigit := List.all_eq_true.mp (all_isDigit_toString n) c hc
  simp [isWordChar, Char.isAlphanum, hdigit]

/-- A number is read as it is written. -/
theorem word?_toString (n : Nat) : word? (toString n).toList = some (.number n) := by
  rcases Nat.eq_zero_or_pos n with rfl | hpos
  · rfl
  · have hdigits := all_isDigit_toString n
    have hdecimal := decimal_toDigits n
    have hhead := head?_toDigits hpos
    rw [toList_toString] at hdigits ⊢
    cases hcs : Nat.toDigits 10 n with
    | nil => exact absurd hcs Nat.toDigits_ne_nil
    | cons d ds =>
      rw [hcs] at hdigits hdecimal hhead
      have hd : d ≠ '0' := hhead d rfl
      rw [word?, if_pos hdigits, hdecimal]
      all_goals simp [hd]

theorem lex_toString (n : Nat) : lex (toString n).toList = some [.number n] := by
  simpa using lex_word (all_toString n) (word?_toString n) begins_nil

/-! ### The parts of a test -/

namespace Style

/-- The largest value that a test looks at. -/
def lastTested (s : Style) : Nat :=
  min s.width.maxValue.toNat 0x10FFFF

/-- The matching values that a test lists. -/
def listedValues (s : Style) (values : List CodeValue) : List CodeValue :=
  values.filter fun v => decide (v.toNat ≤ s.lastTested)

/-- With the flag, the next listed value is taken in every turn, and the loop is left when there is
none. -/
def skip (flags : List String) : List Statement :=
  if "TEST_ONLY_MATCHES" ∈ flags then
    [.ifElse (.binary .less (.var "j") (.var "n")) (.assign "c" (.element "codes" "j")) .leave]
  else []

/-- The condition of an emitted test that a value is listed. -/
def listed : Term :=
  .binary .and (.binary .less (.var "j") (.var "n"))
    (.binary .equal (.var "c") (.element "codes" "j"))

/-- A turn notes whether its value is listed, and passes the place in the list if so. -/
def look (s : Style) : List Statement :=
  [.declare s.language.boolType "b" (some listed), .ifThen (.var "b") (.increment "j")]

/-- The statements that count instructions. -/
def counting (s : Style) : List Statement :=
  let jumps := Term.call (s.language.counter .count)
  [.ifElse (.var "b") (.increase "match_jumps" jumps) (.increase "unmatched_jumps" jumps),
    .ifThen (.binary .less (.var "c") (.number 128)) (.increase "ascii_jumps" jumps),
    .ifThen (.binary .greater jumps (.var "max_jumps")) (.assign "max_jumps" jumps)]

/-- A turn calls the classifier, and counts a wrong answer and the instructions. -/
def check (s : Style) (name : String) : List Statement :=
  .ifThen (.binary .notEqual (.apply name "c") (.var "b"))
      (.row [.output, .increment "failed"])
    :: if s.profiler then s.counting else []

/-- The loop of a test, where flags are defined. -/
def testLoop (s : Style) (name : String) (flags : List String) : Loop where
  first := .next (.assign "i" (.number 0)) (.assign "j" (.number 0))
  condition := .binary .atMost (.var "i") (.number s.lastTested)
  step := .next (.increment "i") (.increment "c")
  body := .row (skip flags ++ (s.look ++ s.check name))

/-- The variables of a profiled test that hold numbers of instructions. -/
def jumpCounts : List String :=
  ["match_jumps", "unmatched_jumps", "ascii_jumps", "max_jumps"]

/-- What a test declares and puts out before its loop. -/
def testSetup (s : Style) (codes : List CodeValue) : List Statement :=
  [.array "codes" (if codes = [] then [0] else codes.map (·.toNat)),
      .declare "uint32_t" "c" (some (.number 0)),
      .next (.declare "unsigned" "failed" (some (.number 0)))
        (.next (.declare "unsigned" "i" none)
          (.next (.declare "unsigned" "j" none)
            (.declare "unsigned" "n" (some (.number codes.length)))))]
    ++ ((if s.profiler then
        [.next (.declare "unsigned" "match_jumps" (some (.number 0)))
          (.next (.declare "unsigned" "unmatched_jumps" (some (.number 0)))
            (.next (.declare "unsigned" "ascii_jumps" (some (.number 0)))
              (.declare "unsigned" "max_jumps" (some (.number 0)))))]
      else [])
    ++ [.output])

/-- What a test puts out behind its loop. -/
def testReport (s : Style) : List Statement :=
  .ifElse (.binary .equal (.var "failed") (.number 0)) .output .output
    :: if s.profiler then [.output] else []

/-- The test of a classifier, where flags are defined. -/
def testRoutine (s : Style) (name : String) (values : List CodeValue) (flags : List String) :
    Routine where
  name := "test_" ++ name
  before := .row (s.testSetup (s.listedValues values))
  loop := s.testLoop name flags
  after := .row s.testReport

end Style

/-- The words that are not read as names in an emitted test: its keywords and its macro. -/
def testWords : List String :=
  "AVG" :: keywords.map Prod.fst

/-- An identifier that is read as a name in an emitted test. -/
structure IsFree (name : String) : Prop where
  chars : name.toList.all isWordChar = true
  first : ∃ c ∈ name.toList.head?, c.isDigit = false
  unused : name ∉ testWords

/-- A word that begins with no digit is a name. -/
theorem word?_name {cs : List Char} {c : Char} (hc : c.isDigit = false) :
    word? (c :: cs) = some (.name (String.ofList (c :: cs))) := by
  have hzero : c ≠ '0' := by
    rintro rfl
    cases hc
  rw [word?]
  · simp [hc]
  all_goals simp [hzero]

theorem IsFree.word? {name : String} (h : IsFree name) :
    word? name.toList = some (.name name) := by
  obtain ⟨c, hc, hdigit⟩ := h.first
  obtain ⟨cs, hcs⟩ := List.head?_eq_some_iff.mp hc
  rw [hcs, word?_name hdigit, ← hcs, String.ofList_toList]

theorem known_name {name : String} (h : name ∉ testWords) :
    Lexeme.known ["AVG"] (.name name) = .name name := by
  obtain ⟨hname, hwords⟩ := not_or.mp (mt List.mem_cons.mpr h)
  have hlookup : keywords.lookup name = none := by
    rw [List.lookup_eq_none_iff]
    rintro ⟨word, keyword⟩ hword
    rw [bne_iff_ne]
    rintro rfl
    exact hwords (List.mem_map_of_mem (f := Prod.fst) hword)
  simp [Lexeme.known, hname, hlookup]

/-! ### Lines of code -/

/-- Lines of code, with their lexemes in a text where `AVG` is a macro. -/
structure Code (lines : List (List Char)) (ts : List Lexeme) : Prop where
  code : lines.all TextLine.isCode = true
  lexemes : ∃ rows, lines.mapM lex = some rows ∧ rows.flatten.map (Lexeme.known ["AVG"]) = ts

/-- Lines that are read as statements one after the other. -/
def Holds (lines : List (List Char)) (ss : List Statement) : Prop :=
  ∃ ts, Code lines ts ∧ RowFrom ss ts

section Lines

variable {lines lines' : List (List Char)} {ts us : List Lexeme} {l : List Char}
  {ss ss' : List Statement}

theorem Code.append (h : Code lines ts) (h' : Code lines' us) :
    Code (lines ++ lines') (ts ++ us) where
  code := by rw [List.all_append, h.code, h'.code, Bool.true_and]
  lexemes := by
    obtain ⟨rows, hrows, hts⟩ := h.lexemes
    obtain ⟨rows', hrows', hus⟩ := h'.lexemes
    refine ⟨rows ++ rows', by rw [List.mapM_append, hrows, hrows']; rfl, ?_⟩
    rw [List.flatten_append, List.map_append, hts, hus]

theorem Code.of_lex (hcode : lines.all TextLine.isCode = true)
    (hlex : ((lines.mapM lex).map fun rows => rows.flatten.map (Lexeme.known ["AVG"])) = some ts) :
    Code lines ts where
  code := hcode
  lexemes := Option.map_eq_some_iff.mp hlex

theorem Code.line (hcode : TextLine.isCode l = true)
    (hlex : (lex l).map (List.map (Lexeme.known ["AVG"])) = some ts) : Code [l] ts := by
  obtain ⟨row, hrow, rfl⟩ := Option.map_eq_some_iff.mp hlex
  exact .of_lex (by simpa using hcode) (by simp [hrow])

/-- A line of code with a word in it. -/
theorem Code.insert {before word behind : String} {t : Lexeme}
    (hcode : TextLine.isCode (before ++ word ++ behind).toList = true)
    (hbefore : lex before.toList = some ts) (hend : Complete before.toList)
    (hchars : word.toList.all isWordChar = true) (hword : word? word.toList = some t)
    (hknown : Lexeme.known ["AVG"] t = t) (hbehind : lex behind.toList = some us)
    (hbegins : Begins isWordChar behind.toList) :
    Code [(before ++ word ++ behind).toList]
      (ts.map (Lexeme.known ["AVG"]) ++ t :: us.map (Lexeme.known ["AVG"])) := by
  refine .line hcode ?_
  rw [String.toList_append, String.toList_append, List.append_assoc,
    lex_insert hbefore hend hchars hword hbegins, hbehind]
  simp [hknown]

theorem Holds.nil : Holds [] [] :=
  ⟨[], ⟨rfl, [], rfl, rfl⟩, .nil⟩

theorem Holds.append (h : Holds lines ss) (h' : Holds lines' ss') :
    Holds (lines ++ lines') (ss ++ ss') := by
  obtain ⟨ts, hcode, hrow⟩ := h
  obtain ⟨us, hcode', hrow'⟩ := h'
  exact ⟨ts ++ us, hcode.append hcode', hrow.append hrow'⟩

theorem Holds.line (hcode : TextLine.isCode l = true)
    (hlex : (lex l).map (List.map (Lexeme.known ["AVG"])) = some ts) (hrow : RowFrom ss ts) :
    Holds [l] ss :=
  ⟨ts, .line hcode hlex, hrow⟩

/-- Lines whose lexemes pass a test that every row of these statements passes. -/
theorem Holds.of_test (test : List Lexeme → Bool)
    (hlines : (lines.all TextLine.isCode && (lines.mapM lex).any fun rows =>
      test (rows.flatten.map (Lexeme.known ["AVG"]))) = true)
    (htest : ∀ ts, test ts = true → RowFrom ss ts) : Holds lines ss := by
  rw [Bool.and_eq_true] at hlines
  obtain ⟨rows, hrows, hpassed⟩ := (Option.any_eq_true ..).mp hlines.2
  exact ⟨_, ⟨hlines.1, rows, hrows, rfl⟩, htest _ hpassed⟩

end Lines

/-- Whether a row of lexemes is an output. -/
def isOutput : List Lexeme → Bool
  | .keyword .output :: us =>
    harmless us.dropLast && us.dropLast.all (· != .mark .semicolon) &&
      us.getLast? == some (.mark .semicolon)
  | _ => false

theorem readFrom_of_isOutput {ts : List Lexeme} (h : isOutput ts = true) :
    Statement.output.ReadFrom ts := by
  unfold isOutput at h
  split at h
  · rename_i us
    simp only [Bool.and_eq_true, beq_iff_eq] at h
    obtain ⟨⟨hharmless, hall⟩, hlast⟩ := h
    obtain ⟨vs, rfl⟩ := List.getLast?_eq_some_iff.mp hlast
    rw [List.dropLast_concat] at hharmless hall
    exact readFrom_output vs hharmless (List.all_eq_true.mp hall)
  · cases h

/-- Whether a row of lexemes is an output where there are no wrong answers, and another one where
there are some. -/
def isVerdict (ts : List Lexeme) : Bool :=
  let outputs := ts.drop 6
  ts.take 6 == [.keyword .cond, .opening, .name "failed", .op .equal, .number 0, .closing] &&
    isOutput (outputs.takeWhile (· != .keyword .otherwise)) &&
    (outputs.dropWhile (· != .keyword .otherwise)).head? == some (.keyword .otherwise) &&
    isOutput (outputs.dropWhile (· != .keyword .otherwise)).tail

theorem readFrom_of_isVerdict {ts : List Lexeme} (h : isVerdict ts = true) :
    (Statement.ifElse (.binary .equal (.var "failed") (.number 0)) .output .output).ReadFrom
      ts := by
  simp only [isVerdict, Bool.and_eq_true, beq_iff_eq] at h
  obtain ⟨⟨⟨hcondition, hyes⟩, hotherwise⟩, hno⟩ := h
  have hts : ts = ts.take 6 ++ ((ts.drop 6).takeWhile (· != .keyword .otherwise) ++
      (ts.drop 6).dropWhile (· != .keyword .otherwise)) := by
    rw [List.takeWhile_append_dropWhile, List.take_append_drop]
  obtain ⟨us, hus⟩ := List.head?_eq_some_iff.mp hotherwise
  rw [hus, List.tail_cons] at hno
  rw [hts, hcondition, hus]
  exact readFrom_ifElse [.name "failed", .op .equal, .number 0] (fun _ => rfl)
    (readFrom_of_isOutput hyes) (readFrom_of_isOutput hno)

/-- The lexemes of a call that returns the number of counted instructions. -/
def jumpLexemes : Language → List Lexeme
  | .c => [.name "jumps", .opening, .closing]
  | .cpp => [.name "Profiler", .scope, .name "jumps", .opening, .closing]

namespace Style

variable (s : Style)

/-! ### The lines of the loop -/

theorem holds_skip : Holds ["\t\tif (j < n) c = codes[j]; else break;".toList]
    [.ifElse (.binary .less (.var "j") (.var "n")) (.assign "c" (.element "codes" "j"))
      .leave] := by
  have hassign : (Statement.assign "c" (.element "codes" "j")).ReadFrom
      [.name "c", .mark .assign, .name "codes", .mark .openBracket, .name "j",
        .mark .closeBracket, .mark .semicolon] :=
    readFrom_assign [_, _, _, _] fun _ => rfl
  have hleave : Statement.leave.ReadFrom [.keyword .leave, .mark .semicolon] := by
    intro rest
    simp [Row.statement?]
  refine .line rfl ?_ (readFrom_ifElse [.name "j", .mark .less, .name "n"] (fun _ => rfl)
    hassign hleave).row
  rw [String.toList_ofList]
  decide +kernel

theorem holds_look : Holds (["\t\t" ++ s.language.boolType ++ " b = j < n && c == codes[j];",
    "\t\tif (b) ++j;"].map String.toList) s.look := by
  have hdeclare : Holds [("\t\t" ++ s.language.boolType ++ " b = j < n && c == codes[j];").toList]
      [.declare s.language.boolType "b" (some listed)] := by
    refine .line ?_ ?_ (readFrom_declare _ _ [.name "j", .mark .less, .name "n", .op .and,
      .name "c", .op .equal, .name "codes", .mark .openBracket, .name "j", .mark .closeBracket]
      fun _ => rfl).row
    · cases s.language <;> rfl
    · cases s.language
      all_goals
        simp only [Language.boolType, String.toList_append, -String.reduceToList]
        repeat rw [String.toList_ofList]
        decide +kernel
  have hpass : Holds ["\t\tif (b) ++j;".toList] [.ifThen (.var "b") (.increment "j")] :=
    .line rfl (by decide +kernel)
      (rowFrom_ifThen [.name "b"] (fun _ => rfl) (readFrom_increment "j"))
  exact hdeclare.append hpass

theorem readFrom_increase_jumps (x : String) :
    (Statement.increase x (.call (s.language.counter .count))).ReadFrom
      (.name x :: .mark .increase :: (jumpLexemes s.language ++ [.mark .semicolon])) :=
  readFrom_increase _ fun _ => by cases s.language <;> rfl

theorem holds_counting : Holds (s.countingLines.map String.toList) s.counting := by
  have hmatch : (Statement.ifElse (.var "b") _ _).ReadFrom _ :=
    readFrom_ifElse [.name "b"] (fun _ => rfl)
    (s.readFrom_increase_jumps "match_jumps") (s.readFrom_increase_jumps "unmatched_jumps")
  have hascii : RowFrom [.ifThen (.binary .less (.var "c") (.number 128)) _] _ :=
    rowFrom_ifThen [.name "c", .mark .less, .number 128] (fun _ => rfl)
    (s.readFrom_increase_jumps "ascii_jumps")
  have hassign : (Statement.assign "max_jumps" (.call (s.language.counter .count))).ReadFrom
      (.name "max_jumps" :: .mark .assign :: (jumpLexemes s.language ++ [.mark .semicolon])) :=
    readFrom_assign _ fun _ => by cases s.language <;> rfl
  have hmax : RowFrom [.ifThen (.binary .greater (.call (s.language.counter .count))
      (.var "max_jumps")) _] _ :=
    rowFrom_ifThen (jumpLexemes s.language ++ [.mark .greater, .name "max_jumps"])
      (fun _ => by cases s.language <;> rfl) hassign
  refine ⟨_, .of_lex ?_ ?_, hmatch.row.append (hascii.append hmax)⟩
  all_goals
    rw [countingLines]
    cases s.language
    all_goals
      simp only [Language.counter, List.map_cons, List.map_nil, String.toList_append,
        -String.reduceToList]
      repeat rw [String.toList_ofList]
      decide +kernel

theorem code_call {name : String} (hname : IsFree name) :
    Code [("\t\tif (" ++ name ++ "(c) != b)").toList] [.keyword .cond, .opening, .name name,
      .opening, .name "c", .closing, .op .notEqual, .name "b", .closing] := by
  have hif : lex "\t\tif (".toList = some [.name "if", .opening] := by decide +kernel
  have hrest : lex "(c) != b)".toList =
      some [.opening, .name "c", .closing, .op .notEqual, .name "b", .closing] := by
    decide +kernel
  have hcode : TextLine.isCode ("\t\tif (" ++ name ++ "(c) != b)").toList = true := by
    rw [String.toList_append, String.toList_append, List.append_assoc]
    rfl
  exact .insert hcode hif (by simp [Complete, isWordChar, pair?]) hname.chars hname.word?
    (known_name hname.unused) hrest (by simp [isWordChar])

theorem holds_check {name : String} (hname : IsFree name) :
    Holds (["\t\tif (" ++ name ++ "(c) != b)", "\t\t\x7b", "\t\t\t" ++ s.language.testFailure,
      "\t\t\t++failed;", "\t\t\x7d"].map String.toList)
    [.ifThen (.binary .notEqual (.apply name "c") (.var "b"))
      (.row [.output, .increment "failed"])] := by
  have hfailure : Holds [("\t\t\t" ++ s.language.testFailure).toList] [.output] := by
    refine .of_test isOutput ?_ fun ts h => (readFrom_of_isOutput h).row
    cases s.language <;> decide +kernel
  have hincrement : Holds ["\t\t\t++failed;".toList] [.increment "failed"] :=
    .line rfl (by decide +kernel) (readFrom_increment "failed").row
  obtain ⟨ts, hts, hrow⟩ := hfailure.append hincrement
  have hopen : Code ["\t\t\x7b".toList] [.mark .openBrace] := .line rfl (by decide +kernel)
  have hclose : Code ["\t\t\x7d".toList] [.mark .closeBrace] := .line rfl (by decide +kernel)
  exact ⟨_, (code_call hname).append (hopen.append (hts.append hclose)),
    rowFrom_ifThen [.name name, .opening, .name "c", .closing, .op .notEqual, .name "b"]
      (fun _ => rfl) hrow.block⟩

/-- A turn of the loop. -/
theorem holds_turn {name : String} (hname : IsFree name) :
    Holds ((s.turnLines name).map String.toList) (s.look ++ s.check name) := by
  have hcounting : Holds ((if s.profiler then s.countingLines else []).map String.toList)
      (if s.profiler then s.counting else []) := by
    split
    · exact s.holds_counting
    · exact .nil
  have hturn := s.holds_look.append ((s.holds_check hname).append hcounting)
  rwa [← List.map_append, ← List.map_append] at hturn

/-! ### The lines behind the loop -/

theorem holds_verdict : Holds (s.language.testVerdict.map String.toList)
    [.ifElse (.binary .equal (.var "failed") (.number 0)) .output .output] := by
  refine .of_test isVerdict ?_ fun ts h => (readFrom_of_isVerdict h).row
  cases s.language
  all_goals
    simp only [Language.testVerdict, List.map_cons, List.map_nil, String.toList_append,
      -String.reduceToList]
    repeat rw [String.toList_ofList]
    decide +kernel

theorem holds_statistics : Holds (s.language.testStatistics.map String.toList) [.output] := by
  refine .of_test isOutput ?_ fun ts h => (readFrom_of_isOutput h).row
  cases s.language
  all_goals
    simp only [Language.testStatistics, List.map_cons, List.map_nil, String.toList_append,
      -String.reduceToList]
    repeat rw [String.toList_ofList]
    decide +kernel

theorem holds_report : Holds
    ((s.language.testVerdict ++ if s.profiler then s.language.testStatistics else []).map
      String.toList) s.testReport := by
  have hstatistics : Holds ((if s.profiler then s.language.testStatistics else []).map
      String.toList) (if s.profiler then [.output] else []) := by
    split
    · exact s.holds_statistics
    · exact .nil
  rw [List.map_append]
  exact s.holds_verdict.append hstatistics

end Style
end BitClassifier
