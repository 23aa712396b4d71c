import BitClassifier.Emit.Generator
import BitClassifier.Proofs.Emit.Initializer
import BitClassifier.Proofs.Emit.TestText

/-!
# Reading the files of tests

The lines of a test's file (`Covers`) are a heading, the list of the matching values, the variables,
the loop and the report. Each part is read as its statements (`Holds`). Put together, the file is
read as the test that it is meant to be (`Style.ofText?_testFile`).
-/

namespace BitClassifier

open Source

/-! ### Lines of a text -/

/-- Whether a text is one line. -/
def isLine (l : String) : Bool :=
  l.toList.all (· != '\n')

theorem isLine_append (l l' : String) : isLine (l ++ l') = (isLine l && isLine l') := by
  rw [isLine, String.toList_append, List.all_append]
  rfl

theorem isLine_of_all {l : String} (h : l.toList.all isWordChar = true) : isLine l = true := by
  refine List.all_eq_true.mpr fun c hc => ?_
  rw [bne_iff_ne]
  rintro rfl
  exact absurd (List.all_eq_true.mp h _ hc) (by decide)

/-- A literal is looked through without its encoding. -/
theorem isLine_ofList (cs : List Char) : isLine (String.ofList cs) = cs.all (· != '\n') := by
  rw [isLine, String.toList_ofList]

theorem not_mem_of_isLine {l : String} (h : isLine l = true) : '\n' ∉ l.toList :=
  fun hmem => absurd (List.all_eq_true.mp h _ hmem) (by decide)

theorem unlines_append (ls ls' : List String) :
    unlines (ls ++ ls') = unlines ls ++ unlines ls' := by
  rw [unlines, List.map_append, String.join_append]
  rfl

/-- Text that ends with its line, with its lines. -/
def Covers (text : List Char) (lines : List (List Char)) : Prop :=
  ∀ rest, (text ++ rest).splitOn '\n' = lines ++ rest.splitOn '\n'

section Covers

variable {text text' : List Char} {lines lines' : List (List Char)}

theorem Covers.append (h : Covers text lines) (h' : Covers text' lines') :
    Covers (text ++ text') (lines ++ lines') := by
  intro rest
  rw [List.append_assoc, h, h', List.append_assoc]

theorem covers_splitOn (text : List Char) : Covers (text ++ ['\n']) (text.splitOn '\n') := by
  intro rest
  rw [List.append_assoc, List.singleton_append, List.splitOn_append_cons_self]

theorem covers_unlines (lines : List String) (h : lines.all isLine = true) :
    Covers (unlines lines).toList (lines.map String.toList) := by
  induction lines with
  | nil => exact fun rest => by simp [unlines]
  | cons l lines ih =>
    rw [List.all_cons, Bool.and_eq_true] at h
    have hfirst := covers_splitOn l.toList
    rw [List.splitOn_eq_singleton (not_mem_of_isLine h.1)] at hfirst
    have hcovers := hfirst.append (ih h.2)
    simpa [unlines] using hcovers

end Covers

theorem subset_intercalate (sep : List Char) {l : List Char} {ls : List (List Char)} (hl : l ∈ ls) :
    l ⊆ sep.intercalate ls := by
  induction ls with
  | nil => cases hl
  | cons l' ls ih =>
    cases ls with
    | nil =>
      rw [List.mem_singleton.mp hl]
      simp
    | cons l'' ls =>
      rw [List.intercalate_cons_cons]
      rcases List.mem_cons.mp hl with rfl | hl
      · exact fun c hc => by simp [hc]
      · exact fun c hc => by simp [ih hl hc]

theorem isCode_of_not_mem {l : List Char} (hdirective : '#' ∉ l) (hcomment : '/' ∉ l) :
    TextLine.isCode l = true := by
  cases l with
  | nil => rfl
  | cons c l =>
    obtain ⟨hc, -⟩ := not_or.mp (mt List.mem_cons.mpr hdirective)
    obtain ⟨hc', -⟩ := not_or.mp (mt List.mem_cons.mpr hcomment)
    have hsharp : "#".toList = ['#'] := by decide
    have hslash : "//".toList = ['/', '/'] := by decide
    simp [TextLine.isCode, hsharp, hslash, List.isPrefixOf, hc, hc']

/-- Text without directives and comments is code on all its lines. -/
theorem code_splitOn {text : List Char} {ts : List Lexeme} (hdirective : '#' ∉ text)
    (hcomment : '/' ∉ text) (hlex : (lex text).map (List.map (Lexeme.known ["AVG"])) = some ts) :
    Code (text.splitOn '\n') ts := by
  have hlines : ∀ l ∈ text.splitOn '\n', l ⊆ text := by
    intro l hl
    have hsubset := subset_intercalate ['\n'] hl
    rwa [List.intercalate_splitOn] at hsubset
  refine .of_lex (List.all_eq_true.mpr fun l hl => isCode_of_not_mem
    (fun h => hdirective (hlines l hl h)) (fun h => hcomment (hlines l hl h))) ?_
  rw [← hlex, ← lex_splitOn, Option.map_map]
  rfl

namespace Style

/-! ### The lines before the loop -/

theorem holds_list (codes : List CodeValue) :
    Holds (("\tuint32_t codes[] = \x7b" ++ initializer codes).toList.splitOn '\n'
        ++ ["\t\x7d;".toList, "".toList])
      [.array "codes" (if codes = [] then [0] else codes.map (·.toNat))] := by
  have hbefore : lex "\tuint32_t codes[] = \x7b".toList = some [.name "uint32_t", .name "codes",
      .mark .openBracket, .mark .closeBracket, .mark .assign, .mark .openBrace] := by
    decide +kernel
  have hchars : "\tuint32_t codes[] = \x7b".toList.all (fun c => c != '#' && c != '/') = true := by
    decide +kernel
  have hlist : lex ((initializer codes).toList ++ []) = _ := lex_initializer codes begins_nil
  rw [List.append_nil, lex_nil] at hlist
  have hlex : lex ("\tuint32_t codes[] = \x7b" ++ initializer codes).toList =
      some ([.name "uint32_t", .name "codes", .mark .openBracket, .mark .closeBracket,
        .mark .assign, .mark .openBrace] ++ initializerLexemes codes) := by
    rw [String.toList_append, lex_append hbefore (by simp [Complete, isWordChar, pair?]), hlist]
    simp
  have hplain (c : Char) (hc : c ∈ ("\tuint32_t codes[] = \x7b" ++ initializer codes).toList) :
      c ≠ '#' ∧ c ≠ '/' := by
    rw [String.toList_append, List.mem_append] at hc
    rcases hc with hc | hc
    · simpa using List.all_eq_true.mp hchars c hc
    · have hlisted := List.all_eq_true.mp (all_initializer codes) c hc
      constructor <;> rintro rfl <;> exact absurd hlisted (by decide)
  have hbegun : Code (("\tuint32_t codes[] = \x7b" ++ initializer codes).toList.splitOn '\n')
      ([.keyword (.type "uint32_t"), .name "codes", .mark .openBracket, .mark .closeBracket,
        .mark .assign, .mark .openBrace] ++ initializerLexemes codes) := by
    refine code_splitOn (fun h => (hplain _ h).1 rfl) (fun h => (hplain _ h).2 rfl) ?_
    rw [hlex, Option.map_some, List.map_append, known_initializerLexemes]
    rfl
  have hend : Code ["\t\x7d;".toList, "".toList] [.mark .closeBrace, .mark .semicolon] :=
    .of_lex (by decide +kernel) (by decide +kernel)
  have hread := readFrom_array "uint32_t" "codes"
    (numbers?_initializerLexemes codes)
  refine ⟨_, hbegun.append hend, ?_⟩
  rw [List.append_assoc]
  exact hread.row

theorem holds_counters (n : Nat) :
    Holds (["\tuint32_t c = 0;", "\tunsigned failed = 0, i, j, n = " ++ toString n ++ ";"].map
        String.toList)
      [.declare "uint32_t" "c" (some (.number 0)),
        .next (.declare "unsigned" "failed" (some (.number 0)))
          (.next (.declare "unsigned" "i" none)
            (.next (.declare "unsigned" "j" none)
              (.declare "unsigned" "n" (some (.number n)))))] := by
  have hvalue : Holds ["\tuint32_t c = 0;".toList] [.declare "uint32_t" "c" (some (.number 0))] :=
    .line rfl (by decide +kernel)
      (readFrom_declare "uint32_t" "c" [.number 0] fun _ => rfl).row
  have hbefore : lex "\tunsigned failed = 0, i, j, n = ".toList =
      some [.name "unsigned", .name "failed", .mark .assign, .number 0, .mark .comma,
        .name "i", .mark .comma, .name "j", .mark .comma, .name "n", .mark .assign] := by
    decide +kernel
  have hend : lex ";".toList = some [.mark .semicolon] := by decide +kernel
  have hcounters : Holds [("\tunsigned failed = 0, i, j, n = " ++ toString n ++ ";").toList]
      [.next (.declare "unsigned" "failed" (some (.number 0)))
        (.next (.declare "unsigned" "i" none)
          (.next (.declare "unsigned" "j" none)
            (.declare "unsigned" "n" (some (.number n)))))] := by
    have hread : (Statement.next (.declare "unsigned" "failed" (some (.number 0)))
        (.next (.declare "unsigned" "i" none) (.next (.declare "unsigned" "j" none)
          (.declare "unsigned" "n" (some (.number n)))))).ReadFrom
        [.keyword (.type "unsigned"), .name "failed", .mark .assign, .number 0, .mark .comma,
          .name "i", .mark .comma, .name "j", .mark .comma, .name "n", .mark .assign, .number n,
          .mark .semicolon] := by
      intro rest
      rw [List.cons_append, Row.statement?]
      exact declarators?_comma rfl (declarators?_comma rfl (declarators?_comma rfl
        (declarators?_last rfl)))
    have hcode : TextLine.isCode
        ("\tunsigned failed = 0, i, j, n = " ++ toString n ++ ";").toList = true := by
      rw [String.toList_append, String.toList_append, List.append_assoc]
      rfl
    exact ⟨_, .insert hcode hbefore (by simp [Complete, isWordChar, pair?]) (all_toString n)
      (word?_toString n) rfl hend (by simp [isWordChar]), hread.row⟩
  exact hvalue.append hcounters

theorem holds_jumpCounts : Holds
    ["\tunsigned match_jumps = 0, unmatched_jumps = 0, ascii_jumps = 0, max_jumps = 0;".toList]
    [.next (.declare "unsigned" "match_jumps" (some (.number 0)))
      (.next (.declare "unsigned" "unmatched_jumps" (some (.number 0)))
        (.next (.declare "unsigned" "ascii_jumps" (some (.number 0)))
          (.declare "unsigned" "max_jumps" (some (.number 0)))))] := by
  have hread : (Statement.next (.declare "unsigned" "match_jumps" (some (.number 0)))
      (.next (.declare "unsigned" "unmatched_jumps" (some (.number 0)))
        (.next (.declare "unsigned" "ascii_jumps" (some (.number 0)))
          (.declare "unsigned" "max_jumps" (some (.number 0)))))).ReadFrom
      [.keyword (.type "unsigned"), .name "match_jumps", .mark .assign, .number 0, .mark .comma,
        .name "unmatched_jumps", .mark .assign, .number 0, .mark .comma, .name "ascii_jumps",
        .mark .assign, .number 0, .mark .comma, .name "max_jumps", .mark .assign, .number 0,
        .mark .semicolon] := by
    intro rest
    rw [List.cons_append, Row.statement?]
    exact declarators?_comma rfl (declarators?_comma rfl (declarators?_comma rfl
      (declarators?_last rfl)))
  refine .line rfl ?_ hread.row
  rw [String.toList_ofList]
  decide +kernel

theorem all_isQuotable_of_word {cs : List Char} (h : cs.all isWordChar = true) :
    cs.all isQuotable = true :=
  List.all_eq_true.mpr fun c hc => isQuotable_of_isWordChar (List.all_eq_true.mp h c hc)

/-- A line that puts out a text, in the first language. -/
theorem holds_printf {text : String} (h : text.toList.all isQuotable = true) :
    Holds [("\t" ++ ("printf(\"\\n" ++ text ++ "\\n\");")).toList] [.output] := by
  have hbefore : lex "\tprintf(".toList = some [.name "printf", .opening] := by decide +kernel
  have hquoted : quoted? ('\\' :: 'n' :: (text.toList ++ '\\' :: 'n' :: '"' :: ");".toList)) =
      some ");".toList := by
    simp [quoted?, quoted?_of_all h]
  have hbehind : lex ");".toList = some [.closing, .mark .semicolon] := by decide +kernel
  have htext : ("\t" ++ ("printf(\"\\n" ++ text ++ "\\n\");")).toList = "\tprintf(".toList ++
      '"' :: '\\' :: 'n' :: (text.toList ++ '\\' :: 'n' :: '"' :: ");".toList) := by
    simp
  refine .line ?_ ?_ (readFrom_output [.opening, .quoted, .closing] rfl (by simp)).row
  · rw [htext]
    rfl
  · rw [htext, lex_append hbefore (by simp [Complete, isWordChar, pair?]), lex_quoted hquoted,
      hbehind]
    rfl

/-- A line that puts out a text, in the second language. -/
theorem holds_cout {text : String} (h : text.toList.all isQuotable = true) :
    Holds [("\t" ++ ("std::cout << std::hex << std::noshowbase << std::endl << \"" ++ text
      ++ "\" << std::endl;")).toList] [.output] := by
  have hbefore : lex "\tstd::cout << std::hex << std::noshowbase << std::endl << ".toList =
      some [.name "std", .scope, .name "cout", .mark .shift, .name "std", .scope, .name "hex",
        .mark .shift, .name "std", .scope, .name "noshowbase", .mark .shift, .name "std", .scope,
        .name "endl", .mark .shift] := by
    rw [String.toList_ofList]
    decide +kernel
  have hquoted : quoted? (text.toList ++ '"' :: " << std::endl;".toList) =
      some " << std::endl;".toList := by
    rw [quoted?_of_all h]
    rfl
  have hbehind : lex " << std::endl;".toList =
      some [.mark .shift, .name "std", .scope, .name "endl", .mark .semicolon] := by
    decide +kernel
  have htext : ("\t" ++ ("std::cout << std::hex << std::noshowbase << std::endl << \"" ++ text
      ++ "\" << std::endl;")).toList =
      "\tstd::cout << std::hex << std::noshowbase << std::endl << ".toList ++
        '"' :: (text.toList ++ '"' :: " << std::endl;".toList) := by
    simp only [String.toList_append, -String.reduceToList]
    repeat rw [String.toList_ofList]
    simp
  refine .line ?_ ?_ (readFrom_output [.scope, .name "cout", .mark .shift,
    .keyword .output, .scope, .name "hex", .mark .shift, .keyword .output, .scope,
    .name "noshowbase", .mark .shift, .keyword .output, .scope, .name "endl", .mark .shift,
    .quoted, .mark .shift, .keyword .output, .scope, .name "endl"] rfl (by simp)).row
  · rw [htext]
    rfl
  · rw [htext, lex_append hbefore (by simp [Complete, isWordChar, pair?]), lex_quoted hquoted,
      hbehind]
    rfl

variable (s : Style)

theorem holds_heading {name : String} (hname : IsFree name) (n : Nat) :
    Holds [("\t" ++ s.language.testHeading name n).toList] [.output] := by
  have hheading : ("Testing " ++ name ++ " (matching " ++ toString n ++ "):").toList.all
      isQuotable = true := by
    have hfirst : "Testing ".toList.all isQuotable = true := by decide +kernel
    have hsecond : " (matching ".toList.all isQuotable = true := by decide +kernel
    have hthird : "):".toList.all isQuotable = true := by decide +kernel
    simp only [String.toList_append, List.all_append, all_isQuotable_of_word hname.chars,
      all_isQuotable_of_word (all_toString n), hfirst, hsecond, hthird, Bool.and_true]
  cases s.language with
  | c => exact holds_printf hheading
  | cpp => exact holds_cout hheading

theorem holds_setup {name : String} (hname : IsFree name) (codes : List CodeValue) :
    Holds (("\tuint32_t codes[] = \x7b" ++ initializer codes).toList.splitOn '\n'
        ++ ["\t\x7d;".toList, "".toList] ++ (s.setupLines name codes.length).map String.toList)
      (s.testSetup codes) := by
  have hjumps : Holds ((if s.profiler then
      ["\tunsigned match_jumps = 0, unmatched_jumps = 0, ascii_jumps = 0, max_jumps = 0;"]
      else []).map String.toList) (if s.profiler then
        [.next (.declare "unsigned" "match_jumps" (some (.number 0)))
          (.next (.declare "unsigned" "unmatched_jumps" (some (.number 0)))
            (.next (.declare "unsigned" "ascii_jumps" (some (.number 0)))
              (.declare "unsigned" "max_jumps" (some (.number 0)))))]
      else []) := by
    split
    · exact holds_jumpCounts
    · exact .nil
  have hlines := (holds_list codes).append ((holds_counters codes.length).append
    (hjumps.append (s.holds_heading hname codes.length)))
  rw [setupLines, List.map_append, List.map_append, List.append_assoc (List.map _ _)]
  exact hlines

theorem code_head {name : String} (hname : IsFree name) :
    Code (["void test_" ++ name ++ "()", "\x7b"].map String.toList) [.keyword (.type "void"),
      .name ("test_" ++ name), .opening, .closing, .mark .openBrace] := by
  have htest : ("test_" ++ name).toList = 't' :: ("est_".toList ++ name.toList) := by simp
  have hchars : ("test_" ++ name).toList.all isWordChar = true := by
    rw [String.toList_append, List.all_append, hname.chars]
    decide
  have hword : word? ("test_" ++ name).toList = some (.name ("test_" ++ name)) := by
    rw [htest, word?_name (by decide), ← htest, String.ofList_toList]
  have hknown : Lexeme.known ["AVG"] (.name ("test_" ++ name)) = .name ("test_" ++ name) := by
    refine known_name fun hmem => ?_
    have hothers : ∀ w ∈ testWords, ¬ "test_".toList <+: w.toList := by decide +kernel
    exact hothers _ hmem (by rw [String.toList_append]; exact List.prefix_append ..)
  have hvoid : lex "void ".toList = some [.name "void"] := by decide +kernel
  have hbehind : lex "()".toList = some [.opening, .closing] := by decide +kernel
  have hopen : Code ["\x7b".toList] [.mark .openBrace] := .line rfl (by decide +kernel)
  have htext : "void test_" ++ name ++ "()" = "void " ++ ("test_" ++ name) ++ "()" := by
    rw [← String.append_assoc]
    rfl
  have hcode : TextLine.isCode ("void " ++ ("test_" ++ name) ++ "()").toList = true := by
    rw [String.toList_append, String.toList_append, List.append_assoc]
    rfl
  have hline := Code.insert hcode hvoid (by simp [Complete, isWordChar, pair?]) hchars hword hknown
    hbehind (by simp [isWordChar])
  rw [← htext] at hline
  exact hline.append hopen

/-! ### The lines of the loop's header -/

/-- The lexemes behind the keyword of the loop, for the last value, up to the brace that opens its
body. -/
def loopLexemes (n : Nat) : List Lexeme :=
  [.opening, .name "i", .mark .assign, .number 0, .mark .comma, .name "j", .mark .assign, .number 0,
    .mark .semicolon, .name "i", .mark .atMost, .number n, .mark .semicolon, .mark .increment,
    .name "i", .mark .comma, .mark .increment, .name "c", .closing, .mark .openBrace]

theorem code_loop (n : Nat) :
    Code (["\tfor (i = 0, j = 0; i <= " ++ Hex.text n ++ "; ++i, ++c)", "\t\x7b"].map String.toList)
      (.keyword .loop :: loopLexemes n) := by
  have hbefore : lex "\tfor (i = 0, j = 0; i <= ".toList = some [.name "for", .opening, .name "i",
      .mark .assign, .number 0, .mark .comma, .name "j", .mark .assign, .number 0,
      .mark .semicolon, .name "i", .mark .atMost] := by
    decide +kernel
  have hbehind : lex "; ++i, ++c)".toList = some [.mark .semicolon, .mark .increment, .name "i",
      .mark .comma, .mark .increment, .name "c", .closing] := by
    decide +kernel
  have hopen : Code ["\t\x7b".toList] [.mark .openBrace] := .line rfl (by decide +kernel)
  have hcode : TextLine.isCode
      ("\tfor (i = 0, j = 0; i <= " ++ Hex.text n ++ "; ++i, ++c)").toList = true := by
    rw [String.toList_append, String.toList_append, List.append_assoc]
    rfl
  have hline := Code.insert hcode hbefore (by simp [Complete, isWordChar, pair?]) (all_hexText n)
    (word?_hexText n) rfl hbehind (by simp [isWordChar])
  exact hline.append hopen

theorem loop?_testLoop {flags : List String} {name : String} {ts : List Lexeme}
    (hturn : RowFrom (skip flags ++ (s.look ++ s.check name)) ts) (rest : List Lexeme) :
    loop? (.keyword .loop :: (loopLexemes s.lastTested ++ (ts ++ [.mark .closeBrace]) ++ rest)) =
      some (s.testLoop name flags, rest) := by
  have hloop := loop?_eq
    [.name "i", .mark .assign, .number 0, .mark .comma, .name "j", .mark .assign, .number 0]
    [.name "i", .mark .atMost, .number s.lastTested]
    [.mark .increment, .name "i", .mark .comma, .mark .increment, .name "c"]
    (fun _ => actions?_comma rfl (actions?_last rfl (by simp))) (fun _ => rfl)
    (fun _ => actions?_comma rfl (actions?_last rfl (by simp))) hturn.block rest
  simp only [loopLexemes, List.cons_append, List.nil_append, List.append_assoc] at hloop ⊢
  exact hloop

/-! ### The ends of the lines -/

theorem isLine_testFailure (l : Language) : isLine l.testFailure = true := by
  unfold Language.testFailure
  cases l
  all_goals
    simp only [isLine_append]
    repeat rw [isLine_ofList]
    rfl

theorem isLine_testHeading (l : Language) {name : String} (hname : IsFree name) (n : Nat) :
    isLine (l.testHeading name n) = true := by
  unfold Language.testHeading
  cases l
  all_goals
    simp only [isLine_append, isLine_of_all hname.chars, isLine_of_all (all_toString n)]
    repeat rw [isLine_ofList]
    rfl

theorem all_isLine_setupLines {name : String} (hname : IsFree name) (n : Nat) :
    (s.setupLines name n).all isLine = true := by
  have hjumps : (if s.profiler then
      ["\tunsigned match_jumps = 0, unmatched_jumps = 0, ascii_jumps = 0, max_jumps = 0;"]
      else []).all isLine = true := by
    split
    · rw [List.all_cons, isLine_ofList]
      rfl
    · rfl
  rw [setupLines, List.all_append, List.all_append, hjumps]
  simp only [List.all_cons, List.all_nil, isLine_append, isLine_of_all (all_toString n),
    isLine_testHeading _ hname]
  repeat rw [isLine_ofList]
  rfl

theorem all_isLine_turnLines {name : String} (hname : IsFree name) :
    (s.turnLines name).all isLine = true := by
  have hcounter : isLine (s.language.counter .count) = true := by cases s.language <;> rfl
  have htype : isLine s.language.boolType = true := by cases s.language <;> rfl
  have hcounting : s.countingLines.all isLine = true := by
    rw [countingLines]
    simp only [List.all_cons, List.all_nil, isLine_append, hcounter]
    repeat rw [isLine_ofList]
    rfl
  rw [turnLines, List.all_append]
  simp only [List.all_cons, List.all_nil, isLine_append, isLine_of_all hname.chars, htype,
    isLine_testFailure]
  repeat rw [isLine_ofList]
  split
  · rw [hcounting]; rfl
  · rfl

theorem all_isLine_report :
    (s.language.testVerdict ++ if s.profiler then s.language.testStatistics else []).all isLine =
      true := by
  have hverdict : s.language.testVerdict.all isLine = true := by
    cases s.language
    all_goals
      simp only [Language.testVerdict, List.all_cons, List.all_nil, isLine_append]
      repeat rw [isLine_ofList]
      rfl
  have hstatistics : s.language.testStatistics.all isLine = true := by
    cases s.language
    all_goals
      simp only [Language.testStatistics, List.all_cons, List.all_nil, isLine_append]
      repeat rw [isLine_ofList]
      rfl
  rw [List.all_append, hverdict]
  split
  · rw [hstatistics]
    rfl
  · rfl

/-! ### The whole text -/

section Text

variable {name : String} (values : List CodeValue)

theorem toNat_testLimit : s.testLimit.toNat = s.lastTested := by
  rw [testLimit, lastTested]
  split
  · rename_i hlt
    have hle := Nat.le_of_lt (BitVec.lt_def.mp hlt)
    exact (Nat.min_eq_left hle).symm
  · rename_i hlt
    have hle := BitVec.le_def.mp (BitVec.not_lt.mp hlt)
    exact (Nat.min_eq_right hle).symm

theorem testCodes_eq : s.testCodes values = s.listedValues values := by
  refine List.filter_congr fun v _ => ?_
  rw [decide_eq_decide, ← toNat_testLimit]
  exact BitVec.le_def

/-- The list of the matching values and its length stand in the source file of a test. -/
theorem testFile_eq (name : String) (values : List CodeValue) :
    ∃ front back, s.testFile name values =
      front ++ "\tuint32_t codes[] = \x7b" ++ initializer (s.listedValues values)
        ++ "\n\t\x7d;\n\n" ++ "\tuint32_t c = 0;\n" ++ "\tunsigned failed = 0, i, j, n = "
        ++ toString (s.listedValues values).length ++ ";\n" ++ back := by
  have hlines (n : String) :
      unlines ["\tuint32_t c = 0;", "\tunsigned failed = 0, i, j, n = " ++ n ++ ";"] =
        "\tuint32_t c = 0;\n" ++ "\tunsigned failed = 0, i, j, n = " ++ n ++ ";\n" := by
    rw [← String.toList_inj]
    simp [unlines]
  rw [testFile, s.testCodes_eq, setupLines, List.append_assoc, unlines_append, hlines]
  refine ⟨banner ++ s.language.testIncludes ++ s.language.includeHeader ++ "\n"
    ++ unlines ["void test_" ++ name ++ "()", "\x7b"],
    unlines ((if s.profiler then
        ["\tunsigned match_jumps = 0, unmatched_jumps = 0, ascii_jumps = 0, max_jumps = 0;"]
        else []) ++ ["\t" ++ s.language.testHeading name (s.listedValues values).length])
      ++ unlines ["\tfor (i = 0, j = 0; i <= " ++ Hex.text s.testLimit.toNat ++ "; ++i, ++c)",
        "\t\x7b", "#ifdef TEST_ONLY_MATCHES", "\t\tif (j < n) c = codes[j]; else break;", "#endif"]
      ++ unlines (s.turnLines name) ++ "\t\x7d\n" ++ unlines s.language.testVerdict
      ++ unlines (if s.profiler then s.language.testStatistics else []) ++ "\x7d\n", ?_⟩
  simp only [String.append_assoc]

/-- The lines in front of a test. -/
def frontLines : List TextLine :=
  [.other, .code [], .other, .code [], .define "AVG", .code [], .other, .code []]

theorem covers_front (l : Language) :
    ∃ lines, Covers (banner ++ l.testIncludes ++ l.includeHeader ++ "\n").toList lines ∧
      lines.mapM TextLine.ofChars? = some frontLines := by
  refine ⟨(banner ++ l.testIncludes ++ l.includeHeader).toList.splitOn '\n', ?_, ?_⟩
  · rw [String.toList_append]
    exact covers_splitOn _
  · unfold banner Language.includeHeader
    cases l
    all_goals
      unfold Language.testIncludes Language.headerExtension
      simp only [String.toList_append, -String.reduceToList]
      repeat rw [String.toList_ofList]
      decide +kernel

/-- Behind the lines in front of a test, its code is read with `AVG` as a macro. -/
theorem exists_rows {lines : List (List Char)} {ts : List Lexeme} (h : Code lines ts) :
    ∃ rows, (frontLines ++ lines.map TextLine.code).mapM TextLine.lexemes? = some rows ∧
      rows.flatten.map (Lexeme.known
        ((frontLines ++ lines.map TextLine.code).filterMap TextLine.definition?)) = ts := by
  obtain ⟨rows, hrows, hlexemes⟩ := h.lexemes
  have hblank : frontLines.mapM TextLine.lexemes? = some (List.replicate 8 []) := by decide +kernel
  have hdefined :
      (frontLines ++ lines.map TextLine.code).filterMap TextLine.definition? = ["AVG"] := by
    rw [List.filterMap_append, TextLine.filterMap_definition?]
    rfl
  refine ⟨List.replicate 8 [] ++ rows, ?_, ?_⟩
  · rw [List.mapM_append, TextLine.mapM_lexemes?, hrows, hblank]
    rfl
  · rw [hdefined, ← hlexemes, List.flatten_append]
    rfl

/-- A text with some lines under a condition is read as its code. -/
theorem ofText?_eq {flags : List String} {text : List Char}
    {front before inner after : List (List Char)} {ts us vs : List Lexeme}
    (htext : text.splitOn '\n' = front ++ (before
      ++ "#ifdef TEST_ONLY_MATCHES".toList :: (inner ++ "#endif".toList :: after)))
    (hfront : front.mapM TextLine.ofChars? = some frontLines) (hbefore : Code before ts)
    (hinner : Code inner us) (hafter : Code after vs) :
    Routine.ofText? flags text =
      routine? (ts ++ ((if "TEST_ONLY_MATCHES" ∈ flags then us else []) ++ vs)) := by
  have hkept : Code (if "TEST_ONLY_MATCHES" ∈ flags then inner else [])
      (if "TEST_ONLY_MATCHES" ∈ flags then us else []) := by
    split
    · exact hinner
    · exact .of_lex rfl rfl
  have hguard : TextLine.ofChars? "#ifdef TEST_ONLY_MATCHES".toList =
      some (.guard "TEST_ONLY_MATCHES") := by decide +kernel
  have hunguard : TextLine.ofChars? "#endif".toList = some .unguard := by decide +kernel
  have hlines : (text.splitOn '\n').mapM TextLine.ofChars? =
      some ((frontLines ++ before.map .code) ++
        .guard "TEST_ONLY_MATCHES" :: (inner.map .code ++ .unguard :: after.map .code)) := by
    simp [htext, List.mapM_append, hfront, TextLine.mapM_ofChars? hbefore.code,
      TextLine.mapM_ofChars? hinner.code, TextLine.mapM_ofChars? hafter.code, hguard, hunguard,
      -String.reduceToList]
  have hfirst : ∀ l ∈ frontLines ++ before.map .code, l.isPlain = true :=
    List.forall_mem_append.mpr ⟨by decide, TextLine.isPlain_code before⟩
  have hresolved := TextLine.resolve_guard flags "TEST_ONLY_MATCHES" hfirst
    (TextLine.isPlain_code inner) (TextLine.isPlain_code after)
  have hleft : (frontLines ++ before.map .code) ++ ((if "TEST_ONLY_MATCHES" ∈ flags then
      inner.map TextLine.code else []) ++ after.map .code) = frontLines ++
      (before ++ ((if "TEST_ONLY_MATCHES" ∈ flags then inner else []) ++ after)).map .code := by
    split <;> simp
  rw [hleft] at hresolved
  obtain ⟨rows, hrows, hlexemes⟩ := exists_rows (hbefore.append (hkept.append hafter))
  rw [Routine.ofText?, hlines]
  simp only [Option.bind_eq_bind, Option.bind_some, hresolved, hrows, hlexemes]

/-- The lines of the source file of a test. -/
theorem splitOn_testFile (hname : IsFree name) :
    ∃ front, front.mapM TextLine.ofChars? = some frontLines ∧
    (s.testFile name values).toList.splitOn '\n' = front
      ++ ((["void test_" ++ name ++ "()", "\x7b"].map String.toList
            ++ ((("\tuint32_t codes[] = \x7b" ++ initializer (s.listedValues values)).toList.splitOn
                '\n' ++ ["\t\x7d;".toList, "".toList]
              ++ (s.setupLines name (s.listedValues values).length).map String.toList)
            ++ ["\tfor (i = 0, j = 0; i <= " ++ Hex.text s.lastTested ++ "; ++i, ++c)",
              "\t\x7b"].map String.toList))
        ++ "#ifdef TEST_ONLY_MATCHES".toList
          :: (["\t\tif (j < n) c = codes[j]; else break;".toList]
            ++ "#endif".toList
              :: ((s.turnLines name).map String.toList ++ ("\t\x7d".toList
                :: ((s.language.testVerdict ++ if s.profiler then s.language.testStatistics
                  else []).map String.toList ++ ["\x7d".toList, "".toList]))))) := by
  obtain ⟨front, hfront, hlines⟩ := covers_front s.language
  refine ⟨front, hlines, ?_⟩
  have hhead : ["void test_" ++ name ++ "()", "\x7b"].all isLine = true := by
    simp only [List.all_cons, List.all_nil, isLine_append, isLine_of_all hname.chars]
    rfl
  have hloop : ["\tfor (i = 0, j = 0; i <= " ++ Hex.text s.lastTested ++ "; ++i, ++c)", "\t\x7b",
      "#ifdef TEST_ONLY_MATCHES", "\t\tif (j < n) c = codes[j]; else break;",
      "#endif"].all isLine = true := by
    simp only [List.all_cons, List.all_nil, isLine_append, isLine_of_all (all_hexText _)]
    rfl
  have hlist := covers_splitOn
    ("\tuint32_t codes[] = \x7b" ++ initializer (s.listedValues values)).toList
  have hend : Covers (unlines ["\t\x7d;", ""]).toList ["\t\x7d;".toList, "".toList] :=
    covers_unlines _ rfl
  have hcovers := ((((((hfront.append (covers_unlines _ hhead)).append hlist).append hend).append
    (covers_unlines _ (s.all_isLine_setupLines hname (s.listedValues values).length))).append
    (covers_unlines _ hloop)).append (covers_unlines _ (s.all_isLine_turnLines hname))).append
    ((covers_unlines ["\t\x7d"] rfl).append
    ((covers_unlines _ s.all_isLine_report).append (covers_unlines ["\x7d"] rfl)))
  have htext := hcovers []
  have hbrackets : "\n\t\x7d;\n\n".toList = '\n' :: (unlines ["\t\x7d;", ""]).toList ∧
      "\t\x7d\n".toList = (unlines ["\t\x7d"]).toList ∧
      "\x7d\n".toList = (unlines ["\x7d"]).toList := by
    decide +kernel
  rw [List.append_nil] at htext
  refine (congrArg (List.splitOn '\n') ?_).trans (htext.trans ?_)
  · simp only [testFile, toNat_testLimit, testCodes_eq, String.toList_append, unlines_append,
      hbrackets, List.append_assoc, List.cons_append, List.nil_append, -String.reduceToList]
  · simp only [List.map_cons, List.map_nil, List.append_assoc, List.cons_append, List.nil_append,
      List.splitOn_nil, -String.reduceToList]
    rfl

/-- The source file of a test is read as its routine, if the classifier's name is free. -/
theorem ofText?_testFile (hname : IsFree name) (flags : List String) :
    Routine.ofText? flags (s.testFile name values).toList =
      some (s.testRoutine name values flags) := by
  obtain ⟨front, hfront, htext⟩ := s.splitOn_testFile values hname
  obtain ⟨setup, hsetup, hbefore⟩ := s.holds_setup hname (s.listedValues values)
  obtain ⟨turn, hturn, hloop⟩ := s.holds_turn hname
  obtain ⟨report, hreport, hafter⟩ := s.holds_report
  obtain ⟨skipped, hskipped, hskip⟩ := holds_skip
  have hclose : Code ["\t\x7d".toList] [.mark .closeBrace] := .line rfl (by decide +kernel)
  have hend : Code ["\x7d".toList, "".toList] [.mark .closeBrace] :=
    .of_lex (by decide +kernel) (by decide +kernel)
  rw [ofText?_eq htext hfront ((code_head hname).append (hsetup.append (code_loop s.lastTested)))
    hskipped (hturn.append (hclose.append (hreport.append hend)))]
  have hbody : RowFrom (skip flags ++ (s.look ++ s.check name))
      ((if "TEST_ONLY_MATCHES" ∈ flags then skipped else []) ++ turn) := by
    rw [skip]
    split
    · exact hskip.append hloop
    · exact hloop
  have hroutine := routine?_eq ("test_" ++ name) hbefore (s.loop?_testLoop hbody) hafter
  simp only [List.cons_append, List.nil_append, List.append_assoc] at hroutine ⊢
  exact hroutine

end Text

end Style

/-! ### Names of generated classifiers -/

/-- The names of generated classifiers can stand in their tests, if the categories have ordinary
names. -/
theorem isFree_classifierName {categories : String}
    (h : ∀ c ∈ categories.toList, isWordChar c = true ∨ Blank.isSpace c = true ∨ c = ',') :
    IsFree (classifierName categories) := by
  have hbegin (words : List String)
      (hwords : words.all (fun w => !"uniclass_".toList.isPrefixOf w.toList) = true) :
      classifierName categories ∉ words := by
    intro hmem
    have hno := List.all_eq_true.mp hwords _ hmem
    rw [Bool.not_eq_true', ← Bool.not_eq_true, List.isPrefixOf_iff_prefix] at hno
    refine hno ?_
    rw [classifierName, String.toList_append]
    exact List.prefix_append ..
  refine ⟨?_, ⟨'u', by simp [classifierName], by decide⟩, hbegin _ ?_⟩
  · have hfirst : "uniclass_".toList.all isWordChar = true := by decide
    rw [classifierName, String.toList_append, List.all_append, hfirst, Bool.true_and,
      String.toList_ofList, List.all_map, List.all_eq_true]
    intro c hc
    obtain ⟨hc, hspace⟩ := List.mem_filter.mp hc
    by_cases hcomma : c = ','
    · simp [hcomma, isWordChar]
    · have hword := h c hc
      simp_all
  · decide +kernel

end BitClassifier
