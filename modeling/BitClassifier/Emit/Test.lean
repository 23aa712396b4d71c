import BitClassifier.Emit.Language
import BitClassifier.Emit.Expression
import BitClassifier.Text.Hex

/-!
# Emitted tests

The test of a classifier is a function that runs through the domain, up to the largest Unicode
scalar value, beside the ascending list of the values that match, and compares the classifier's
answer for every code with the place of the code in the list.
-/

namespace BitClassifier

/-- The largest value that an emitted test looks at. -/
def maxTestedCode : CodeValue := 0x10FFFF#32

namespace Language

/-- What an emitted test includes and defines. -/
def testIncludes : Language → String
  | c => "#include <stdio.h>\n\n#define AVG(s,n) (n==0? 0 : ((float)(s)/(n)))\n\n"
  | cpp => "#include <iostream>\n\n#define AVG(s,n) (n==0? 0 : ((s)*10/(n)/10.0))\n\n"

/-- The heading that an emitted test prints. -/
def testHeading (l : Language) (name : String) (matching : Nat) : String :=
  let heading := "Testing " ++ name ++ " (matching " ++ toString matching ++ "):"
  match l with
  | c => "printf(\"\\n" ++ heading ++ "\\n\");"
  | cpp =>
    "std::cout << std::hex << std::noshowbase << std::endl << \"" ++ heading ++ "\" << std::endl;"

/-- The output for a wrong answer. -/
def testFailure : Language → String
  | c => "printf(\"Failed test: U+%04x should %smatch\\n\", c, b?\"\":\"not \");"
  | cpp =>
    "std::cout << \"Failed test: U+\" << c << \" should \" << (b?\"\":\"not \") << \"match\" "
      ++ "<< std::endl;"

/-- The output that tells the number of wrong answers. -/
def testVerdict : Language → List String
  | c => [
      "\tif (failed == 0) printf(\"All %u tests passed!\\n\", i);",
      "\telse printf(\"Failed %u out of %u tests!\\n\", failed, i);"]
  | cpp => [
      "\tif (failed == 0) std::cout << \"All \" << std::dec << i << \" tests passed!\" << std::endl;",
      "\telse std::cout << \"Failed \" << std::dec << failed << \" out of \" << i "
        ++ "<< \" tests!\" << std::endl;"]

/-- The output that tells the numbers of instructions. -/
def testStatistics : Language → List String
  | c => [
      "\tprintf(\"Jumps per codevalue: total=%.1f, matched=%.1f, unmatched=%.1f, ascii=%.1f, "
        ++ "max=%u\\n\", AVG(match_jumps+unmatched_jumps,i), AVG(match_jumps,n), "
        ++ "AVG(unmatched_jumps,i-n), AVG(ascii_jumps,128), max_jumps);"]
  | cpp => [
      "\tstd::cout << \"Jumps per codevalue: total=\" << AVG(match_jumps+unmatched_jumps,i)",
      "\t\t<< \", matched=\" << AVG(match_jumps,n) << \", unmatched=\" << AVG(unmatched_jumps,i-n)",
      "\t\t<< \", ascii=\" << AVG(ascii_jumps,128) << \", max=\" << max_jumps << std::endl;"]

end Language

namespace Style

/-- The last value that the test looks at. -/
def testLimit (s : Style) : CodeValue :=
  if s.width.maxValue < maxTestedCode then s.width.maxValue else maxTestedCode

/-- The matching values that the test lists. -/
def testCodes (s : Style) (values : List CodeValue) : List CodeValue :=
  values.filter fun v => decide (v ≤ s.testLimit)

/-- The text of the value with an index in an initializer. Values are separated by commas, in rows
of eight. -/
def initializerPiece (value : CodeValue) (k : Nat) : String :=
  (if k = 0 then "" else ",") ++ (if k % 8 = 0 then "\n\t\t" else "") ++ Hex.text value.toNat

/-- Values as an initializer, or a zero if there are none. -/
def initializer (codes : List CodeValue) : String :=
  if codes.isEmpty then "\n\t\t0"
  else String.join (codes.zipIdx.map fun (value, k) => initializerPiece value k)

/-- The lines of a test between the list of the matching values and the loop. -/
def setupLines (s : Style) (name : String) (n : Nat) : List String :=
  ["\tuint32_t c = 0;", "\tunsigned failed = 0, i, j, n = " ++ toString n ++ ";"]
    ++ (if s.profiler then
        ["\tunsigned match_jumps = 0, unmatched_jumps = 0, ascii_jumps = 0, max_jumps = 0;"]
      else [])
    ++ ["\t" ++ s.language.testHeading name n]

/-- The lines that count instructions in a turn of a test's loop. -/
def countingLines (s : Style) : List String :=
  let jumps := s.language.counter .count
  ["\t\tif (b) match_jumps += " ++ jumps ++ "(); else unmatched_jumps += " ++ jumps ++ "();",
    "\t\tif (c < 128) ascii_jumps += " ++ jumps ++ "();",
    "\t\tif (" ++ jumps ++ "() > max_jumps) max_jumps = " ++ jumps ++ "();"]

/-- The lines of a turn of a test's loop that do not depend on a flag. -/
def turnLines (s : Style) (name : String) : List String :=
  ["\t\t" ++ s.language.boolType ++ " b = j < n && c == codes[j];", "\t\tif (b) ++j;",
      "\t\tif (" ++ name ++ "(c) != b)", "\t\t\x7b", "\t\t\t" ++ s.language.testFailure,
      "\t\t\t++failed;", "\t\t\x7d"]
    ++ if s.profiler then s.countingLines else []

/-- The source file of a classifier's test. The counters `i` and `c` of its loop run from zero on
while `j` runs through `codes`. -/
def testFile (s : Style) (name : String) (values : List CodeValue) : String :=
  let l := s.language
  let codes := s.testCodes values
  banner ++ l.testIncludes ++ l.includeHeader ++ "\n"
    ++ unlines ["void test_" ++ name ++ "()", "\x7b"]
    ++ "\tuint32_t codes[] = \x7b" ++ initializer codes ++ "\n\t\x7d;\n\n"
    ++ unlines (s.setupLines name codes.length)
    ++ unlines ["\tfor (i = 0, j = 0; i <= " ++ Hex.text s.testLimit.toNat ++ "; ++i, ++c)",
      "\t\x7b", "#ifdef TEST_ONLY_MATCHES", "\t\tif (j < n) c = codes[j]; else break;", "#endif"]
    ++ unlines (s.turnLines name) ++ "\t\x7d\n" ++ unlines l.testVerdict
    ++ unlines (if s.profiler then l.testStatistics else []) ++ "\x7d\n"

end Style

end BitClassifier
