import BitClassifier.Emit.Language

/-!
# Shared source files

The files that are emitted once for all classifiers: the header that declares them, the header that
runs their tests, the counting functions and a program that classifies what it is given.
-/

namespace BitClassifier

namespace Language

/-- What the combined header includes. -/
def headerIncludes : Language → String
  | c => "#include <stdint.h>\n#include <stdlib.h>\n"
  | cpp => "#include <cstdint>\n"

/-- The declarations of the counting functions. -/
def profilerDeclarations : Language → String
  | c =>
    unlines ["// Profiler methods:", "void profiler_reset();", "int inct();", "int incf();",
      "int dect();", "int decf();", "int jumps();"]
  | cpp =>
    unlines ["struct Profiler", "\x7b", "\tstatic void reset();", "\tstatic bool inct();",
      "\tstatic bool incf();", "\tstatic bool dect();", "\tstatic bool decf();",
      "\tstatic int jumps();", "\x7d;"]

/-- The source file with the counting functions. -/
def profilerSource (l : Language) : String :=
  let function (type : String) (counter : Counter) (body : String) : String :=
    type ++ " " ++ l.counter counter ++ "() \x7b " ++ body ++ " \x7d"
  banner ++ l.includeHeader ++ "\nstatic int j;\n\n"
    ++ unlines [
      function "void" .reset "j = 0;",
      function l.boolType .moreTrue ("++j; return " ++ l.constant true ++ ";"),
      function l.boolType .moreFalse ("++j; return " ++ l.constant false ++ ";"),
      function l.boolType .lessTrue ("--j; return " ++ l.constant true ++ ";"),
      function l.boolType .lessFalse ("--j; return " ++ l.constant false ++ ";"),
      function "int" .count "return j;"]

/-- The header that declares the classifiers. -/
def header (l : Language) (profiler : Bool) (classifiers : List String) : String :=
  let guard := "UNICLASS_" ++ l.guardSuffix
  banner ++ unlines ["#ifndef " ++ guard, "#define " ++ guard, ""] ++ l.headerIncludes ++ "\n"
    ++ unlines (classifiers.map fun name => l.boolType ++ " " ++ name ++ "(uint32_t c);") ++ "\n"
    ++ (if profiler then l.profilerDeclarations ++ "\n" else "") ++ "#endif\n"

/-- The header that runs the tests of the classifiers. -/
def testHeader (l : Language) (classifiers : List String) : String :=
  let guard := "TEST_UNICLASS_" ++ l.guardSuffix
  banner ++ unlines ["#ifndef " ++ guard, "#define " ++ guard, ""]
    ++ unlines (classifiers.map fun name => "void test_" ++ name ++ "();")
    ++ "\nstatic void test()\n\x7b\n"
    ++ unlines (classifiers.map fun name => "\ttest_" ++ name ++ "();") ++ "\x7d\n\n#endif\n"

/-- What the main program includes. -/
def mainIncludes (l : Language) (tests : Bool) : String :=
  (match l with
    | c => unlines ["#include <stdio.h>", "#include <string.h>"]
    | cpp => unlines ["#include <cstdlib>", "#include <cstring>", "#include <iostream>"])
    ++ l.includeHeader
    ++ if tests then "#include \"test_uniclass." ++ l.headerExtension ++ "\"\n" else ""

/-- The part of the main program that reads a character from its arguments. -/
def mainLoop : Language → List String
  | c => [
      "\tif (argc > 1) for (int i = 1; i < argc; ++i)",
      "\t\x7b",
      "\t\twchar_t c;",
      "\t\tif (mbtowc(&c, argv[i], strlen(argv[i])) > 0)",
      "\t\t\x7b",
      "\t\t\tprintf(\"Checking c='%s' (%#x)\\n\", argv[i], (unsigned)c);"]
  | cpp => [
      "\tstd::cout << std::boolalpha << std::hex << std::showbase;",
      "\tif (argc > 1) for (int i = 1; i < argc; ++i)",
      "\t\x7b",
      "\t\twchar_t c;",
      "\t\tif (std::mbtowc(&c, argv[i], std::strlen(argv[i])) > 0)",
      "\t\t\x7b",
      "\t\t\tstd::cout << \"Checking c='\" << argv[i] << \"' (\" << (uint32_t)c << ')' << std::endl;"]

/-- The line of the main program that shows the answer of a classifier. -/
def mainAnswer (name : String) : Language → String
  | c => "\t\t\tprintf(\"" ++ name ++ "(c)==%s\\n\", " ++ name ++ "(c) ? \"true\" : \"false\");"
  | cpp => "\t\t\tstd::cout << \"" ++ name ++ "(c)==\" << " ++ name ++ "(c) << std::endl;"

/-- The line of the main program that ends the answers for a character. -/
def mainGap : Language → String
  | c => "\t\tprintf(\"\\n\");"
  | cpp => "\t\tstd::cout << std::endl;"

/-- What the main program does without arguments. -/
def mainFallback (tests : Bool) : Language → List String
  | c =>
    if tests then [
      "\telse",
      "\t\x7b",
      "\t\ttest();",
      "\t\tprintf(\"\\nYou can also enter some characters to check (separated by spaces).\\n\");",
      "\t\x7d"]
    else ["\telse printf(\"Please enter some characters to check (separated by spaces).\\n\");"]
  | cpp =>
    if tests then [
      "\telse",
      "\t\x7b",
      "\t\ttest();",
      "\t\tstd::cout << std::endl << \"You can also enter some characters to check "
        ++ "(separated by spaces).\" << std::endl;",
      "\t\x7d"]
    else [
      "\telse std::cout << \"Please enter some characters to check (separated by spaces).\" "
        ++ "<< std::endl;"]

/-- The source file of the main program. -/
def mainSource (l : Language) (tests : Bool) (classifiers : List String) : String :=
  banner ++ l.mainIncludes tests
    ++ unlines (["", "int main(int argc, char * const argv[])", "\x7b"] ++ l.mainLoop
      ++ classifiers.map (fun name => l.mainAnswer name) ++ ["\t\t\x7d", l.mainGap, "\t\x7d"]
      ++ l.mainFallback tests ++ ["\treturn 0;", "\x7d"])

end Language

end BitClassifier
