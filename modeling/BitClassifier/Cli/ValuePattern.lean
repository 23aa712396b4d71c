import BitClassifier.Pattern.Reader

/-!
# Patterns for the values of fields

In a log filter the value of a field is described by a number, by `true` or `false`, or by a regular
expression. Only whether a text describes a value is of interest here: nothing in this program has a
value that a log filter asks for.
-/

namespace BitClassifier

/-- Why a text does not describe a value. -/
inductive ValueFault where
  /-- It is no pattern. -/
  | malformed
  /-- It asks where a word begins or ends in Unicode, which cannot be decided character by
  character. -/
  | unicodeWord
deriving DecidableEq, Repr

/-- The text of a fault. -/
def ValueFault.message : ValueFault → String
  | malformed => "error building NFA"
  | unicodeWord =>
    "unsupported regex feature for DFAs: cannot build DFAs for regexes with Unicode word boundaries; "
      ++ "switch to ASCII word boundaries, or heuristically enable Unicode word boundaries or use a "
      ++ "different regex engine"

namespace ValuePattern

/-- Whether a text is empty or the exponent of a number. -/
def isExponent : List Char → Bool
  | [] => true
  | e :: '+' :: ds => (e == 'e' || e == 'E') && !ds.isEmpty && ds.all Char.isDigit
  | e :: '-' :: ds => (e == 'e' || e == 'E') && !ds.isEmpty && ds.all Char.isDigit
  | e :: ds => (e == 'e' || e == 'E') && !ds.isEmpty && ds.all Char.isDigit

/-- Whether a text is a number without a sign. -/
def isUnsigned (cs : List Char) : Bool :=
  let whole := cs.takeWhile Char.isDigit
  let named := String.ofList (cs.map Char.toLower)
  named == "inf" || named == "infinity" || named == "nan"
    || (match cs.dropWhile Char.isDigit with
      | '.' :: rest =>
        !(whole.isEmpty && (rest.takeWhile Char.isDigit).isEmpty)
          && isExponent (rest.dropWhile Char.isDigit)
      | rest => !whole.isEmpty && isExponent rest)

/-- What keeps a text from being a pattern for values. -/
def patternFault? (cs : List Char) : Option ValueFault :=
  match Pattern.ofChars? cs with
  | none => some .malformed
  | some p => if p.asksForWords then some .unicodeWord else none

/-- What keeps a text from describing a value. A number without a plus sign is a pattern as well, and
a text that begins with a plus sign is none. -/
def fault? : List Char → Option ValueFault
  | '+' :: cs => if isUnsigned cs then none else some .malformed
  | cs => patternFault? cs

end ValuePattern

end BitClassifier
