import BitClassifier.Text.Hex
import BitClassifier.Text.Unprintable

/-!
# Quoted text

Text in double quotes, on one line, with escapes for the characters that would not be seen.
-/

namespace BitClassifier

/-- A character inside of quotes. -/
def quotedChar (c : Char) : String :=
  if c = '"' then "\\\""
  else if c = '\\' then "\\\\"
  else if c = '\n' then "\\n"
  else if c = '\r' then "\\r"
  else if c = '\t' then "\\t"
  else if c = '\x00' then "\\0"
  else if isUnprintable c then "\\u\x7b" ++ String.ofList (Hex.digits c.toNat) ++ "\x7d"
  else String.singleton c

/-- A text in quotes. -/
def quoted (text : String) : String :=
  "\"" ++ String.join (text.toList.map quotedChar) ++ "\""

end BitClassifier
