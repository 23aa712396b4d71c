import BitClassifier.Event
import BitClassifier.Text.Quoted

/-!
# Lines of the log

An event is shown on a line of its own: its level, its target, its message and its fields. In a
message the characters with which a terminal can be controlled are escaped; a field that is not
quoted is shown as it is.
-/

namespace BitClassifier

/-- A character of a message. -/
def messageChar (c : Char) : String :=
  if c = '\x07' || c = '\x08' || c = '\x0c' || c = '\x1b' || c = '\x7f' then
    (if c.toNat < 16 then "\\x0" else "\\x") ++ String.ofList (Hex.digits c.toNat)
  else if 0x80 ≤ c.toNat && c.toNat ≤ 0x9F then
    "\\u\x7b" ++ String.ofList (Hex.digits c.toNat) ++ "\x7d"
  else String.singleton c

/-- A message without characters that control a terminal. -/
def messageText (message : String) : String :=
  String.join (message.toList.map messageChar)

/-- The value of a field in a line of the log. -/
def Event.Field.text : Event.Field → String
  | number n => toString n
  | plain text => text
  | quoted text => BitClassifier.quoted text

/-- A line of the log. -/
def Event.line (e : Event) : String :=
  e.level.name ++ " " ++ e.target ++ ": " ++ messageText e.message
    ++ String.join (e.fields.map fun (name, field) => " " ++ name ++ "=" ++ field.text)

end BitClassifier
