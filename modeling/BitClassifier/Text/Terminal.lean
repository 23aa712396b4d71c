/-!
# Control sequences of terminals

A control sequence begins with an escape character and tells a terminal what to do instead of what to
show. `plain` is what is left of a text without its control sequences and control characters.

White space in a sequence that holds no text is kept and interrupts it: what follows is shown up to the
next control character, and then the sequence goes on unless a character beyond ASCII has been shown. A
device control holds text, which begins after a letter. Parameters and then marks may stand in front of
the letter; where they are out of order, the text begins.
-/

namespace BitClassifier.Terminal

/-- What has been begun when a character is read. -/
inductive Begun where
  | nothing
  /-- An escape character has been read. -/
  | escape
  /-- A sequence that ends with a digit, a letter or a mark from `0` on. -/
  | designation
  /-- A sequence that ends with a letter or a mark from `@` on. -/
  | control
  /-- A device control, up to the letter after which its text begins. -/
  | device
  /-- A device control after the first of its parameters. -/
  | deviceParameters
  /-- A device control after the first mark behind its parameters. -/
  | deviceMarks
  /-- Text that is not shown. -/
  | string
  /-- Text for the operating system, which the bell character ends. -/
  | command
deriving DecidableEq, Repr

/-- The white space that is kept: tab, line feed, form feed, carriage return. -/
def isKeptSpace (c : Char) : Bool :=
  c == '\t' || c == '\n' || c == '\x0c' || c == '\r'

/-- Whether a character shows when nothing has been begun. -/
def isShown (c : Char) : Bool :=
  isKeptSpace c || (32 ≤ c.toNat && c.toNat != 127)

/-- Whether a character is a mark of ASCII from the space on and below the digits. -/
def isMark (c : Char) : Bool :=
  ' ' ≤ c && c < '0'

/-- Whether one of the bytes of a character is the one that ends a text that is not shown. -/
def hasStringEnd (c : Char) : Bool :=
  (String.singleton c).toUTF8.toList.contains 0x9C

namespace Begun

/-- What has been begun after an escape character and another one. -/
def afterEscape (c : Char) : Begun :=
  if c = '[' then control
  else if c = ']' then command
  else if c = 'P' then device
  else if c = 'X' || c = '^' || c = '_' then string
  else if c < ' ' || '~' < c then escape
  else if c < '0' then designation
  else nothing

/-- What has been begun after one more character. An escape character begins anew, and the
characters cancel and substitute end everything. -/
def next (b : Begun) (c : Char) : Begun :=
  if c = '\x1b' then escape
  else if c = '\x18' || c = '\x1a' then nothing
  else
    match b with
    | nothing => nothing
    | escape => afterEscape c
    | designation => if '0' ≤ c && c ≤ '~' then nothing else designation
    | control => if '@' ≤ c && c ≤ '~' then nothing else control
    | device =>
      if isMark c then deviceMarks
      else if '0' ≤ c && c < '@' then deviceParameters
      else if '@' ≤ c && c ≤ '~' then string else device
    | deviceParameters =>
      if isMark c then deviceMarks
      else if '<' ≤ c && c ≤ '~' then string else deviceParameters
    | deviceMarks => if '0' ≤ c && c ≤ '~' then string else deviceMarks
    | string => if hasStringEnd c then nothing else string
    | command => if c = '\x07' then nothing else command

/-- Whether a character shows. -/
def shows (b : Begun) (c : Char) : Bool :=
  match b with
  | nothing => isShown c
  | escape | designation | control => isKeptSpace c
  | device | deviceParameters | deviceMarks | string | command => false

end Begun

/-- The state of reading a text. -/
structure Reader where
  begun : Begun := .nothing
  /-- Whether white space has interrupted what has been begun. -/
  interrupted : Bool := false
deriving DecidableEq, Repr

namespace Reader

/-- Whether a character shows. -/
def shows (r : Reader) (c : Char) : Bool :=
  if r.interrupted then isShown c else r.begun.shows c

/-- The state after one more character. -/
def next (r : Reader) (c : Char) : Reader :=
  if !r.shows c then ⟨r.begun.next c, false⟩
  else if 128 ≤ c.toNat then {}
  else { r with interrupted := true }

/-- The characters of a text that show. -/
def plainChars (r : Reader) : List Char → List Char
  | [] => []
  | c :: cs => if r.shows c then c :: plainChars (r.next c) cs else plainChars (r.next c) cs

end Reader

/-- A text without control sequences and control characters. -/
def plain (text : String) : String :=
  String.ofList (({} : Reader).plainChars text.toList)

end BitClassifier.Terminal
