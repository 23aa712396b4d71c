import BitClassifier.Emit.Language
import BitClassifier.Predicate.Basic

/-!
# Emitted expressions

A predicate is emitted as a row of tokens with white space between them (`Style.expression`). A
profiled expression wraps its operands into shorthands that count the instructions (`Wrapper`); the
shorthands are defined in front of the function.
-/

namespace BitClassifier

/-- A token of an emitted expression. -/
inductive Token where
  /-- A name or a named constant. -/
  | word (name : String)
  | hex (value : CodeValue)
  | opening
  | closing
  | not
  | bitAnd
  | and
  | or
  | equal
  | notEqual
  | question
  | colon
deriving DecidableEq, Repr

/-- A token as source text. -/
def Token.text : Token → String
  | word name => name
  | hex value => Hex.text value.toNat
  | opening => "("
  | closing => ")"
  | not => "!"
  | bitAnd => "&"
  | and => "&&"
  | or => "||"
  | equal => "=="
  | notEqual => "!="
  | question => "?"
  | colon => ":"

/-- A piece of emitted text. -/
inductive Piece where
  | token (t : Token)
  /-- White space between tokens. -/
  | layout (space : String)
deriving DecidableEq, Repr

namespace Piece

/-- A piece as source text. -/
def text : Piece → String
  | token t => t.text
  | layout space => space

/-- The token that a piece is, if it is one. -/
def token? : Piece → Option Token
  | token t => some t
  | layout _ => none

/-- The text of a row of pieces. -/
def join (pieces : List Piece) : String :=
  String.join (pieces.map text)

/-- The tokens in a row of pieces. -/
def tokens (pieces : List Piece) : List Token :=
  pieces.filterMap token?

/-- A line break and an indentation. -/
def newline (indent : Nat) : Piece :=
  layout ("\n" ++ tabs indent)

/-- A call of a function without arguments. -/
def call (function : String) : List Piece :=
  [token (.word function), token .opening, token .closing]

end Piece

open Piece (token layout newline call)

/-- The shorthands of a profiled expression. -/
inductive Wrapper where
  /-- The left operand of a conjunction, and the condition of a jump. -/
  | ja
  /-- The left operand of a disjunction. -/
  | jo
  /-- A right operand. -/
  | jr
deriving DecidableEq, Repr

namespace Wrapper

/-- The name of a shorthand. -/
def name : Wrapper → String
  | ja => "JA"
  | jo => "JO"
  | jr => "JR"

/-- What a shorthand stands for, with the operand in its place. -/
def expansion (l : Language) (operand : List Piece) : Wrapper → List Piece
  | ja =>
    call (l.counter .moreTrue) ++ [layout " ", token .and, layout " ", token .opening] ++ operand
      ++ [token .closing, layout " ", token .and, layout " "] ++ call (l.counter .lessTrue)
  | jo =>
    call (l.counter .moreFalse) ++ [layout " ", token .or, layout " ", token .opening] ++ operand
      ++ [token .closing, layout " ", token .or, layout " "] ++ call (l.counter .lessFalse)
  | jr =>
    [token .opening] ++ call (l.counter .moreTrue)
      ++ [layout " ", token .and, layout " ", token .opening] ++ operand
      ++ [token .closing, token .closing]

/-- The line that defines a shorthand. -/
def definition (l : Language) (w : Wrapper) : String :=
  "#define " ++ w.name ++ "(x) " ++ Piece.join (w.expansion l [token (.word "x")]) ++ "\n"

end Wrapper

/-- How an expression is emitted. -/
structure Style where
  language : Language
  /-- Whether instructions are counted. -/
  profiler : Bool
  width : Width
deriving DecidableEq, Repr

namespace Style

/-- An operand, wrapped if instructions are counted. -/
def wrap (s : Style) (w : Wrapper) (operand : List Piece) : List Piece :=
  if s.profiler then
    [token (.word w.name), token .opening] ++ operand ++ [token .closing]
  else operand

/-- The input under a mask, or all of it if the mask is the whole domain. -/
def masked (s : Style) (mask : CodeValue) : List Piece :=
  if mask = s.width.maxValue then [token (.word "c")]
  else [token (.word "c"), token .bitAnd, token (.hex mask)]

/-- A comparison under a mask within the domain. The value zero is compared by the truth value of
the masked input. -/
def test (s : Style) (mask value : CodeValue) (equals : Bool) : List Piece :=
  if mask = 0#32 then [token (.word (s.language.constant equals))]
  else if value = 0#32 then
    (if equals then [token .not] else []) ++ [token .opening] ++ s.masked mask ++ [token .closing]
  else
    let left :=
      if mask = s.width.maxValue then s.masked mask
      else [token .opening] ++ s.masked mask ++ [token .closing]
    [token .opening] ++ left ++ [token (if equals then .equal else .notEqual), token (.hex value)]
      ++ [token .closing]

/-- A predicate whose lines are indented by `indent` tabulators. -/
def expression (s : Style) (indent : Nat) : Predicate → List Piece
  | .constant answer => [token (.word (s.language.constant answer))]
  | .bitTest mask value equals => s.test (mask &&& s.width.maxValue) (value &&& mask) equals
  | .and left right =>
    s.wrap .ja (s.expression indent left) ++ [token .and, newline indent]
      ++ s.wrap .jr (s.expression indent right)
  | .or left right =>
    [token .opening, layout "\t"] ++ s.wrap .jo (s.expression (indent + 1) left)
      ++ [newline indent, token .or, layout "\t"]
      ++ s.wrap .jr (s.expression (indent + 1) right) ++ [newline indent, token .closing]
  | .cond bit on off =>
    [token .opening]
      ++ s.wrap .ja [token .not, token .opening, token (.word "c"), token .bitAnd, token (.hex bit),
        token .closing]
      ++ [newline indent, token .question, layout "\t"] ++ s.expression (indent + 1) off
      ++ [newline indent, token .colon, layout "\t"] ++ s.expression (indent + 1) on
      ++ [newline indent, token .closing]

/-- The source file of a classifier. -/
def classifier (s : Style) (name : String) (p : Predicate) : String :=
  let l := s.language
  banner ++ l.includeHeader ++ "\n"
    ++ (if s.profiler then
        Wrapper.ja.definition l ++ Wrapper.jo.definition l ++ Wrapper.jr.definition l ++ "\n"
      else "")
    ++ unlines [l.boolType ++ " " ++ name ++ "(uint32_t c)", "\x7b"]
    ++ (if s.profiler then "\t" ++ l.counter .reset ++ "();\n" else "")
    ++ "\treturn\n\t\t" ++ Piece.join (s.expression 2 p) ++ "\n\t;\n\x7d\n"

end Style

end BitClassifier
