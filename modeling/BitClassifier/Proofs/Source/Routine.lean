import BitClassifier.Proofs.Source.Statement

/-!
# Routines

The source text of a file with one function, which has one loop, is read under the flags that are
defined (`Routine.ofText?`). Its lines are directives or code. The conditional lines are resolved
first, and the code that is left is cut into lexemes and read as one function. Files that are
included are taken to define no macro that the text uses, and a macro may only be used in output,
where it changes nothing.
-/

namespace BitClassifier.Source

/-! ### Functions -/

/-- A loop with its header. -/
structure Loop where
  first : Statement
  condition : Term
  step : Statement
  body : Statement
deriving DecidableEq

/-- A function without parameters and without a result, around one loop. -/
structure Routine where
  name : String
  before : Statement
  loop : Loop
  after : Statement
deriving DecidableEq

/-- A loop at the beginning of a row of lexemes, and what follows it. -/
def loop? : List Lexeme → Option (Loop × List Lexeme)
  | .keyword .loop :: .opening :: ts => do
    let (first, ts) ← Row.actions? ts
    let ts ← expect? (.mark .semicolon) ts
    let (condition, ts) ← term? ts
    let ts ← expect? (.mark .semicolon) ts
    let (step, ts) ← Row.actions? ts
    let ts ← expect? .closing ts
    let (body, ts) ← Row.statement? ts
    return (⟨first, condition, step, body⟩, ts)
  | _ => none

/-- The function that a row of lexemes is. -/
def routine? : List Lexeme → Option Routine
  | .keyword (.type "void") :: .name name :: .opening :: .closing :: .mark .openBrace :: ts => do
    let (before, ts) ← Row.statements? ts
    let (loop, ts) ← loop? ts
    let (after, ts) ← Row.statements? ts
    if ts = [.mark .closeBrace] then return ⟨name, before, loop, after⟩ else none
  | _ => none

/-! ### Lines -/

/-- A line of a source text. -/
inductive TextLine where
  | code (text : List Char)
  /-- The definition of a macro that changes nothing. -/
  | define (name : String)
  /-- What follows is there only if a flag is defined. -/
  | guard (flag : String)
  | unguard
  /-- A comment, or a file that is included. -/
  | other
deriving DecidableEq

namespace TextLine

/-- The macro that is defined behind the word `define`. -/
def define? (cs : List Char) : Option TextLine := do
  let ts ← lex (cs.dropWhile isWordChar)
  if harmless ts then return .define (String.ofList (cs.takeWhile isWordChar)) else none

/-- Whether a line is neither a directive nor a comment. -/
def isCode (cs : List Char) : Bool :=
  !"#".toList.isPrefixOf cs && !"//".toList.isPrefixOf cs

/-- What a line is. Directives and comments end with their line. -/
def ofChars? (cs : List Char) : Option TextLine :=
  if isCode cs then some (.code cs)
  else if cs.getLast? = some '\\' then none
  else if "//".toList.isPrefixOf cs || "#include ".toList.isPrefixOf cs then some .other
  else if "#define ".toList.isPrefixOf cs then define? (cs.drop 8)
  else if "#ifdef ".toList.isPrefixOf cs then some (.guard (String.ofList (cs.drop 7)))
  else if cs = "#endif".toList then some .unguard
  else none

/-- The lines that are left when conditions are resolved. Behind a condition it is known whether it
holds. -/
def resolve (flags : List String) :
    (within : Option Bool) → List TextLine → Option (List TextLine)
  | none, [] => some []
  | some _, [] => none
  | none, .guard flag :: lines => resolve flags (some (decide (flag ∈ flags))) lines
  | some _, .guard _ :: _ => none
  | some _, .unguard :: lines => resolve flags none lines
  | none, .unguard :: _ => none
  | some false, _ :: lines => resolve flags (some false) lines
  | within, line :: lines => (resolve flags within lines).map (line :: ·)

/-- The macro that a line defines. -/
def definition? : TextLine → Option String
  | define name => some name
  | _ => none

/-- The lexemes of a line. -/
def lexemes? : TextLine → Option (List Lexeme)
  | code text => lex text
  | _ => some []

end TextLine

/-- The words that are no names. Of the reserved words there are only those that occur in tests. -/
def keywords : List (String × Keyword) :=
  [("if", .cond), ("else", .otherwise), ("for", .loop), ("break", .leave), ("printf", .output),
    ("std", .output), ("void", .type "void"), ("bool", .type "bool"), ("int", .type "int"),
    ("unsigned", .type "unsigned"), ("uint32_t", .type "uint32_t")]

/-- A lexeme with names of macros and keywords taken for what they are. -/
def Lexeme.known (macros : List String) : Lexeme → Lexeme
  | .name text =>
    if text ∈ macros then .unexpanded text
    else ((keywords.lookup text).map Lexeme.keyword).getD (.name text)
  | t => t

/-- The function that a source text is, under the flags that are defined. -/
def Routine.ofText? (flags : List String) (text : List Char) : Option Routine := do
  let lines ← (text.splitOn '\n').mapM TextLine.ofChars?
  let lines ← TextLine.resolve flags none lines
  let rows ← lines.mapM TextLine.lexemes?
  routine? (rows.flatten.map (Lexeme.known (lines.filterMap TextLine.definition?)))

/-! ### Reading a function -/

section Functions

variable {ts us vs : List Lexeme} {ss ss' : List Statement}

/-- A loop is read from its header and its body. -/
theorem loop?_eq (ts us vs : List Lexeme) {first step body : Statement} {condition : Term}
    (hfirst : ∀ rest, Row.actions? (ts ++ .mark .semicolon :: rest) =
      some (first, .mark .semicolon :: rest))
    (hcondition : ∀ rest, term? (us ++ .mark .semicolon :: rest) =
      some (condition, .mark .semicolon :: rest))
    (hstep : ∀ rest, Row.actions? (vs ++ .closing :: rest) = some (step, .closing :: rest))
    {ws : List Lexeme} (hbody : body.ReadFrom ws) (rest : List Lexeme) :
    loop? (.keyword .loop :: .opening :: (ts ++ .mark .semicolon :: (us ++ .mark .semicolon ::
      (vs ++ .closing :: (ws ++ rest))))) = some (⟨first, condition, step, body⟩, rest) := by
  simp [loop?, hfirst, hcondition, hstep, expect?, hbody rest]

/-- A function is read from the statements before its loop, the loop, and those behind it. -/
theorem routine?_eq {l : Loop} (name : String) (hbefore : RowFrom ss ts)
    (hloop : ∀ rest, loop? (.keyword .loop :: (us ++ rest)) = some (l, rest))
    (hafter : RowFrom ss' vs) :
    routine? (.keyword (.type "void") :: .name name :: .opening :: .closing :: .mark .openBrace ::
      (ts ++ .keyword .loop :: (us ++ (vs ++ [.mark .closeBrace])))) =
      some ⟨name, .row ss, l, .row ss'⟩ := by
  simp [routine?, hbefore.statements?_loop, hloop, hafter.statements?_closeBrace]

end Functions

namespace TextLine

variable {lines : List (List Char)}

theorem mapM_ofChars? (h : lines.all isCode = true) :
    lines.mapM ofChars? = some (lines.map code) := by
  induction lines with
  | nil => rfl
  | cons l lines ih =>
    rw [List.all_cons, Bool.and_eq_true] at h
    simp [ofChars?, h.1, ih h.2]

theorem mapM_lexemes? (lines : List (List Char)) :
    (lines.map code).mapM lexemes? = lines.mapM lex := by
  rw [List.mapM_map]
  rfl

theorem filterMap_definition? (lines : List (List Char)) :
    (lines.map code).filterMap definition? = [] := by
  simp [List.filterMap_map, Function.comp_def, definition?]

end TextLine

/-! ### Conditional lines -/

/-- Whether a line is neither the beginning nor the end of conditional lines. -/
def TextLine.isPlain : TextLine → Bool
  | guard _ | unguard => false
  | _ => true

theorem TextLine.isPlain_code (lines : List (List Char)) :
    ∀ l ∈ lines.map code, l.isPlain = true := by
  intro l hl
  obtain ⟨cs, -, rfl⟩ := List.mem_map.mp hl
  rfl

section Lines

variable {flags : List String} {flag : String} {before inner after : List TextLine}

theorem TextLine.resolve_plain (flags : List String) {within : Option Bool}
    (hwithin : within ≠ some false) (h : ∀ l ∈ before, l.isPlain = true) (rest : List TextLine) :
    resolve flags within (before ++ rest) = (resolve flags within rest).map (before ++ ·) := by
  induction before with
  | nil => simp
  | cons l before ih =>
    obtain ⟨hl, hbefore⟩ := List.forall_mem_cons.mp h
    have hkept (ls : List TextLine) :
        resolve flags within (l :: ls) = (resolve flags within ls).map (l :: ·) := by
      rcases within with _ | _ | _
      · cases l with
        | guard | unguard => cases hl
        | _ => rfl
      · exact absurd rfl hwithin
      · cases l with
        | guard | unguard => cases hl
        | _ => rfl
    rw [List.cons_append, hkept, ih hbefore]
    simp [Function.comp_def]

theorem TextLine.resolve_skipped (h : ∀ l ∈ inner, l.isPlain = true) (rest : List TextLine) :
    resolve flags (some false) (inner ++ rest) = resolve flags (some false) rest := by
  induction inner with
  | nil => rfl
  | cons l inner ih =>
    obtain ⟨hl, hinner⟩ := List.forall_mem_cons.mp h
    cases l with
    | guard | unguard => cases hl
    | _ => exact ih hinner

/-- Lines under a condition are there exactly if its flag is defined. -/
theorem TextLine.resolve_guard (flags : List String) (flag : String)
    (hbefore : ∀ l ∈ before, l.isPlain = true)
    (hinner : ∀ l ∈ inner, l.isPlain = true) (hafter : ∀ l ∈ after, l.isPlain = true) :
    resolve flags none (before ++ .guard flag :: (inner ++ .unguard :: after)) =
      some (before ++ ((if flag ∈ flags then inner else []) ++ after)) := by
  have hend : resolve flags none after = some after := by
    have hplain : resolve flags none (after ++ []) = _ := resolve_plain flags (by simp) hafter []
    simpa [resolve] using hplain
  rw [resolve_plain flags (by simp) hbefore, resolve]
  by_cases hflag : flag ∈ flags
  · have hplain (rest : List TextLine) : resolve flags (some true) (inner ++ rest) = _ :=
      resolve_plain flags (by simp) hinner rest
    simp [hflag, hplain, resolve, hend]
  · simp [hflag, resolve_skipped hinner, resolve, hend]

end Lines

end BitClassifier.Source
