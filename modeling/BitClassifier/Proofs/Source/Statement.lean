import BitClassifier.Proofs.Source.Lexeme

/-!
# Statements

The part of the grammar of statements that emitted tests use. A row of lexemes is read from left to
right, without a choice: what stands at the beginning decides (`Row.statement?`). Terms are
conjunctions of comparisons, where comparisons bind closer (`term?`). Of an output it is only read
that it changes nothing (`harmless`). What no emitted test has is not read.
-/

namespace BitClassifier.Source

/-- The operators of a term. -/
inductive Operator where
  | less
  | atMost
  | greater
  | equal
  | notEqual
  | and
deriving DecidableEq

/-- A term over variables. -/
inductive Term where
  | number (value : Nat)
  | var (name : String)
  | element (array index : String)
  /-- A call without arguments. -/
  | call (function : String)
  | apply (function argument : String)
  | binary (op : Operator) (left right : Term)
deriving DecidableEq

/-- A statement. -/
inductive Statement where
  | empty
  | assign (name : String) (value : Term)
  | declare (type name : String) (value : Option Term)
  | array (name : String) (elements : List Nat)
  | increment (name : String)
  | increase (name : String) (amount : Term)
  /-- Leaves the loop. -/
  | leave
  /-- Output, which changes no variable. -/
  | output
  | ifThen (condition : Term) (yes : Statement)
  | ifElse (condition : Term) (yes no : Statement)
  | next (first second : Statement)
deriving DecidableEq

/-- Statements one after the other. -/
def Statement.row (ss : List Statement) : Statement :=
  ss.foldr .next .empty

/-! ### Terms -/

/-- What follows a certain lexeme. -/
def expect? (t : Lexeme) : List Lexeme → Option (List Lexeme)
  | u :: ts => if u = t then some ts else none
  | [] => none

/-- A term without operators. -/
def operand? : List Lexeme → Option (Term × List Lexeme)
  | .number n :: ts => some (.number n, ts)
  | .name space :: .scope :: .name f :: .opening :: .closing :: ts =>
    some (.call (space ++ "::" ++ f), ts)
  | .name f :: .opening :: .closing :: ts => some (.call f, ts)
  | .name f :: .opening :: .name x :: .closing :: ts => some (.apply f x, ts)
  | .name a :: .mark .openBracket :: .name x :: .mark .closeBracket :: ts =>
    some (.element a x, ts)
  | .name x :: ts => some (.var x, ts)
  | _ => none

/-- The comparison that a lexeme stands for. -/
def comparison? : Lexeme → Option Operator
  | .mark .less => some .less
  | .mark .atMost => some .atMost
  | .mark .greater => some .greater
  | .op .equal => some .equal
  | .op .notEqual => some .notEqual
  | _ => none

/-- A term with one comparison at most. -/
def compared? (ts : List Lexeme) : Option (Term × List Lexeme) := do
  let (left, ts) ← operand? ts
  match ts.head?.bind comparison? with
  | some op =>
    let (right, ts) ← operand? ts.tail
    return (.binary op left right, ts)
  | none => return (left, ts)

/-- A term. -/
def term? (ts : List Lexeme) : Option (Term × List Lexeme) := do
  let (left, ts) ← compared? ts
  match ts with
  | .op .and :: ts =>
    let (right, ts) ← compared? ts
    return (.binary .and left right, ts)
  | _ => return (left, ts)

/-! ### Output -/

/-- Whether a lexeme changes no variable and ends no statement. -/
def Lexeme.isHarmless : Lexeme → Bool
  | .mark .assign | .mark .increase | .mark .increment => false
  | .mark .semicolon | .mark .openBrace | .mark .closeBrace => false
  | _ => true

/-- Whether a row of lexemes changes no variable and calls no function. -/
def harmless : List Lexeme → Bool
  | .name _ :: .opening :: _ => false
  | t :: ts => t.isHarmless && harmless ts
  | [] => true

/-- What follows an output, which goes to the next semicolon. -/
def output? (ts : List Lexeme) : Option (List Lexeme) :=
  if harmless (ts.takeWhile (· != .mark .semicolon)) then
    expect? (.mark .semicolon) (ts.dropWhile (· != .mark .semicolon))
  else none

/-! ### Statements -/

/-- A row of lexemes, from which statements are read. -/
abbrev Row := List Lexeme

/-- A statement that may stand in the header of a loop. -/
def action? : List Lexeme → Option (Statement × List Lexeme)
  | .mark .increment :: .name x :: ts => some (.increment x, ts)
  | .name x :: .mark .assign :: ts => (term? ts).map fun (t, ts) => (.assign x t, ts)
  | .name x :: .mark .increase :: ts => (term? ts).map fun (t, ts) => (.increase x t, ts)
  | _ => none

/-- Actions that are separated by commas. -/
def Row.actions? (ts : Row) : Option (Statement × Row) := do
  let (first, ts) ← action? ts
  match ts with
  | .mark .comma :: ts =>
    let ts : Row := ts
    let (rest, ts) ← ts |>.actions?
    return (.next first rest, ts)
  | _ => return (first, ts)
partial_fixpoint

/-- The numbers of an initializer up to the brace that closes it. -/
def numbers? : List Lexeme → Option (List Nat × List Lexeme)
  | .number n :: .mark .comma :: ts => (numbers? ts).map fun (ns, ts) => (n :: ns, ts)
  | .number n :: .mark .closeBrace :: ts => some ([n], ts)
  | _ => none

/-- A variable that is declared, with or without a value. -/
def declarator? (type : String) : List Lexeme → Option (Statement × List Lexeme)
  | .name x :: .mark .assign :: ts =>
    (term? ts).map fun (t, ts) => (.declare type x (some t), ts)
  | .name x :: ts => some (.declare type x none, ts)
  | _ => none

/-- Variables that are declared, up to the semicolon. -/
def Row.declarators? (ts : Row) (type : String) : Option (Statement × Row) := do
  let (first, ts) ← declarator? type ts
  match ts with
  | .mark .comma :: ts =>
    let ts : Row := ts
    let (rest, ts) ← ts |>.declarators? type
    return (.next first rest, ts)
  | .mark .semicolon :: ts => return (first, ts)
  | _ => none
partial_fixpoint

/-- What is declared with a type: an array with its elements, or variables. -/
def declared? (type : String) : List Lexeme → Option (Statement × List Lexeme)
  | .name a :: .mark .openBracket :: .mark .closeBracket :: .mark .assign :: .mark .openBrace ::
      ts => do
    let (elements, ts) ← numbers? ts
    let ts ← expect? (.mark .semicolon) ts
    return (.array a elements, ts)
  | ts => Row.declarators? ts type

mutual

/-- A statement at the beginning of a row of lexemes, and what follows it. An `else` belongs to the
last condition. -/
def Row.statement? (ts : Row) : Option (Statement × Row) :=
  match ts with
  | .keyword .cond :: .opening :: ts => do
    let (condition, ts) ← term? ts
    let ts : Row ← expect? .closing ts
    let (yes, ts) ← ts |>.statement?
    match ts with
    | .keyword .otherwise :: ts =>
      let ts : Row := ts
      let (no, ts) ← ts |>.statement?
      return (.ifElse condition yes no, ts)
    | _ => return (.ifThen condition yes, ts)
  | .mark .openBrace :: ts => do
    let ts : Row := ts
    let (row, ts) ← ts |>.statements?
    let ts ← expect? (.mark .closeBrace) ts
    return (row, ts)
  | .keyword .leave :: .mark .semicolon :: ts => some (.leave, ts)
  | .keyword .output :: ts => (output? ts).map fun ts => (.output, ts)
  | .keyword (.type type) :: ts => declared? type ts
  | ts => do
    let (s, ts) ← action? ts
    let ts ← expect? (.mark .semicolon) ts
    return (s, ts)
partial_fixpoint

/-- Statements up to a brace that closes or a loop. -/
def Row.statements? (ts : Row) : Option (Statement × Row) :=
  match ts with
  | .mark .closeBrace :: _ | .keyword .loop :: _ => some (.empty, ts)
  | _ => do
    let (first, ts) ← ts |>.statement?
    let (rest, ts) ← ts |>.statements?
    return (.next first rest, ts)
partial_fixpoint

end

/-! ### What a row of lexemes is read as -/

/-- A row of lexemes is read as a statement, whatever follows. -/
def Statement.ReadFrom (s : Statement) (ts : List Lexeme) : Prop :=
  ∀ rest, Row.statement? (ts ++ rest) = some (s, rest)

/-- Whether no `else` follows. -/
def Free (ts : List Lexeme) : Prop :=
  ts.head? ≠ some (.keyword .otherwise)

/-- A row of lexemes is read as statements one after the other, unless an `else` follows. -/
structure RowFrom (ss : List Statement) (ts : List Lexeme) : Prop where
  free : Free ts
  read : ∀ rest, Free rest →
    Row.statements? (ts ++ rest) =
      (Row.statements? rest).map fun (row, us) => (ss.foldr .next row, us)

section Rows

variable {ts us rest : List Lexeme} {t : Lexeme} {s s' : Statement} {ss ss' : List Statement}
  {condition : Term}

/-- Whether a lexeme begins no statement. -/
def Lexeme.isStop : Lexeme → Bool
  | .keyword .otherwise | .keyword .loop | .mark .closeBrace => true
  | _ => false

theorem statement?_stop (h : t.isStop = true) : Row.statement? (t :: ts) = none := by
  unfold Lexeme.isStop at h
  split at h
  · simp [Row.statement?, action?]
  · simp [Row.statement?, action?]
  · simp [Row.statement?, action?]
  · cases h

theorem Free.append (hts : Free ts) (hus : Free us) : Free (ts ++ us) := by
  cases ts with
  | nil => exact hus
  | cons t ts => exact hts

theorem statements?_cons (ht : t.isStop = false) (h : Row.statement? (t :: ts) = some (s, rest)) :
    Row.statements? (t :: ts) = (Row.statements? rest).map fun (row, us) => (.next s row, us) := by
  rw [Row.statements?, h]
  · simp only [Option.bind_eq_bind, Option.bind_some]
    cases Row.statements? rest <;> rfl
  all_goals
    rintro _ heq
    cases heq
    cases ht

theorem RowFrom.nil : RowFrom [] [] where
  free := by simp [Free]
  read := by simp

theorem RowFrom.append (h : RowFrom ss ts) (h' : RowFrom ss' us) :
    RowFrom (ss ++ ss') (ts ++ us) where
  free := h.free.append h'.free
  read := by
    intro rest hrest
    rw [List.append_assoc, h.read _ (h'.free.append hrest), h'.read rest hrest]
    simp [Function.comp_def]

/-- A statement that is read before everything but an `else` is a row of its own. -/
theorem rowFrom_singleton (h : ∀ rest, Free rest → Row.statement? (ts ++ rest) = some (s, rest)) :
    RowFrom [s] ts := by
  have hread := h [] (by simp [Free])
  cases ts with
  | nil => simp [Row.statement?, action?] at hread
  | cons t ts =>
    have ht : t.isStop = false := by
      by_contra hstop
      rw [List.append_nil, statement?_stop (by simpa using hstop)] at hread
      cases hread
    refine ⟨?_, fun rest hrest => ?_⟩
    · rintro heq
      cases heq
      cases ht
    · have hrow : Row.statements? (t :: (ts ++ rest)) = _ := statements?_cons ht (h rest hrest)
      simpa using hrow

theorem Statement.ReadFrom.row (h : s.ReadFrom ts) : RowFrom [s] ts :=
  rowFrom_singleton fun rest _ => h rest

theorem RowFrom.statements?_loop (h : RowFrom ss ts) (rest : List Lexeme) :
    Row.statements? (ts ++ .keyword .loop :: rest) = some (.row ss, .keyword .loop :: rest) := by
  rw [h.read _ (by simp [Free]), Row.statements?]
  rfl

theorem RowFrom.statements?_closeBrace (h : RowFrom ss ts) (rest : List Lexeme) :
    Row.statements? (ts ++ .mark .closeBrace :: rest) =
      some (.row ss, .mark .closeBrace :: rest) := by
  rw [h.read _ (by simp [Free]), Row.statements?]
  rfl

/-- A row in braces is one statement. -/
theorem RowFrom.block (h : RowFrom ss ts) :
    (Statement.row ss).ReadFrom (.mark .openBrace :: (ts ++ [.mark .closeBrace])) := by
  intro rest
  simp [Row.statement?, h.statements?_closeBrace, expect?]

theorem actions?_last (h : action? ts = some (s, t :: rest)) (ht : t ≠ .mark .comma) :
    Row.actions? ts = some (s, t :: rest) := by
  rw [Row.actions?, h]
  simp only [Option.bind_eq_bind, Option.bind_some]
  split
  · simp_all
  · rfl

theorem actions?_comma (h : action? ts = some (s, .mark .comma :: us))
    (h' : Row.actions? us = some (s', rest)) : Row.actions? ts = some (.next s s', rest) := by
  rw [Row.actions?, h]
  simp [h']

theorem declarators?_last {type : String}
    (h : declarator? type ts = some (s, .mark .semicolon :: rest)) :
    Row.declarators? ts type = some (s, rest) := by
  rw [Row.declarators?, h]
  rfl

theorem declarators?_comma {type : String}
    (h : declarator? type ts = some (s, .mark .comma :: us))
    (h' : Row.declarators? us type = some (s', rest)) :
    Row.declarators? ts type = some (.next s s', rest) := by
  rw [Row.declarators?, h]
  simp [h']

theorem readFrom_assign {name : String} {value : Term} (us : List Lexeme)
    (h : ∀ rest, term? (us ++ .mark .semicolon :: rest) = some (value, .mark .semicolon :: rest)) :
    (Statement.assign name value).ReadFrom
      (.name name :: .mark .assign :: (us ++ [.mark .semicolon])) := by
  intro rest
  simp [Row.statement?, action?, h, expect?]

theorem readFrom_increase {name : String} {amount : Term} (us : List Lexeme)
    (h : ∀ rest, term? (us ++ .mark .semicolon :: rest) = some (amount, .mark .semicolon :: rest)) :
    (Statement.increase name amount).ReadFrom
      (.name name :: .mark .increase :: (us ++ [.mark .semicolon])) := by
  intro rest
  simp [Row.statement?, action?, h, expect?]

theorem readFrom_increment (name : String) :
    (Statement.increment name).ReadFrom [.mark .increment, .name name, .mark .semicolon] := by
  intro rest
  simp [Row.statement?, action?, expect?]

theorem readFrom_declare (type name : String) {value : Term} (us : List Lexeme)
    (h : ∀ rest, term? (us ++ .mark .semicolon :: rest) = some (value, .mark .semicolon :: rest)) :
    (Statement.declare type name (some value)).ReadFrom
      (.keyword (.type type) :: .name name :: .mark .assign :: (us ++ [.mark .semicolon])) := by
  intro rest
  rw [List.cons_append, Row.statement?]
  exact declarators?_last (by simp [declarator?, h])

theorem readFrom_array (type name : String) {ns : List Nat} {us : List Lexeme}
    (h : ∀ rest, numbers? (us ++ .mark .closeBrace :: rest) = some (ns, rest)) :
    (Statement.array name ns).ReadFrom (.keyword (.type type) :: .name name :: .mark .openBracket
      :: .mark .closeBracket :: .mark .assign :: .mark .openBrace
      :: (us ++ [.mark .closeBrace, .mark .semicolon])) := by
  intro rest
  simp [Row.statement?, declared?, h, expect?]

theorem readFrom_output (ts : List Lexeme) (h : harmless ts = true)
    (hend : ∀ t ∈ ts, (t != .mark .semicolon) = true) :
    Statement.output.ReadFrom (.keyword .output :: (ts ++ [.mark .semicolon])) := by
  intro rest
  have htake : (ts ++ .mark .semicolon :: rest).takeWhile (· != .mark .semicolon) = ts := by
    rw [List.takeWhile_append_of_pos hend]
    simp
  have hdrop : (ts ++ .mark .semicolon :: rest).dropWhile (· != .mark .semicolon) =
      .mark .semicolon :: rest := by
    rw [List.dropWhile_append_of_pos hend]
    simp
  simp [Row.statement?, output?, htake, hdrop, h, expect?]

theorem rowFrom_ifThen (us : List Lexeme)
    (hcondition : ∀ rest, term? (us ++ .closing :: rest) = some (condition, .closing :: rest))
    (h : s.ReadFrom ts) :
    RowFrom [.ifThen condition s] (.keyword .cond :: .opening :: (us ++ .closing :: ts)) := by
  refine rowFrom_singleton fun rest hrest => ?_
  simp only [List.cons_append, List.append_assoc, Row.statement?, hcondition, Option.bind_eq_bind,
    Option.bind_some, expect?, if_true, h rest]
  split
  · exact absurd rfl hrest
  · rfl

theorem readFrom_ifElse (us : List Lexeme) {vs : List Lexeme}
    (hcondition : ∀ rest, term? (us ++ .closing :: rest) = some (condition, .closing :: rest))
    (h : s.ReadFrom ts) (h' : s'.ReadFrom vs) :
    (Statement.ifElse condition s s').ReadFrom
      (.keyword .cond :: .opening :: (us ++ .closing :: (ts ++ .keyword .otherwise :: vs))) := by
  intro rest
  simp [Row.statement?, hcondition, expect?, h (.keyword .otherwise :: (vs ++ rest)), h' rest]

end Rows

end BitClassifier.Source
