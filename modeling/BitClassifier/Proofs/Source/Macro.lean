import BitClassifier.Proofs.Source.Lexeme

/-!
# Macros

Macros with one parameter, as the lines of a source text define them (`definitions`), and their
expansion (`expand`). The argument of a call is expanded on its own before it is put into the body;
then the body is expanded once more, where the macro itself is no longer in force. `Expands` says
what a row of lexemes expands to, whatever follows it.
-/

namespace BitClassifier.Source

/-- A macro with one parameter. -/
structure Macro where
  name : String
  parameter : String
  body : List Lexeme

namespace Macro

/-- The macro that a line defines. The parenthesis stands right behind the name. -/
def ofLine? (line : List Char) : Option Macro :=
  if "#define ".toList.isPrefixOf line then
    let rest := line.drop 8
    match rest.dropWhile isWordChar with
    | '(' :: tail =>
      match lex tail with
      | some (.name parameter :: .closing :: body) =>
        some ⟨String.ofList (rest.takeWhile isWordChar), parameter, body⟩
      | _ => none
    | _ => none
  else none

/-- The body of a macro with an argument in the place of the parameter. -/
def substitute (m : Macro) (argument : List Lexeme) : List Lexeme :=
  m.body.flatMap fun t => if t = .name m.parameter then argument else [t]

end Macro

/-- The macros that the lines of a text define. -/
def definitions (text : List Char) : List Macro :=
  (text.splitOn '\n').filterMap Macro.ofLine?

/-- The argument of a call up to the parenthesis that closes it, and what follows. -/
def argument : (depth : Nat) → List Lexeme → Option (List Lexeme × List Lexeme)
  | _, [] => none
  | 0, .closing :: ts => some ([], ts)
  | depth + 1, .closing :: ts => (argument depth ts).map fun (xs, ys) => (.closing :: xs, ys)
  | depth, .opening :: ts => (argument (depth + 1) ts).map fun (xs, ys) => (.opening :: xs, ys)
  | depth, t :: ts => (argument depth ts).map fun (xs, ys) => (t :: xs, ys)

theorem length_of_argument {depth : Nat} {ts xs ys : List Lexeme}
    (h : argument depth ts = some (xs, ys)) : xs.length + ys.length < ts.length := by
  fun_induction argument depth ts generalizing xs ys with
  | case1 => cases h
  | case2 ts => simp_all
  | case3 | case4 | case5 =>
    obtain ⟨⟨xs', ys'⟩, h', heq⟩ := Option.map_eq_some_iff.mp h
    grind

/-- The macro that a name stands for. -/
def defined? (ms : List Macro) (name : String) : Option Macro :=
  ms.find? (·.name == name)

/-- The macros without the one that a name stands for. -/
def without (ms : List Macro) (name : String) : List Macro :=
  ms.eraseP (·.name == name)

theorem length_without {ms : List Macro} {name : String} {m : Macro}
    (h : defined? ms name = some m) : (without ms name).length < ms.length := by
  have hmem := List.mem_of_find?_eq_some h
  have hname := List.find?_some h
  have hpos := List.length_pos_of_mem hmem
  rw [without, List.length_eraseP_of_mem hmem hname]
  omega

/-- A row of lexemes with all calls of macros expanded, if every call has its parentheses. -/
def expand (ms : List Macro) (ts : List Lexeme) : Option (List Lexeme) :=
  match ts with
  | [] => some []
  | .name name :: .opening :: rest =>
    match _hm : defined? ms name with
    | none => (expand ms rest).map fun us => .name name :: .opening :: us
    | some m =>
      match _ha : argument 0 rest with
      | none => none
      | some (inside, behind) => do
        let inside ← expand ms inside
        let body ← expand (without ms name) (m.substitute inside)
        let behind ← expand ms behind
        return body ++ behind
  | t :: rest => (expand ms rest).map (t :: ·)
termination_by (ms.length, ts.length)
decreasing_by
  · exact Prod.Lex.right _ (by simp only [List.length_cons]; omega)
  · have := length_of_argument ‹_›
    exact Prod.Lex.right _ (by simp only [List.length_cons]; omega)
  · exact Prod.Lex.left _ _ (length_without ‹_›)
  · have := length_of_argument ‹_›
    exact Prod.Lex.right _ (by simp only [List.length_cons]; omega)
  · exact Prod.Lex.right _ (by simp)

/-! ### Parentheses -/

/-- The number of open parentheses behind a row of lexemes, if none is closed that is not open. -/
def depth? : (depth : Nat) → List Lexeme → Option Nat
  | depth, [] => some depth
  | depth, .opening :: ts => depth? (depth + 1) ts
  | 0, .closing :: _ => none
  | depth + 1, .closing :: ts => depth? depth ts
  | depth, _ :: ts => depth? depth ts

theorem depth?_append (depth : Nat) (xs ys : List Lexeme) :
    depth? depth (xs ++ ys) = (depth? depth xs).bind fun d => depth? d ys := by
  fun_induction depth? depth xs <;> simp_all [depth?]

/-- A row of lexemes whose parentheses match. -/
def Balanced (xs : List Lexeme) : Prop :=
  ∀ depth, depth? depth xs = some depth

theorem argument_of_depth? {depth d : Nat} {xs : List Lexeme} (h : depth? depth xs = some d)
    (ys : List Lexeme) :
    argument depth (xs ++ ys) = (argument d ys).map fun (as, bs) => (xs ++ as, bs) := by
  fun_induction depth? depth xs with
  | case1 depth =>
    obtain rfl := Option.some.inj h
    simp
  | case2 depth ts ih =>
    rw [List.cons_append, argument, ih h]
    simp [Function.comp_def]
  | case3 ts => cases h
  | case4 depth ts ih =>
    rw [List.cons_append, argument, ih h]
    simp [Function.comp_def]
  | case5 depth t ts hopening hclosing hclosing' ih =>
    rw [List.cons_append, argument, ih h]
    · simp [Function.comp_def]
    all_goals simp_all

/-- Matching parentheses do not end an argument. -/
theorem argument_append {xs : List Lexeme} (h : Balanced xs) (depth : Nat) (ys : List Lexeme) :
    argument depth (xs ++ ys) = (argument depth ys).map fun (as, bs) => (xs ++ as, bs) :=
  argument_of_depth? (h depth) ys

/-! ### Expansion -/

/-- What a row of lexemes expands to, whatever follows it. -/
def Expands (ms : List Macro) (xs us : List Lexeme) : Prop :=
  ∀ ys, expand ms (xs ++ ys) = (expand ms ys).map (us ++ ·)

@[simp] theorem expand_nil (ms : List Macro) : expand ms [] = some [] := by
  rw [expand]

namespace Expands

variable {ms : List Macro} {xs ys us vs : List Lexeme} {t : Lexeme} {name : String}

theorem nil : Expands ms [] [] := by
  intro ys
  simp

theorem append (hxs : Expands ms xs us) (hys : Expands ms ys vs) :
    Expands ms (xs ++ ys) (us ++ vs) := by
  intro zs
  rw [List.append_assoc, hxs, hys]
  simp [Function.comp_def]

theorem expand_eq (h : Expands ms xs us) : expand ms xs = some us := by
  have hxs := h []
  rwa [List.append_nil, expand_nil, Option.map_some, List.append_nil] at hxs

/-- A lexeme that is no name of a macro stays as it is. -/
theorem keep (h : ∀ name, t = .name name → defined? ms name = none) : Expands ms [t] [t] := by
  intro ys
  rw [List.singleton_append]
  cases t with
  | name text =>
    have hnone := h text rfl
    cases ys with
    | nil => rw [expand_nil, expand] <;> simp
    | cons y ys =>
      by_cases hy : y = .opening
      · subst hy
        rw [expand, expand]
        · split
          · simp [Function.comp_def]
          · simp_all
        · simp
      · rw [expand] <;> simp_all
  | _ => rw [expand] <;> simp

/-- A sign in front of a row of lexemes stays as it is. -/
theorem cons (ht : ∀ name, t ≠ .name name) (h : Expands ms xs us) :
    Expands ms (t :: xs) (t :: us) :=
  (keep fun name hname => absurd hname (ht name)).append h

/-- A row without names of macros stays as it is. -/
theorem keepAll (h : ∀ name, .name name ∈ xs → defined? ms name = none) : Expands ms xs xs := by
  induction xs with
  | nil => exact nil
  | cons t xs ih =>
    have ht : ∀ name, t = .name name → defined? ms name = none :=
      fun name hname => h name (hname ▸ List.mem_cons_self)
    exact (keep ht).append (ih fun name hname => h name (List.mem_cons_of_mem t hname))

/-- A call of a macro expands to what its body with the expanded argument expands to. -/
theorem call {m : Macro} (hm : defined? ms name = some m) (hbalanced : Balanced xs)
    (hxs : expand ms xs = some us) (hbody : expand (without ms name) (m.substitute us) = some vs) :
    Expands ms (.name name :: .opening :: (xs ++ [.closing])) vs := by
  intro ys
  have hargument : argument 0 (xs ++ .closing :: ys) = some (xs, ys) := by
    rw [argument_append hbalanced, argument]
    simp
  rw [List.cons_append, List.cons_append, List.append_assoc, List.singleton_append, expand]
  split
  · simp_all
  · rename_i m' hm'
    obtain rfl : m = m' := Option.some.inj (hm.symm.trans hm')
    split
    · simp_all
    · rename_i inside behind hsplit
      obtain ⟨rfl, rfl⟩ : xs = inside ∧ ys = behind := by simp_all
      simp only [hxs, hbody, Option.bind_eq_bind, Option.bind_some]
      cases expand ms ys <;> rfl

end Expands

end BitClassifier.Source
