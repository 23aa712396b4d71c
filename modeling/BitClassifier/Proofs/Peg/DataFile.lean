import BitClassifier.Proofs.Peg.Basic
import BitClassifier.Proofs.Table.Contributions

/-!
# The grammar of data files

The grammar of a whole data file as parsing expressions, and what its smallest parts take. The end
of a line, a character of a line and a character of a field are told by looking at one or two
characters, and between two parts the grammar passes over blanks and one comment (`skip_eq`), which
never reaches beyond its line.
-/

namespace BitClassifier

open Peg
open Line (isInner)
open Record (isBlank isFieldChar)

namespace DataFile

/-- The named rules. -/
inductive Rule where
  | line
  | code
  | name
  | category
  | field
  | badLine
  | endOfInput

/-- The end of a line. -/
def newline : Expr Rule :=
  .alt (.word ['\n']) (.alt (.word ['\r', '\n']) (.word ['\r']))

def any : Expr Rule :=
  .char fun _ => true

def semicolon : Expr Rule :=
  .char (· == ';')

def sign : Expr Rule :=
  .char (· == '#')

def blank : Expr Rule :=
  .char isBlank

def comment : Expr Rule :=
  .seq sign (.star (.seq (.notAhead newline) any))

/-- Text up to the next semicolon, comment or end of the line. -/
def free : Expr Rule :=
  .star (.seq (.notAhead (.alt semicolon (.alt sign newline))) any)

def code : Expr Rule :=
  .rule .code (.atomic (.plus (.char Hex.isDigit)))

def name : Expr Rule :=
  .rule .name (.atomic free)

def category : Expr Rule :=
  .rule .category (.atomic (.seq (.char Char.isAlpha) (.star (.char Char.isAlphanum))))

def field : Expr Rule :=
  .rule .field (.atomic free)

def further : Expr Rule :=
  .star (.seq semicolon field)

def parts : Expr Rule :=
  .seq code (.seq semicolon (.seq name (.seq semicolon (.seq category further))))

def line : Expr Rule :=
  .rule .line parts

/-- Anything up to the end of the line. -/
def badLine : Expr Rule :=
  .rule .badLine (.atomic (.plus (.seq (.notAhead newline) any)))

def endOfInput : Expr Rule :=
  .rule .endOfInput .ending

def lineEnd : Expr Rule :=
  .ahead (.alt newline endOfInput)

def record : Expr Rule :=
  .alt (.seq line lineEnd) badLine

/-- A line with its end. -/
def ended : Expr Rule :=
  .seq (.optional record) newline

def lines : Expr Rule :=
  .seq (.star ended) (.seq (.optional record) endOfInput)

def file : Expr Rule :=
  .seq .beginning lines

def grammar : Grammar Rule :=
  ⟨blank, comment, file⟩

/-- The record of the parts of a line. -/
def record? : List (Pair Rule) → Option Record
  | .mk .code _ digits _ :: .mk .name _ name _ :: .mk .category _ category _ :: _ =>
    some ⟨Hex.digitsValue digits, String.ofList (Blank.trim name), String.ofList category⟩
  | _ => none

/-- What a pair says to the reader. -/
def contribution? : Pair Rule → Option Contribution
  | .mk .line _ _ parts => (record? parts).map .entry
  | .mk .badLine number text _ => some (.malformed number text)
  | _ => none

/-- The pairs of a file tell the reader these contributions, and then that the file ends. -/
inductive Tells : List (Pair Rule) → List Contribution → Prop
  | ending (number : Nat) (text : List Char) : Tells [⟨.endOfInput, number, text, []⟩] []
  | next {x : Pair Rule} {c : Contribution} {xs : List (Pair Rule)} {cs : List Contribution}
    (h : contribution? x = some c) (rest : Tells xs cs) : Tells (x :: xs) (c :: cs)

theorem Tells.append {xs ys : List (Pair Rule)} {cs ds : List Contribution}
    (h : xs.map contribution? = cs.map some) (hys : Tells ys ds) : Tells (xs ++ ys) (cs ++ ds) := by
  induction xs generalizing cs with
  | nil =>
    obtain rfl := List.map_eq_nil_iff.mp h.symm
    exact hys
  | cons x xs ih =>
    cases cs with
    | nil => cases h
    | cons c cs =>
      obtain ⟨hx, hxs⟩ := List.cons.inj h
      exact .next hx (ih hxs)

/-! ## Single rules -/

/-- The characters of a name or of a further field. -/
def isFree (c : Char) : Bool :=
  isFieldChar c && isInner c

theorem isInner_of {k : Char → Bool} (hfeed : k '\n' = false) (hreturn : k '\r' = false) (c : Char)
    (hc : k c = true) : isInner c = true := by
  rw [isInner, Bool.and_eq_true, bne_iff_ne, bne_iff_ne]
  constructor <;> rintro rfl <;> simp_all

section Tokens

variable {skip : Cursor → Cursor} {tight : Bool} {p q : Cursor} {cs : List Char}

theorem run_newline_feed (h : p.after = '\n' :: cs) :
    newline.run skip tight p = some ([], ⟨'\n' :: p.before, cs⟩) := by
  simp [newline, Expr.run, h]

theorem run_newline_pair (h : p.after = '\r' :: '\n' :: cs) :
    newline.run skip tight p = some ([], ⟨'\n' :: '\r' :: p.before, cs⟩) := by
  simp [newline, Expr.run, h]

theorem run_newline_return (h : p.after = '\r' :: cs) (hcs : cs.head? ≠ some '\n') :
    newline.run skip tight p = some ([], ⟨'\r' :: p.before, cs⟩) := by
  cases cs with
  | nil => simp [newline, Expr.run, h]
  | cons c cs =>
    have hc : '\n' ≠ c := by
      rintro rfl
      exact hcs rfl
    simp [newline, Expr.run, h, hc]

theorem run_newline_none (h : ∀ c ∈ p.after.head?, isInner c = true) :
    newline.run skip tight p = none := by
  cases hafter : p.after with
  | nil => simp [newline, Expr.run, hafter]
  | cons c cs =>
    have hc : c ≠ '\n' ∧ c ≠ '\r' := by
      have hinner := h c (by simp [hafter])
      simpa [isInner] using hinner
    simp [newline, Expr.run, hafter, hc.1.symm, hc.2.symm]

/-- An end of a line is taken as the reader takes it. -/
theorem exists_run_newline {feeds : Nat} (h : Line.ending? p.after = some (feeds, cs)) :
    ∃ q, newline.run skip tight p = some ([], q) ∧ q.after = cs ∧ q.line = p.line + feeds := by
  unfold Line.ending? at h
  split at h
  · rename_i rest hafter
    cases h
    exact ⟨_, run_newline_pair hafter, rfl, by simp [Cursor.line, Nat.add_assoc]⟩
  · rename_i rest hpair hafter
    cases h
    refine ⟨_, run_newline_return hafter ?_, rfl, by simp [Cursor.line]⟩
    intro hfeed
    obtain ⟨ds, rfl⟩ := List.head?_eq_some_iff.mp hfeed
    exact hpair ds rfl
  · rename_i rest hafter
    cases h
    exact ⟨_, run_newline_feed hafter, rfl, by simp [Cursor.line, Nat.add_assoc]⟩
  · cases h

theorem isSome_newline (p : Cursor) :
    (newline.run skip tight p).isSome = p.after.head?.any fun c => !isInner c := by
  cases hafter : p.after with
  | nil => rw [run_newline_none (by simp [hafter])]; rfl
  | cons c cs =>
    by_cases hfeed : c = '\n'
    · subst hfeed
      rw [run_newline_feed hafter]
      rfl
    · by_cases hreturn : c = '\r'
      · subst hreturn
        by_cases hcs : cs.head? = some '\n'
        · obtain ⟨ds, rfl⟩ := List.head?_eq_some_iff.mp hcs
          rw [run_newline_pair hafter]
          rfl
        · rw [run_newline_return hafter hcs]
          rfl
      · have hinner : isInner c = true := by simp [isInner, hfeed, hreturn]
        rw [run_newline_none (by simp [hafter, hinner])]
        simp [hinner]

theorem takes_inner : Expr.Takes skip (.seq (.notAhead newline) any) isInner :=
  Expr.takes_notAhead isSome_newline

theorem takes_free :
    Expr.Takes skip (.seq (.notAhead (.alt semicolon (.alt sign newline))) any) isFree := by
  apply Expr.takes_notAhead
  intro p
  rw [Expr.isSome_alt, Expr.isSome_alt, isSome_newline, semicolon, sign, Expr.isSome_char,
    Expr.isSome_char]
  cases p.after.head? with
  | none => rfl
  | some c => cases hc : isInner c <;> simp [isFree, isFieldChar, hc, bne]

end Tokens

/-! ## Blanks and comments -/

/-- The place behind blanks and a comment. -/
def gap (p : Cursor) : Cursor :=
  if (p.pass isBlank).after.head? = some '#' then (p.pass isBlank).pass isInner else p.pass isBlank

theorem run_comment (p : Cursor) :
    comment.run id true p = if p.after.head? = some '#' then some ([], p.pass isInner) else none := by
  have hstar := (takes_inner : Expr.Takes id _ isInner).star
  cases hafter : p.after with
  | nil => simp [comment, sign, Expr.run, Cursor.step?, hafter]
  | cons c cs =>
    by_cases hc : c = '#'
    · subst hc
      have hstep : p.step? (· == '#') = some ⟨'#' :: p.before, cs⟩ := by simp [Cursor.step?, hafter]
      have hpass : p.pass isInner = Cursor.pass isInner ⟨'#' :: p.before, cs⟩ := by
        refine (Cursor.pass_of_step? ?_).1
        simp [Cursor.step?, hafter, isInner]
      rw [comment, sign, Expr.run, Expr.run, hstep, hpass]
      simp [hstar]
    · simp [comment, sign, Expr.run, Cursor.step?, hafter, hc]

theorem begins_pass_inner {k : Char → Bool} (hfeed : k '\n' = false) (hreturn : k '\r' = false)
    (p : Cursor) : Begins k (p.pass isInner).after :=
  (begins_dropWhile isInner p.after).mono (isInner_of hfeed hreturn)

theorem gap_eq_self {p : Cursor} (hblank : Begins isBlank p.after)
    (hsign : p.after.head? ≠ some '#') : gap p = p := by
  rw [gap, Cursor.pass_of_begins hblank, if_neg hsign]

/-- What has been passed over is passed over. -/
theorem gap_gap (p : Cursor) : gap (gap p) = gap p := by
  have hsign := begins_pass_inner (k := (· == '#')) (by decide) (by decide) (p.pass isBlank)
  unfold gap
  split
  · apply gap_eq_self (begins_pass_inner (by decide) (by decide) _)
    intro h
    exact Bool.noConfusion (hsign _ h)
  · rename_i hother
    exact gap_eq_self (begins_dropWhile isBlank p.after) hother

theorem skip_eq (p : Cursor) : grammar.skip p = gap p := by
  have hblanks (q : Cursor) : (many (blank.run id true) q).2 = q.pass isBlank := by
    rw [blank, many_eq_pass (Expr.takes_char isBlank)]
  simp only [Grammar.skip, grammar, hblanks, gap]
  split
  · rename_i hsign
    obtain ⟨cs, hafter⟩ := List.head?_eq_some_iff.mp hsign
    -- no second comment can follow, since the first one reaches up to the end of the line
    have hround : (comment.run id true (p.pass isBlank)).map
        (fun out => (out.1, out.2.pass isBlank)) = some ([], (p.pass isBlank).pass isInner) := by
      rw [run_comment, if_pos hsign, Option.map_some,
        Cursor.pass_of_begins (begins_pass_inner (by decide) (by decide) _)]
    have hshorter : ((p.pass isBlank).pass isInner).after.length < (p.pass isBlank).after.length := by
      have hle := List.length_dropWhile_le isInner cs
      rw [Cursor.after_pass, hafter, List.dropWhile_cons_of_pos (by decide), List.length_cons]
      omega
    have hlast : (comment.run id true ((p.pass isBlank).pass isInner)).map
        (fun out => (out.1, out.2.pass isBlank)) = none := by
      rw [run_comment, if_neg ?_, Option.map_none]
      intro h
      exact Bool.noConfusion (begins_pass_inner (k := (· == '#')) (by decide) (by decide) _ _ h)
    rw [many_of_some hround hshorter, many_of_none hlast]
  · rename_i hsign
    rw [many_of_none]
    rw [run_comment, if_neg hsign, Option.map_none]

end DataFile

end BitClassifier
