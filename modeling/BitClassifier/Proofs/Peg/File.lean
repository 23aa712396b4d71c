import BitClassifier.Proofs.Peg.Record
import Mathlib.Logic.ExistsUnique

/-!
# Taking a whole file

The repetition of the grammar takes one line with its end in each round, and the last line, which
has no end, is tried by the repetition and given back. What the pairs of a file say to the reader is
what the reader takes from the lines, in their order (`exists_parse`).
-/

namespace BitClassifier

namespace DataFile

open Peg
open Line (isInner ending?)

variable {p : Cursor}

/-- A cursor stands in a line of its own. -/
theorem at_cursor (p : Cursor) :
    At p p.line (p.after.takeWhile isInner) (p.after.dropWhile isInner) where
  after := List.takeWhile_append_dropWhile.symm
  line := rfl
  inner := List.all_takeWhile
  ends := begins_dropWhile isInner p.after

/-- The record of a line is taken up to the end of the line. -/
theorem exists_run_record (p : Cursor) :
    ∃ xs q, (Expr.optional record).run gap false (gap p) = some (xs, q) ∧
      At (gap q) p.line [] (p.after.dropWhile isInner) ∧
      xs.map contribution? =
        (Line.contributions ⟨p.line, p.after.takeWhile isInner⟩).map some := by
  have hp := at_cursor p
  obtain ⟨xs, l', hrecord, hend, hxs⟩ :=
    exists_record p.line (all_behind hp.inner) (behind_behind _)
  obtain ⟨q, hrun, hq⟩ := hrecord _ _ hp.gap
  exact ⟨xs, q, hrun, hend ▸ hq.gap, contributions_behind p.line _ ▸ hxs⟩

theorem run_ended_none (h : p.after.dropWhile isInner = []) :
    ended.run gap false (gap p) = none := by
  obtain ⟨xs, q, hrun, hq, -⟩ := exists_run_record p
  have hnewline : newline.run gap false (gap q) = none :=
    run_newline_none (by simp [hq.after, h])
  rw [ended, Expr.run_seq_of_some hrun, hnewline, Option.map_none]

theorem exists_run_ended {feeds : Nat} {rest : List Char}
    (h : ending? (p.after.dropWhile isInner) = some (feeds, rest)) :
    ∃ xs q, ended.run gap false (gap p) = some (xs, q) ∧ q.after = rest ∧
      q.line = p.line + feeds ∧
      xs.map contribution? =
        (Line.contributions ⟨p.line, p.after.takeWhile isInner⟩).map some := by
  obtain ⟨xs, q, hrun, hq, hxs⟩ := exists_run_record p
  have hend : ending? (gap q).after = some (feeds, rest) := by
    rw [hq.after]
    exact h
  obtain ⟨r, hnewline, hrest, hline⟩ : ∃ r, newline.run gap false (gap q) = some ([], r) ∧
      r.after = rest ∧ r.line = (gap q).line + feeds := exists_run_newline hend
  refine ⟨xs, r, ?_, hrest, hq.line ▸ hline, hxs⟩
  rw [ended, Expr.run_seq_of_some hrun, hnewline]
  simp

/-- A round takes something. -/
theorem length_ended {xs : List (Pair Rule)} {q : Cursor}
    (h : ended.run gap false (gap p) = some (xs, q)) : q.after.length < p.after.length := by
  cases hend : ending? (p.after.dropWhile isInner) with
  | none =>
    rw [run_ended_none ((Line.ending?_eq_none (begins_dropWhile _ _)).mp hend)] at h
    cases h
  | some out =>
    obtain ⟨xs, r, hrun, hrest, -⟩ := exists_run_ended hend
    rw [hrun] at h
    cases h
    rw [hrest]
    exact (Line.length_ending? hend).trans_le (List.length_dropWhile_le isInner _)

/-- From a cursor on, the pairs say what the lines say. -/
theorem exists_run_lines (p : Cursor) :
    ∃ xs q, lines.run gap false (gap p) = some (xs, q) ∧
      Tells xs ((Line.split p.line [] p.after).flatMap Line.contributions) := by
  induction hn : p.after.length using Nat.strong_induction_on generalizing p with
  | _ n ih =>
    rw [Line.split_eq]
    cases hend : ending? (p.after.dropWhile isInner) with
    | none =>
      -- the last line is left to the part behind the repetition
      have hlast := (Line.ending?_eq_none (begins_dropWhile _ _)).mp hend
      obtain ⟨xs, q, hrun, hq, hxs⟩ := exists_run_record p
      have hstar := Expr.run_star_of_none (run_ended_none hlast)
      have hinput : endOfInput.run gap false (gap q) =
          some ([⟨.endOfInput, (gap q).line, (gap q).upTo (gap q), []⟩], gap q) := by
        simp [endOfInput, Expr.run, hq.after, hlast]
      rw [lines, Expr.run_seq_of_some hstar, gap_gap, Expr.run_seq_of_some hrun, hinput]
      refine ⟨_, _, rfl, ?_⟩
      rw [List.nil_append]
      exact .append hxs (.ending ..)
    | some out =>
      obtain ⟨feeds, rest⟩ := out
      obtain ⟨xs, q, hrun, hrest, hline, hxs⟩ := exists_run_ended hend
      obtain ⟨ys, r, hlines, hys⟩ := ih _ (hn ▸ length_ended hrun) q rfl
      rw [lines, Expr.run_seq_star gap_gap hrun fun _ _ => length_ended, ← lines, hlines]
      rw [hline, hrest] at hys
      exact ⟨xs ++ ys, r, rfl, .append hxs hys⟩

/-- Every text is a file, and its pairs say what its lines say. -/
theorem exists_parse (text : List Char) :
    ∃ pairs, grammar.parse text = some pairs ∧
      Tells pairs ((Line.ofText text).flatMap Line.contributions) := by
  obtain ⟨xs, q, hrun, hxs⟩ := exists_run_lines (.start text)
  refine ⟨xs, ?_, hxs⟩
  have hfile : file.run grammar.skip false (.start text) = some (xs, q) := by
    have hbegin : (Expr.beginning : Expr Rule).run gap false (.start text) =
        some ([], .start text) := rfl
    rw [funext skip_eq, file, Expr.run_seq_of_some hbegin, hrun]
    rfl
  rw [Grammar.parse, show grammar.file = file from rfl, hfile, Option.map_some]

end DataFile

/-- The reader follows the grammar. A text is cut into lines in one way, and every line contributes
an entry, a report that it is malformed, or nothing: just one of them, which depends on how the line
can be split. The pairs that the grammar takes from the whole file tell these contributions in the
order of the lines, and reading the text goes through them. -/
theorem Reading.ofText_follows_grammar (text : String) :
    ∃ lines contributions pairs, Delimits 1 text.toList lines ∧
      List.Forall₂ Contributes lines contributions ∧
      (∀ line ∈ lines, ∃! cs, Contributes line cs) ∧
      DataFile.grammar.parse text.toList = some pairs ∧
      DataFile.Tells pairs contributions.flatten ∧
      Reading.ofText text = .ofContributions none contributions.flatten := by
  obtain ⟨pairs, hparse, htells⟩ := DataFile.exists_parse text.toList
  refine ⟨Line.ofText text.toList, (Line.ofText text.toList).map Line.contributions, pairs,
    delimits_iff.mpr rfl, forall₂_contributes_iff.mpr rfl, ?_, hparse, ?_, ?_⟩
  · intro line _
    exact ⟨line.contributions, contributes_iff.mpr rfl, fun cs => contributes_iff.mp⟩
  · rwa [← List.flatMap_def]
  · rw [ofText, ofLines_eq, List.flatMap_def]

end BitClassifier
