import BitClassifier.Proofs.Table.LineNumbers

/-!
# Texts behind one another

A text that ends with a line feed and is read without an error leaves nothing open: what is read
behind it is read as if it stood alone, with its lines numbered on (`Reading.ofText_append`). Going
through contributions carries one state, the range that has begun, and a table without an error says
that no range is open at the end.
-/

namespace BitClassifier

/-! ### Tables and readings in a row -/

/-- The blocks of two tables. -/
def Table.append (t u : Table) : Table :=
  ⟨t.blocks ++ u.blocks⟩

namespace Table

theorem values_append (t u : Table) (category : String) :
    (t.append u).values category = t.values category ++ u.values category := by
  simp [append, values]

theorem len_append (t u : Table) : (t.append u).len = t.len + u.len := by
  obtain ⟨blocks⟩ := t
  induction blocks with
  | nil => simp [append, len]
  | cons b blocks ih =>
    simp only [append, len, List.cons_append, List.foldr_cons] at ih ⊢
    rw [ih, Nat.add_assoc]

end Table

namespace Reading

variable {opened : Option (CodeValue × String)} {r : Record} {t : Table}

/-- What comes of a reading with the table `t` when another one follows. -/
def behind (events : List Event) (t : Table) (rest : Reading) : Reading :=
  ⟨events ++ rest.events, rest.table.map t.append⟩

theorem behind_nil (rest : Reading) : behind [] {} rest = rest := by
  obtain ⟨events, table⟩ := rest
  cases table <;> rfl

theorem report_behind (es events : List Event) (t : Table) (rest : Reading) :
    (behind events t rest).report es = behind (es ++ events) t rest := by
  rw [Reported.report, behind, behind, List.append_assoc]

theorem add_behind (b : Block) (events : List Event) (t : Table) (rest : Reading) :
    (behind events t rest).add b = behind events ⟨b :: t.blocks⟩ rest := by
  obtain ⟨events', table⟩ := rest
  cases table <;> rfl

/-! ### Contributions behind others -/

/-- A block in front of a reading that follows stands in front of the whole. -/
theorem add_eq_behind {x x' y : Reading} {b : Block}
    (hx : ∀ u, x.table = .ok u → x' = behind x.events u y) (h : (x.add b).table = .ok t) :
    x'.add b = behind x.events t y := by
  obtain ⟨u, hu, rfl⟩ := add_eq_ok h
  rw [hx u hu, add_behind]

/-- What follows an entry is read behind it, if it is read at all. -/
theorem ofEntry_behind {rest rest' : Option (CodeValue × String) → Reading} {y : Reading}
    (hrest : ∀ opened t, (rest opened).table = .ok t →
      rest' opened = behind (rest opened).events t y)
    (h : (ofEntry opened r rest).table = .ok t) :
    ofEntry opened r rest' = behind (ofEntry opened r rest).events t y := by
  unfold ofEntry at h ⊢
  by_cases hcode : UInt32.size ≤ r.code
  · rw [if_pos hcode] at h
    cases h
  · rw [if_neg hcode] at h ⊢
    rw [if_neg hcode]
    cases opened with
    | none =>
      dsimp only at h ⊢
      split at h
      · rename_i hopens
        rw [if_pos hopens, if_pos hopens]
        exact hrest _ _ h
      · rename_i hopens
        rw [if_neg hopens, if_neg hopens]
        have hadd := add_eq_behind (hrest none) h
        exact hadd
    | some range =>
      dsimp only at h ⊢
      split at h
      · cases h
      · rename_i hordered
        rw [if_neg hordered, if_neg hordered, add_eq_behind (hrest none) h, report_behind]
        rfl

/-- Contributions that leave no range open are gone through before the others begin. -/
theorem ofContributions_append (cs ds : List Contribution)
    (h : (ofContributions opened cs).table = .ok t) :
    ofContributions opened (cs ++ ds) =
      behind (ofContributions opened cs).events t (ofContributions none ds) := by
  induction cs generalizing opened t with
  | nil =>
    cases opened with
    | none =>
      cases h
      exact (behind_nil _).symm
    | some range => cases h
  | cons c cs ih =>
    rw [List.cons_append]
    cases c with
    | entry r =>
      rw [ofContributions] at h ⊢
      rw [ofContributions]
      exact ofEntry_behind (fun opened t => ih) h
    | malformed number text =>
      rw [ofContributions] at h ⊢
      rw [ofContributions, ih h, report_behind]
      rfl

/-! ### Texts -/

/-- A text that ends with a line feed and leaves no range open is read before what follows it. -/
theorem ofText_append_eq (a b : String) (hend : a.toList.getLast? = some '\n')
    (h : (ofText a).table = .ok t) :
    ofText (a ++ b) =
      behind (ofText a).events t ((ofText b).renumbered (· + a.toList.count '\n')) := by
  obtain ⟨cs, hcs⟩ := List.getLast?_eq_some_iff.mp hend
  obtain ⟨lines, hlines⟩ := Line.exists_split_append 1 [] cs
  have ha : ofText a = ofContributions none (lines.flatMap Line.contributions) := by
    -- the empty line behind the last line feed contributes nothing
    have hempty (number : Nat) : (Line.split number [] []).flatMap Line.contributions = [] := rfl
    rw [ofText, ofLines_eq, Line.ofText, hcs, hlines, List.flatMap_append, hempty, List.append_nil]
  have hb : (ofText b).renumbered (· + a.toList.count '\n') =
      ofContributions none ((Line.split (1 + cs.count '\n' + 1) [] b.toList).flatMap
        Line.contributions) := by
    rw [hcs, Nat.add_assoc, Line.split_add, Line.flatMap_contributions_renumbered (· + _),
      ofContributions_renumbered,
      ofText, ofLines_eq, List.count_append]
    rfl
  rw [ha] at h ⊢
  rw [hb, ofText, String.toList_append, hcs, List.append_assoc, ofLines_eq, Line.ofText,
    List.singleton_append, hlines, List.flatMap_append, ofContributions_append _ _ h]

/-- Reading keeps to the ends of lines. Behind a text that ends with a line feed and is read without
an error, another text fails with the errors that it has by itself. If it has none, every category
has the values of both in their order and the lengths add up. What is reported is what both report,
the second one with its lines numbered on. -/
theorem ofText_append (a b : String) (tableA : Table) (hend : a.toList.getLast? = some '\n')
    (ha : (ofText a).table = .ok tableA) :
    (∀ error, (ofText (a ++ b)).table = .error error ↔ (ofText b).table = .error error) ∧
    (∀ tableB, (ofText b).table = .ok tableB →
      ∃ table, (ofText (a ++ b)).table = .ok table ∧
        (∀ category, table.values category =
          tableA.values category ++ tableB.values category) ∧
        table.len = tableA.len + tableB.len) ∧
    (ofText (a ++ b)).events =
      (ofText a).events ++ (ofText b).events.map (Event.renumbered (· + a.toList.count '\n')) := by
  rw [ofText_append_eq a b hend ha]
  refine ⟨fun error => ?_, fun tableB hb => ?_, rfl⟩
  · rw [behind, renumbered]
    cases (ofText b).table <;> simp [table, Except.map]
  · refine ⟨tableA.append tableB, ?_, tableA.values_append tableB, tableA.len_append tableB⟩
    rw [behind, renumbered, hb]
    rfl

/-- A malformed line behind one record is the second line of the whole text. -/
theorem ofText_append_malformed :
    ("0041;A;Lu\n".toList.getLast? = some '\n' ∧
      (ofText "0041;A;Lu\n").table = .ok ⟨[⟨0x41, 0x41, "Lu"⟩]⟩) ∧
    (ofText ("0041;A;Lu\n" ++ "x\n0042;B;Lu")).events = [.lineSkipped 2 "x"] := by
  have hend : "0041;A;Lu\n".toList.getLast? = some '\n' := by rfl
  have htable : (ofText "0041;A;Lu\n").table = .ok ⟨[⟨0x41, 0x41, "Lu"⟩]⟩ := by rfl
  refine ⟨⟨hend, htable⟩, ?_⟩
  rw [(ofText_append _ "x\n0042;B;Lu" _ hend htable).2.2]
  rfl

end Reading

end BitClassifier
