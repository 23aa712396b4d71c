import BitClassifier.Proofs.Table.LineNumbers

/-!
# Ends of lines

It does not matter for a data file how its lines end: with a line feed, a carriage return or the two
of them, each line in its own way (`Reading.ofText_restyled`). A carriage return that comes to stand
in front of a line feed forms one end of a line with it, which takes an empty line out of the text,
and an empty line contributes nothing (`taken_return`).
-/

namespace BitClassifier

/-- How a line may end. -/
inductive LineEnd where
  | feed
  | pair
  | lone
deriving DecidableEq, Repr

namespace LineEnd

/-- The characters at the end of a line. -/
def chars : LineEnd → List Char
  | feed => ['\n']
  | pair => ['\r', '\n']
  | lone => ['\r']

/-- By how much the end of a line raises the number of the next one. -/
def feeds : LineEnd → Nat
  | feed => 1
  | pair => 1
  | lone => 0

end LineEnd

/-- A row of characters with its line feeds replaced, the first one by `ends 0`, the next one by
`ends 1` and so on. -/
def restyle (ends : Nat → LineEnd) : List Char → List Char
  | [] => []
  | c :: cs =>
    if c = '\n' then (ends 0).chars ++ restyle (fun i => ends (i + 1)) cs
    else c :: restyle ends cs

/-- A text with its line feeds replaced. -/
def restyled (ends : Nat → LineEnd) (text : String) : String :=
  String.ofList (restyle ends text.toList)

/-- A report without the number of its line. -/
def Event.unnumbered : Event → Event :=
  Event.renumbered fun _ => 0

namespace Line

variable {number m n : Nat} {begun cs : List Char} {c : Char}

/-- What the lines of a text contribute, where `number` and `begun` belong to the first line as in
`Line.split`. -/
def taken (number : Nat) (begun cs : List Char) : List Contribution :=
  (split number begun cs).flatMap contributions

theorem taken_nil : taken number begun [] = contributions ⟨number, begun.reverse⟩ := by
  simp [taken, split]

theorem taken_feed :
    taken number begun ('\n' :: cs) =
      contributions ⟨number, begun.reverse⟩ ++ taken (number + 1) [] cs := by
  simp [taken, split]

/-- A carriage return ends a line by itself, whatever follows: the line feed behind it may be taken
for the end of an empty line. -/
theorem taken_return :
    taken number begun ('\r' :: cs) =
      contributions ⟨number, begun.reverse⟩ ++ taken number [] cs := by
  have hempty : contributions ⟨number, []⟩ = [] := rfl
  by_cases hfeed : ∃ rest, cs = '\n' :: rest
  · obtain ⟨rest, rfl⟩ := hfeed
    rw [taken_feed, List.reverse_nil, hempty, List.nil_append]
    simp [taken, split]
  · rw [taken, split.eq_3 _ _ _ fun rest h => hfeed ⟨rest, h⟩]
    rfl

theorem taken_inner (hreturn : c ≠ '\r') (hfeed : c ≠ '\n') :
    taken number begun (c :: cs) = taken number (c :: begun) cs := by
  rw [taken, split.eq_5 _ _ _ _ (fun _ h => absurd h hreturn) hreturn hfeed, taken]

theorem taken_end (e : LineEnd) :
    taken number begun (e.chars ++ cs) =
      contributions ⟨number, begun.reverse⟩ ++ taken (number + e.feeds) [] cs := by
  have hempty : contributions ⟨number, []⟩ = [] := rfl
  cases e with
  | feed => exact taken_feed
  | pair =>
    rw [LineEnd.chars, List.cons_append, List.cons_append, taken_return, taken_feed,
      List.reverse_nil, hempty]
    rfl
  | lone => exact taken_return

/-- Replaced line feeds do not show where the numbers are only looked at through `f`, if `f` does
not tell the number behind an end of a line from the one that it should be. -/
theorem taken_restyle {f : Nat → Nat} (ends : Nat → LineEnd)
    (hf : ∀ i m n, f m = f n → f (m + (ends i).feeds) = f (n + 1)) (begun cs : List Char)
    (hnumber : f m = f n) :
    (taken m begun (restyle ends cs)).map (Contribution.renumbered f) =
      (taken n begun cs).map (Contribution.renumbered f) := by
  have hline (text : List Char) {m n : Nat} (h : f m = f n) :
      (contributions ⟨m, text⟩).map (Contribution.renumbered f) =
        (contributions ⟨n, text⟩).map (Contribution.renumbered f) := by
    rw [← contributions_renumbered, ← contributions_renumbered, h]
  induction cs generalizing ends m n begun with
  | nil =>
    rw [restyle, taken_nil, taken_nil]
    exact hline _ hnumber
  | cons c cs ih =>
    rw [restyle]
    split
    · rename_i hfeed
      subst hfeed
      rw [taken_end, taken_feed, List.map_append, List.map_append, hline _ hnumber,
        ih _ (fun i => hf (i + 1)) [] (hf 0 m n hnumber)]
    · rename_i hfeed
      by_cases hreturn : c = '\r'
      · subst hreturn
        rw [taken_return, taken_return, List.map_append, List.map_append, hline _ hnumber,
          ih ends hf [] hnumber]
      · rw [taken_inner hreturn hfeed, taken_inner hreturn hfeed]
        exact ih ends hf (c :: begun) hnumber

end Line

namespace Reading

theorem ofText_eq_taken (text : String) :
    ofText text = ofContributions none (Line.taken 1 [] text.toList) := by
  rw [ofText, ofLines_eq, Line.ofText, Line.taken]

theorem renumbered_restyled {f : Nat → Nat} (ends : Nat → LineEnd)
    (hf : ∀ i m n, f m = f n → f (m + (ends i).feeds) = f (n + 1)) (text : String) :
    (ofText (restyled ends text)).renumbered f = (ofText text).renumbered f := by
  rw [ofText_eq_taken, ofText_eq_taken, restyled, String.toList_ofList,
    ← ofContributions_renumbered, ← ofContributions_renumbered, Line.taken_restyle ends hf _ _ rfl]

theorem renumbered_id (x : Reading) : x.renumbered id = x := by
  have hid : Event.renumbered id = id := by
    funext e
    cases e <;> rfl
  rw [renumbered, hid, List.map_id]

/-- A text can be written with any ends of lines, each line with its own. It is read with the same
error or into the same table, so every category has the same values in the same order. What is
reported is the same but for the numbers of lines, and if no line ends with a lone carriage return,
these are the same as well. -/
theorem ofText_restyled (ends : Nat → LineEnd) (text : String) :
    (ofText (restyled ends text)).table = (ofText text).table ∧
    (ofText (restyled ends text)).events.map Event.unnumbered =
      (ofText text).events.map Event.unnumbered ∧
    ((∀ i, ends i ≠ .lone) → ofText (restyled ends text) = ofText text) := by
  have hsame := renumbered_restyled (f := fun _ => 0) ends (fun _ _ _ _ => rfl) text
  rw [renumbered, renumbered, Reported.mk.injEq] at hsame
  refine ⟨hsame.2, hsame.1, fun hends => ?_⟩
  have hfeeds : ∀ i m n, id m = id n → id (m + (ends i).feeds) = id (n + 1) := by
    intro i m n h
    have hi := hends i
    cases hend : ends i with
    | lone => exact absurd hend hi
    | feed | pair => exact congrArg (· + 1) h
  rw [← renumbered_id (ofText _), renumbered_restyled ends hfeeds, renumbered_id]

/-- The empty line between two records is lost, since its two ends become one. -/
example :
    restyled (fun i => if i = 0 then .lone else .feed) "41;A;Lu\n\n42;B;Lu" =
      "41;A;Lu\r\n42;B;Lu" := by decide

end Reading

end BitClassifier
