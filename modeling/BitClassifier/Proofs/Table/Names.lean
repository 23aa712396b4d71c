import BitClassifier.Emit.Generator
import BitClassifier.Proofs.Table.Contributions

/-!
# Names of categories and of classifiers

The categories of a table that was read have alphanumeric names (`Reading.ofText_alphanumeric`). The
name of a classifier is made of the names in its argument, and as long as those are alphanumeric they
can be told from it again (`Table.names_eq_of_classifierName_eq`): arguments with one classifier name
then ask for the same categories.
-/

namespace BitClassifier

/-! ### Categories that are read -/

/-- Whether the names of the categories of a table are alphanumeric. -/
def Table.Alphanumeric (t : Table) : Prop :=
  ∀ b ∈ t.blocks, b.category.toList.all Char.isAlphanum = true

/-- The record of a line has an alphanumeric category. -/
theorem Line.alphanumeric_of_mem_contributions {line : Line} {r : Record}
    (h : .entry r ∈ line.contributions) : r.category.toList.all Char.isAlphanum = true := by
  obtain ⟨s, rfl⟩ := exists_spelling h
  simpa [Record.Spelling.record] using s.alphanumeric

namespace Reading

theorem alphanumeric_add {b : Block} {x : Reading} {t : Table} (h : (x.add b).table = .ok t)
    (hb : b.category.toList.all Char.isAlphanum = true)
    (hx : ∀ u, x.table = .ok u → u.Alphanumeric) : t.Alphanumeric := by
  obtain ⟨u, hu, rfl⟩ := add_eq_ok h
  exact List.forall_mem_cons.mpr ⟨hb, hx u hu⟩

/-- The categories come from the entries and from the range that has begun. -/
theorem ofContributions_alphanumeric {opened : Option (CodeValue × String)}
    {cs : List Contribution} {t : Table}
    (hentries : ∀ r, .entry r ∈ cs → r.category.toList.all Char.isAlphanum = true)
    (hopened : ∀ range ∈ opened, range.2.toList.all Char.isAlphanum = true)
    (h : (ofContributions opened cs).table = .ok t) : t.Alphanumeric := by
  induction cs generalizing opened t with
  | nil =>
    cases opened with
    | none =>
      cases h
      exact fun b hb => by cases hb
    | some range => cases h
  | cons c cs ih =>
    have hrest (r : Record) (hr : .entry r ∈ cs) := hentries r (List.mem_cons_of_mem _ hr)
    cases c with
    | malformed number text => exact ih hrest hopened h
    | entry r =>
      have hr := hentries r (List.mem_cons_self ..)
      have hnone : ∀ u, (ofContributions none cs).table = .ok u → u.Alphanumeric :=
        fun u => ih hrest (by simp)
      rw [ofContributions, ofEntry] at h
      split at h
      · cases h
      · cases opened with
        | none =>
          dsimp only at h
          split at h
          · exact ih hrest (by simpa using hr) h
          · exact alphanumeric_add h hr hnone
        | some range =>
          dsimp only at h
          split at h
          · cases h
          · exact alphanumeric_add h (hopened range rfl) hnone

theorem ofText_alphanumeric {text : String} {t : Table} (h : (ofText text).table = .ok t) :
    t.Alphanumeric := by
  rw [ofText, ofLines_eq] at h
  refine ofContributions_alphanumeric (fun r hr => ?_) (by simp) h
  obtain ⟨line, -, hline⟩ := List.mem_flatMap.mp hr
  exact Line.alphanumeric_of_mem_contributions hline

theorem ofFile_alphanumeric {path : String} {text : Except FileError String} {t : Table}
    (h : (ofFile path text).table = .ok t) : t.Alphanumeric := by
  cases text with
  | error reason => cases h
  | ok text =>
    rw [ofFile] at h
    cases hread : (ofText text).table with
    | error e => simp [hread] at h
    | ok u =>
      simp only [hread] at h
      split at h
      · cases h
      · cases h
        exact ofText_alphanumeric hread

end Reading

/-! ### Names of classifiers -/

/-- What the name of a classifier takes over from an argument. -/
def squeeze (cs : List Char) : List Char :=
  (cs.filter fun c => !Blank.isSpace c).map fun c => if c = ',' then '_' else c

theorem classifierName_eq (spec : String) :
    classifierName spec = "uniclass_" ++ String.ofList (squeeze spec.toList) := rfl

theorem squeeze_append (xs ys : List Char) : squeeze (xs ++ ys) = squeeze xs ++ squeeze ys := by
  simp [squeeze]

theorem squeeze_comma : squeeze [','] = ['_'] := by decide

theorem squeeze_of_space {cs : List Char} (h : cs.all Blank.isSpace = true) : squeeze cs = [] := by
  simpa [squeeze] using h

/-- A comma between two parts becomes an underscore. -/
theorem squeeze_intercalate (parts : List (List Char)) :
    squeeze ([','].intercalate parts) = ['_'].intercalate (parts.map squeeze) := by
  induction parts with
  | nil => rfl
  | cons part parts ih =>
    cases parts with
    | nil => simp
    | cons part' parts =>
      rw [List.intercalate_cons_cons, squeeze_append, squeeze_append, squeeze_comma, ih]
      simp only [List.map_cons, List.intercalate_cons_cons]

theorem isSpace_of_isAlphanum (c : Char) (h : c.isAlphanum = true) : Blank.isSpace c = false := by
  have hcode : ((65 ≤ c.toNat ∧ c.toNat ≤ 90) ∨ (97 ≤ c.toNat ∧ c.toNat ≤ 122)) ∨
      (48 ≤ c.toNat ∧ c.toNat ≤ 57) := by
    obtain halpha | hdigit := Bool.or_eq_true_iff.mp h
    · obtain hupper | hlower := Bool.or_eq_true_iff.mp halpha
      · exact .inl (.inl (of_decide_eq_true hupper))
      · exact .inl (.inr ((Bool.and_eq_true_iff.mp hlower).imp of_decide_eq_true of_decide_eq_true))
    · exact .inr ((Bool.and_eq_true_iff.mp hdigit).imp of_decide_eq_true of_decide_eq_true)
  simp only [Blank.isSpace, Bool.or_eq_false_iff, Bool.and_eq_false_iff, beq_eq_false_iff_ne,
    decide_eq_false_iff_not]
  omega

theorem mem_intercalate {c sign : Char} {parts : List (List Char)}
    (h : c ∈ [sign].intercalate parts) : c = sign ∨ ∃ part ∈ parts, c ∈ part := by
  induction parts with
  | nil => cases h
  | cons part parts ih =>
    cases parts with
    | nil => exact .inr ⟨part, List.mem_cons_self .., by simpa using h⟩
    | cons part' parts =>
      rw [List.intercalate_cons_cons, List.append_assoc, List.mem_append, List.mem_append,
        List.mem_singleton] at h
      obtain h | h | h := h
      · exact .inr ⟨part, List.mem_cons_self .., h⟩
      · exact .inl h
      · obtain h | ⟨part'', hpart, hc⟩ := ih h
        · exact .inl h
        · exact .inr ⟨part'', List.mem_cons_of_mem _ hpart, hc⟩

/-- A name is what is left of its part without white space at the ends. -/
theorem exists_trim (cs : List Char) :
    ∃ lead trail, lead.all Blank.isSpace = true ∧ trail.all Blank.isSpace = true ∧
      cs = lead ++ (Blank.trim cs ++ trail) := by
  have hback := @List.takeWhile_append_dropWhile _ Blank.isSpace (cs.dropWhile Blank.isSpace).reverse
  refine ⟨cs.takeWhile Blank.isSpace,
    ((cs.dropWhile Blank.isSpace).reverse.takeWhile Blank.isSpace).reverse,
    List.all_takeWhile, by rw [List.all_reverse, List.all_takeWhile], ?_⟩
  rw [Blank.trim, ← List.reverse_append, hback, List.reverse_reverse,
    List.takeWhile_append_dropWhile]

theorem squeeze_of_alphanumeric {cs : List Char} (h : cs.all Char.isAlphanum = true) :
    squeeze cs = cs := by
  have hkept : ∀ c ∈ cs, (!Blank.isSpace c) = true ∧ (if c = ',' then '_' else c) = c := by
    intro c hc
    have hc := List.all_eq_true.mp h c hc
    refine ⟨by rw [isSpace_of_isAlphanum c hc, Bool.not_false], if_neg ?_⟩
    rintro rfl
    exact absurd hc (by decide)
  rw [squeeze, List.filter_eq_self.mpr fun c hc => (hkept c hc).1]
  exact (List.map_congr_left fun c hc => (hkept c hc).2).trans (List.map_id cs)

/-- An alphanumeric name is taken over without the white space around it. -/
theorem squeeze_eq_trim {cs : List Char} (h : (Blank.trim cs).all Char.isAlphanum = true) :
    squeeze cs = Blank.trim cs := by
  obtain ⟨lead, trail, hlead, htrail, hcs⟩ := exists_trim cs
  have hsqueeze := congrArg squeeze hcs
  rw [squeeze_append, squeeze_append, squeeze_of_space hlead, squeeze_of_space htrail,
    squeeze_of_alphanumeric h] at hsqueeze
  simpa using hsqueeze

namespace Table

/-- Whether all names in a list are alphanumeric. -/
def NamesAlphanumeric (spec : String) : Prop :=
  ∀ name ∈ names spec, name.toList.all Char.isAlphanum = true

/-- An argument whose names are categories of a table has alphanumeric names. -/
theorem namesAlphanumeric_of_defined {t : Table} {spec : String} (ht : t.Alphanumeric)
    (h : t.undefinedNames spec = []) : NamesAlphanumeric spec := by
  intro name hname
  have hdefined := List.filter_eq_nil_iff.mp h name hname
  obtain ⟨b, hb, hcategory⟩ : ∃ b ∈ t.blocks, b.category = name := by
    simpa [hasCategory] using hdefined
  exact hcategory ▸ ht b hb

/-- The name of a classifier is made of the names in its argument. -/
theorem toList_classifierName {spec : String} (h : NamesAlphanumeric spec) :
    (classifierName spec).toList =
      "uniclass_".toList ++ ['_'].intercalate ((names spec).map String.toList) := by
  have hparts : (spec.toList.splitOn ',').map squeeze = (names spec).map String.toList := by
    rw [names, List.map_map]
    refine List.map_congr_left fun part hpart => ?_
    have hname := h _ (List.mem_map_of_mem hpart)
    rw [String.toList_ofList] at hname
    rw [Function.comp_apply, String.toList_ofList, squeeze_eq_trim hname]
  have hrest : squeeze spec.toList = ['_'].intercalate ((names spec).map String.toList) := by
    rw [← hparts, ← squeeze_intercalate, List.intercalate_splitOn]
  rw [classifierName_eq, String.toList_append, hrest]
  exact congrArg _ String.toList_ofList

/-- Arguments with one classifier name have the same names, if those are alphanumeric. -/
theorem names_eq_of_classifierName_eq {spec other : String} (hspec : NamesAlphanumeric spec)
    (hother : NamesAlphanumeric other) (h : classifierName other = classifierName spec) :
    names other = names spec := by
  have hsplit {spec : String} (h : NamesAlphanumeric spec) :
      (['_'].intercalate ((names spec).map String.toList)).splitOn '_' =
        (names spec).map String.toList := by
    refine List.splitOn_intercalate '_' (fun cs hcs hmem => ?_) ?_
    · obtain ⟨name, hname, rfl⟩ := List.mem_map.mp hcs
      exact absurd (List.all_eq_true.mp (h name hname) _ hmem) (by decide)
    · simp [names, List.splitOn_ne_nil]
  have hchars := congrArg String.toList h
  rw [toList_classifierName hother, toList_classifierName hspec,
    List.append_cancel_left_eq] at hchars
  have hnames := congrArg (List.splitOn '_') hchars
  rw [hsplit hother, hsplit hspec] at hnames
  exact (List.map_inj_right fun _ _ => String.toList_inj.mp).mp hnames

theorem filter_eq_of_classifierName_eq (t : Table) {spec other : String}
    (hspec : NamesAlphanumeric spec) (hother : NamesAlphanumeric other)
    (h : classifierName other = classifierName spec) : t.filter other = t.filter spec := by
  rw [filter, filter, names_eq_of_classifierName_eq hspec hother h]

/-- Every character of an argument belongs to a name or stands between two names. -/
theorem chars_of_names {spec : String} (h : NamesAlphanumeric spec) :
    ∀ c ∈ spec.toList, c.isAlphanum = true ∨ Blank.isSpace c = true ∨ c = ',' := by
  intro c hc
  rw [← @List.intercalate_splitOn _ spec.toList _ _ ','] at hc
  obtain rfl | ⟨part, hpart, hc⟩ := mem_intercalate hc
  · exact .inr (.inr rfl)
  · obtain ⟨lead, trail, hlead, htrail, heq⟩ := exists_trim part
    have hname := h _ (List.mem_map_of_mem hpart)
    rw [String.toList_ofList] at hname
    rw [heq, List.mem_append, List.mem_append] at hc
    obtain hc | hc | hc := hc
    · exact .inr (.inl (List.all_eq_true.mp hlead c hc))
    · exact .inl (List.all_eq_true.mp hname c hc)
    · exact .inr (.inl (List.all_eq_true.mp htrail c hc))

end Table

end BitClassifier
