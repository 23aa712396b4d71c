import BitClassifier.Proofs.Ascending
import BitClassifier.Proofs.Table.Blocks
import Mathlib.Algebra.BigOperators.Ring.Finset

/-!
# Categories and their unions

Every value of a table belongs to one of its categories (`Table.sum_lengths`). Filtering a table by
a list of names gives the union of the named categories as an increasing list, so it does not depend
on the order of the names and on their repetitions, and lists of names can be put together
(`Table.filter_unites`).
-/

namespace BitClassifier

namespace Table

variable {t : Table} {name spec other : String} {v : CodeValue}

/-! ### Categories -/

theorem mem_categories_iff : name ∈ t.categories ↔ name ∈ t.blocks.map (·.category) := by
  rw [categories, mem_eraseReps, List.mem_mergeSort]

theorem pairwise_categories (t : Table) : t.categories.Pairwise (· < ·) :=
  pairwise_lt_eraseReps (pairwise_mergeSort _)

theorem hasCategory_iff : t.hasCategory name = true ↔ name ∈ t.categories := by
  simp [hasCategory, mem_categories_iff]

theorem values_cons (b : Block) (blocks : List Block) (name : String) :
    values ⟨b :: blocks⟩ name =
      (if b.category = name then b.values else []) ++ values ⟨blocks⟩ name := by
  by_cases h : b.category = name <;> simp [values, h]

/-- The categories that are no categories of a table have no values. -/
theorem values_of_not_mem (h : name ∉ t.categories) : t.values name = [] := by
  rw [mem_categories_iff, List.mem_map] at h
  rw [values, List.filter_eq_nil_iff.mpr fun b hb hname => h ⟨b, hb, eq_of_beq hname⟩]
  rfl

theorem mem_categories_of_mem_values (h : v ∈ t.values name) : name ∈ t.categories := by
  by_contra hname
  rw [values_of_not_mem hname] at h
  cases h

theorem sum_length_values (t : Table) (s : Finset String) (h : ∀ b ∈ t.blocks, b.category ∈ s) :
    ∑ name ∈ s, (t.values name).length = t.len := by
  obtain ⟨blocks⟩ := t
  induction blocks with
  | nil => simp [values, len]
  | cons b blocks ih =>
    obtain ⟨hb, hblocks⟩ := List.forall_mem_cons.mp h
    have hlen : len ⟨b :: blocks⟩ = b.size + len ⟨blocks⟩ := rfl
    have hfirst : ∑ name ∈ s, (if b.category = name then b.values else []).length = b.size := by
      simp only [apply_ite List.length, Block.length_values, List.length_nil, Finset.sum_ite_eq,
        if_pos hb]
    simp only [values_cons, List.length_append, Finset.sum_add_distrib]
    rw [hfirst, ih hblocks, hlen]

/-- The values of the categories are all values. -/
theorem sum_lengths (t : Table) :
    (t.categories.map fun name => (t.values name).length).sum = t.len := by
  have hnodup : t.categories.Nodup := (pairwise_categories t).nodup
  rw [← List.sum_toFinset _ hnodup]
  refine t.sum_length_values _ fun b hb => ?_
  rw [List.mem_toFinset, mem_categories_iff]
  exact List.mem_map_of_mem hb

/-! ### Names in a list -/

/-- The pieces of a text between its commas. -/
def Pieces (spec : String) (pieces : List String) : Prop :=
  pieces ≠ [] ∧ (∀ piece ∈ pieces, ',' ∉ piece.toList) ∧ ",".intercalate pieces = spec

/-- A text without white space at its ends. -/
def trimmed (piece : String) : String :=
  String.ofList (Blank.trim piece.toList)

theorem toList_comma : ",".toList = [','] := by simp

theorem not_mem_of_mem_splitOn {cs piece : List Char} {sign : Char}
    (h : piece ∈ cs.splitOn sign) : sign ∉ piece := by
  induction cs generalizing piece with
  | nil =>
    rw [List.splitOn_nil, List.mem_singleton] at h
    rw [h]
    exact List.not_mem_nil
  | cons c cs ih =>
    rw [List.splitOn_cons_eq_if_modifyHead] at h
    split at h
    · rcases List.mem_cons.mp h with rfl | h
      · exact List.not_mem_nil
      · exact ih h
    · rename_i hc
      obtain ⟨first, rest, hsplit⟩ := List.exists_cons_of_ne_nil (List.splitOn_ne_nil sign cs)
      rw [hsplit, List.modifyHead_cons] at h
      rcases List.mem_cons.mp h with rfl | h
      · rw [List.mem_cons, not_or]
        exact ⟨fun hsign => hc (by simp [hsign]), ih (hsplit ▸ List.mem_cons_self)⟩
      · exact ih (hsplit ▸ List.mem_cons_of_mem _ h)

/-- A text has pieces in one way. -/
theorem pieces_iff {pieces : List String} :
    Pieces spec pieces ↔ pieces = (spec.toList.splitOn ',').map String.ofList := by
  constructor
  · rintro ⟨hne, hcommas, rfl⟩
    rw [String.toList_intercalate, toList_comma, List.splitOn_intercalate]
    · simp
    · exact List.forall_mem_map.mpr hcommas
    · simpa using hne
  · rintro rfl
    refine ⟨by simp, ?_, ?_⟩
    · refine List.forall_mem_map.mpr fun piece hpiece => ?_
      rw [String.toList_ofList]
      exact not_mem_of_mem_splitOn hpiece
    · have hparts : ((spec.toList.splitOn ',').map String.ofList).map String.toList =
          spec.toList.splitOn ',' := by
        simp [Function.comp_def]
      rw [← String.toList_inj, String.toList_intercalate, toList_comma, hparts,
        List.intercalate_splitOn]

theorem names_eq {pieces : List String} (h : Pieces spec pieces) :
    names spec = pieces.map trimmed := by
  rw [pieces_iff.mp h, names, List.map_map]
  exact List.map_congr_left fun piece _ => by
    rw [Function.comp_apply, trimmed, String.toList_ofList]

theorem names_append (spec other : String) :
    names (spec ++ "," ++ other) = names spec ++ names other := by
  have hsplit : (spec ++ "," ++ other).toList.splitOn ',' =
      spec.toList.splitOn ',' ++ other.toList.splitOn ',' := by
    rw [String.toList_append, String.toList_append, toList_comma, List.append_assoc,
      List.singleton_append, List.splitOn_append_cons_self]
  rw [names, hsplit, List.map_append]
  rfl

/-! ### Unions -/

theorem mem_filter_iff : v ∈ t.filter spec ↔ ∃ name ∈ names spec, v ∈ t.values name := by
  rw [filter, mem_ascending, List.mem_flatMap]

theorem filter_congr (h : ∀ name, name ∈ names other ↔ name ∈ names spec) :
    t.filter other = t.filter spec := by
  refine ascending_congr fun v => ?_
  simp only [List.mem_flatMap, h]

theorem filter_append (t : Table) (spec other : String) :
    t.filter (spec ++ "," ++ other) = ascending (t.filter spec ++ t.filter other) := by
  refine ascending_congr fun v => ?_
  rw [names_append, List.flatMap_append, List.mem_append, List.mem_append, filter, filter,
    mem_ascending, mem_ascending]

theorem filterEvents_eq (t : Table) (spec : String) :
    t.filterEvents spec =
      ((names spec).filter fun name => decide (name ∉ t.categories)).map .categoryUndefined := by
  have hsame (name : String) : (!t.hasCategory name) = decide (name ∉ t.categories) := by
    rw [Bool.eq_iff_iff, decide_eq_true_iff, ← hasCategory_iff]
    simp
  simp only [filterEvents, undefinedNames, hsame]

/-- In a table that was read no category is without a name. -/
theorem not_mem_categories_empty {text : String} (h : (Reading.ofText text).table = .ok t) :
    "" ∉ t.categories := by
  obtain ⟨records, hrecords⟩ := exists_recordsOf text
  have hrecords := (hrecords records).mpr rfl
  rw [mem_categories_iff, (Reading.makes_of_text h hrecords).mem_categories_iff]
  rintro ⟨i, r, hr, -, hcategory⟩
  exact hrecords.category_ne (List.mem_of_getElem? hr) hcategory

/-- Filtering a table that was read by a list of names gives an increasing list. It has the values
of every piece of the list that is a category but for white space at its ends, and every other
piece is reported, in order; an empty piece is no category. Lists with a comma between them give
the union of what they give by themselves. The order of the pieces and their repetitions do not
matter. -/
theorem filter_unites {text : String} (h : (Reading.ofText text).table = .ok t) (spec : String) :
    ∃ pieces, (∀ ps, Pieces spec ps ↔ ps = pieces) ∧
      (t.filter spec).Pairwise (· < ·) ∧
      (∀ v, v ∈ t.filter spec ↔
        ∃ piece ∈ pieces, trimmed piece ∈ t.categories ∧ v ∈ t.values (trimmed piece)) ∧
      t.filterEvents spec = ((pieces.map trimmed).filter fun name =>
        decide (name ∉ t.categories)).map .categoryUndefined ∧
      "" ∉ t.categories ∧
      (∀ other, t.filter (spec ++ "," ++ other) = ascending (t.filter spec ++ t.filter other)) ∧
      ∀ other others, Pieces other others → (∀ piece, piece ∈ others ↔ piece ∈ pieces) →
        t.filter other = t.filter spec := by
  obtain ⟨pieces, hpieces⟩ : ∃ pieces, ∀ ps, Pieces spec ps ↔ ps = pieces :=
    ⟨_, fun ps => pieces_iff⟩
  have hnames := names_eq ((hpieces pieces).mpr rfl)
  refine ⟨pieces, hpieces, pairwise_lt_ascending _, fun v => ?_, ?_,
    not_mem_categories_empty h, t.filter_append spec, fun other others hothers hsame => ?_⟩
  · rw [mem_filter_iff, hnames]
    constructor
    · rintro ⟨name, hname, hv⟩
      obtain ⟨piece, hpiece, rfl⟩ := List.mem_map.mp hname
      exact ⟨piece, hpiece, mem_categories_of_mem_values hv, hv⟩
    · rintro ⟨piece, hpiece, -, hv⟩
      exact ⟨trimmed piece, List.mem_map_of_mem hpiece, hv⟩
  · rw [filterEvents_eq, hnames]
  · refine filter_congr fun name => ?_
    rw [hnames, names_eq hothers, List.mem_map, List.mem_map]
    simp only [hsame]

/-- A list in another order and with a repetition. The category on the closing line of the range is
none of the table. -/
theorem filter_unites_reordered :
    let t : Table := ⟨[⟨0x41, 0x41, "Lu"⟩, ⟨0x61, 0x61, "Ll"⟩, ⟨0x40, 0x42, "Lu"⟩]⟩
    (Reading.ofText "41;A;Lu\n61;a;Ll\n40;<X, First>;Lu\n42;<X, Last>;Lo").table = .ok t ∧
      t.filter "Ll,Lu,Lu,Lo" = t.filter "Lu,Lo,Ll" ∧
      t.filterEvents "Lu,Lo,Ll" = [.categoryUndefined "Lo"] ∧ 0x41 ∈ t.filter "Lu,Lo,Ll" := by
  intro t
  have ht : (Reading.ofText "41;A;Lu\n61;a;Ll\n40;<X, First>;Lu\n42;<X, Last>;Lo").table =
      .ok t := by rfl
  obtain ⟨pieces, hpieces, -, hmem, hevents, -, -, hsame⟩ := filter_unites ht "Lu,Lo,Ll"
  obtain rfl : ["Lu", "Lo", "Ll"] = pieces :=
    (hpieces _).mp ⟨by decide, by decide, by decide⟩
  have hcategory (name : String) : name ∈ t.categories ↔ name ∈ ["Lu", "Ll", "Lu"] :=
    mem_categories_iff
  have hpieces : ["Lu", "Lo", "Ll"].map trimmed = ["Lu", "Lo", "Ll"] := by decide
  refine ⟨ht, hsame _ ["Ll", "Lu", "Lu", "Lo"] ⟨by decide, by decide, by decide⟩ ?_, ?_, ?_⟩
  · intro piece
    simp only [List.mem_cons, List.not_mem_nil, or_false]
    tauto
  · rw [hevents, hpieces]
    simp [hcategory]
  · exact (hmem _).mpr ⟨"Lu", by decide, (hcategory _).mpr (by decide), by decide⟩

end Table

end BitClassifier
