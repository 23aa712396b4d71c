import BitClassifier.Proofs.Table.Append
import BitClassifier.Proofs.Table.Categories
import BitClassifier.Table.Store

/-!
# What is stored

If names are kept as they should be (`Interner.Lawful`), a store represents a table: every category
is known by a symbol, and its values are found under that symbol (`Store.Represents`). While a range
is open, its category may be known without having values, and no other category may. Every record
keeps this, so a text is stored as it is read (`Store.agrees_ofText`), and a store that was read is
consistent in itself (`Store.ofText_consistent`).
-/

namespace BitClassifier

/-! ### Keeping names -/

namespace Interner

/-- Names are kept as they should be: there are none at first, a name that comes again has the
symbol that it had, and no symbol is ever taken from its name. -/
structure Lawful {Symbol Names : Type} (I : Interner Symbol Names) : Prop where
  get?_empty : ∀ name, I.get? I.empty name = none
  get?_intern : ∀ ns name other, I.get? (I.intern ns name).2 other =
    if other = name then some (I.intern ns name).1 else I.get? ns other
  intern_of_get? : ∀ {ns name s}, I.get? ns name = some s → (I.intern ns name).1 = s
  resolve?_intern : ∀ ns name, I.resolve? (I.intern ns name).2 (I.intern ns name).1 = some name
  resolve?_intern_of_resolve? : ∀ {ns name other s}, I.resolve? ns s = some other →
    I.resolve? (I.intern ns name).2 s = some other

theorem idxOf?_append_singleton {names : List String} {name : String} (h : name ∉ names)
    (other : String) :
    (names ++ [name]).idxOf? other =
      if other = name then some names.length else names.idxOf? other := by
  induction names with
  | nil =>
    rw [List.nil_append, List.idxOf?_cons]
    by_cases hname : other = name
    · simp [hname]
    · simp [hname, Ne.symm hname]
  | cons first names ih =>
    rw [List.mem_cons, not_or] at h
    rw [List.cons_append, List.idxOf?_cons, List.idxOf?_cons, ih h.2]
    by_cases hname : other = name
    · simp [hname, Ne.symm h.1]
    · simp [hname]

/-- A name is on the list already, or it is put at the end. -/
theorem listed_intern_cases (names : List String) (name : String) :
    (∃ place, names.idxOf? name = some place ∧ listed.intern names name = (place, names)) ∨
      name ∉ names ∧ listed.intern names name = (names.length, names ++ [name]) := by
  cases h : names.idxOf? name with
  | some place => exact .inl ⟨place, rfl, by simp [listed, h]⟩
  | none => exact .inr ⟨List.idxOf?_eq_none_iff.mp h, by simp [listed, h]⟩

theorem listed_lawful : listed.Lawful where
  get?_empty name := rfl
  get?_intern names name other := by
    rcases listed_intern_cases names name with ⟨place, hplace, h⟩ | ⟨hname, h⟩
    · by_cases hother : other = name
      · rw [h, if_pos hother, hother]
        exact hplace
      · rw [h, if_neg hother]
    · rw [h]
      exact idxOf?_append_singleton hname other
  intern_of_get? {names name s} hs := by
    rcases listed_intern_cases names name with ⟨place, hplace, h⟩ | ⟨hname, -⟩
    · rw [h]
      exact Option.some.inj (hplace.symm.trans hs)
    · cases (List.idxOf?_eq_none_iff.mpr hname).symm.trans hs
  resolve?_intern names name := by
    rcases listed_intern_cases names name with ⟨place, hplace, h⟩ | ⟨-, h⟩
    · obtain ⟨hlt, hget, -⟩ := List.idxOf?_eq_some_iff.mp hplace
      rw [h]
      exact List.getElem?_eq_some_iff.mpr ⟨hlt, hget⟩
    · rw [h]
      exact List.getElem?_concat_length
  resolve?_intern_of_resolve? {names name other s} hs := by
    rcases listed_intern_cases names name with ⟨place, -, h⟩ | ⟨-, h⟩
    · rw [h]
      exact hs
    · rw [h]
      obtain ⟨hlt, -⟩ := List.getElem?_eq_some_iff.mp hs
      exact (List.getElem?_append_left hlt).trans hs

end Interner

/-! ### Outcomes -/

namespace Reported

variable {α β γ : Type}

theorem ok_andThen (a : α) (rest : α → Reported β) : (ok a).andThen rest = rest a := rfl

theorem report_andThen (events : List Event) (x : Reported α) (rest : α → Reported β) :
    (x.report events).andThen rest = (x.andThen rest).report events := by
  obtain ⟨events', result⟩ := x
  cases result with
  | error e => rfl
  | ok a => simp [report, andThen]

theorem andThen_assoc (x : Reported α) (f : α → Reported β) (g : β → Reported γ) :
    (x.andThen f).andThen g = x.andThen fun a => (f a).andThen g := by
  obtain ⟨events, result⟩ := x
  cases result with
  | error e => rfl
  | ok a => exact report_andThen events (f a) g

end Reported

namespace Reading

theorem behind_report (t : Table) (events : List Event) (x : Reading) :
    behind [] t (x.report events) = (behind [] t x).report events := rfl

/-- A block in front of what follows a table may be put at the end of the table. -/
theorem behind_add (t : Table) (b : Block) (x : Reading) :
    behind [] t (x.add b) = behind [] (t.append ⟨[b]⟩) x := by
  obtain ⟨events, table⟩ := x
  cases table with
  | error e => rfl
  | ok u => simp [behind, add, Except.map, Table.append]

end Reading

theorem Table.mem_categories_append {t : Table} {b : Block} {name : String} :
    name ∈ (t.append ⟨[b]⟩).categories ↔ name ∈ t.categories ∨ name = b.category := by
  simp [mem_categories_iff, append]

namespace Store

variable {Symbol Names : Type} [DecidableEq Symbol] [Hashable Symbol] {I : Interner Symbol Names}
  {d : Store Symbol Names} {t : Table} {opened : Option String} {name other category : String}
  {s : Symbol}

/-! ### What a store represents -/

/-- The store has the categories of the table with their values, where `opened` is the category of a
range that has begun. -/
structure Represents (I : Interner Symbol Names) (d : Store Symbol Names) (t : Table)
    (opened : Option String) : Prop where
  known : ∀ name, (d.category? I name).isSome = true ↔ name ∈ t.categories ∨ opened = some name
  resolved : ∀ {name s}, d.category? I name = some s → d.resolve? I s = some name
  values : ∀ {name s}, d.category? I name = some s → d.values s = t.values name
  keys : ∀ s, s ∈ d.lists ↔ ∃ name ∈ t.categories, d.category? I name = some s
  len : d.len = t.len

namespace Represents

/-- A symbol belongs to one name. -/
theorem eq_of_category? (h : d.Represents I t opened) (hname : d.category? I name = some s)
    (hother : d.category? I other = some s) : name = other :=
  Option.some.inj ((h.resolved hname).symm.trans (h.resolved hother))

theorem exists_category? (h : d.Represents I t opened) (hname : name ∈ t.categories) :
    ∃ s, d.category? I name = some s :=
  Option.isSome_iff_exists.mp ((h.known name).mpr (.inl hname))

theorem values_of_unknown (h : d.Represents I t opened) (hname : d.category? I name = none) :
    t.values name = [] := by
  refine Table.values_of_not_mem fun hmem => ?_
  obtain ⟨s, hs⟩ := h.exists_category? hmem
  rw [hname] at hs
  cases hs

end Represents

theorem represents_empty (hI : I.Lawful) : (empty I).Represents I {} none where
  known name := by simp [category?, empty, hI.get?_empty, Table.mem_categories_iff]
  resolved h := by
    rw [category?, empty, hI.get?_empty] at h
    cases h
  values h := by
    rw [category?, empty, hI.get?_empty] at h
    cases h
  keys s := by simp [empty, Table.mem_categories_iff]
  len := rfl

/-! ### A name that is kept from now on -/

theorem category?_intern (hI : I.Lawful) (d : Store Symbol Names) (name other : String) :
    (d.intern I name).2.category? I other =
      if other = name then some (d.intern I name).1 else d.category? I other :=
  hI.get?_intern d.names name other

theorem category?_intern_self (hI : I.Lawful) (d : Store Symbol Names) (name : String) :
    (d.intern I name).2.category? I name = some (d.intern I name).1 := by
  rw [category?_intern hI, if_pos rfl]

/-- The symbols that were given stay with their names. -/
theorem category?_intern_of_category? (hI : I.Lawful) (name : String)
    (h : d.category? I other = some s) :
    (d.intern I name).2.category? I other = some s := by
  rw [category?_intern hI]
  split
  · rename_i hname
    rw [hname] at h
    exact congrArg some (hI.intern_of_get? h)
  · exact h

theorem Represents.resolved_intern (hI : I.Lawful) (h : d.Represents I t none)
    (hs : (d.intern I name).2.category? I other = some s) :
    (d.intern I name).2.resolve? I s = some other := by
  rw [category?_intern hI] at hs
  split at hs
  · rename_i hname
    cases hs
    rw [hname]
    exact hI.resolve?_intern d.names name
  · exact hI.resolve?_intern_of_resolve? (h.resolved hs)

/-- Under a new symbol there are no values, as the other symbols are those of other names. -/
theorem Represents.values_new (hI : I.Lawful) (h : d.Represents I t none)
    (hname : d.category? I name = none) : d.values (d.intern I name).1 = [] := by
  refine Std.HashMap.getD_eq_fallback fun hmem => ?_
  obtain ⟨other, -, hother⟩ := (h.keys _).mp hmem
  have hresolved := h.resolved_intern hI (category?_intern_of_category? hI name hother)
  obtain rfl : name = other :=
    Option.some.inj ((hI.resolve?_intern d.names name).symm.trans hresolved)
  rw [hname] at hother
  cases hother

/-- Where no range is open, a name may be kept for one that begins. -/
theorem Represents.intern (hI : I.Lawful) (h : d.Represents I t none) (name : String) :
    (d.intern I name).2.Represents I t (some name) where
  known other := by
    rw [category?_intern hI]
    by_cases hother : other = name
    · simp [hother]
    · have hknown := h.known other
      simpa [hother, Ne.symm hother] using hknown
  resolved := h.resolved_intern hI
  values {other s} hs := by
    change d.values s = t.values other
    rw [category?_intern hI] at hs
    split at hs
    · rename_i hother
      subst hother
      cases hs
      cases hname : d.category? I other with
      | some s' =>
        rw [show (d.intern I other).1 = s' from hI.intern_of_get? hname]
        exact h.values hname
      | none =>
        rw [h.values_new hI hname, h.values_of_unknown hname]
    · exact h.values hs
  keys s := by
    change s ∈ d.lists ↔ _
    rw [h.keys]
    refine exists_congr fun other => and_congr_right fun hmem => ?_
    obtain ⟨s', hs'⟩ := h.exists_category? hmem
    rw [hs', category?_intern_of_category? hI name hs']
  len := h.len

/-! ### Values that are put behind others -/

theorem values_addRange (d : Store Symbol Names) (first last : CodeValue) (s s' : Symbol) :
    (d.addRange first last s).values s' =
      if s = s' then d.values s ++ valuesFrom first last else d.values s' := by
  simp [addRange, Store.values, Std.HashMap.getD_insert]

/-- The values of a block are put behind those of its category, which may have had none. -/
theorem Represents.addRange (h : d.Represents I t (some category))
    (hs : d.category? I category = some s) (first last : CodeValue) :
    (d.addRange first last s).Represents I (t.append ⟨[⟨first, last, category⟩]⟩) none where
  known name := by
    change (d.category? I name).isSome = true ↔ _
    rw [h.known, Table.mem_categories_append]
    simp [eq_comm]
  resolved := h.resolved
  values {name s'} hs' := by
    change d.category? I name = some s' at hs'
    have hsame : s = s' ↔ category = name := by
      constructor
      · rintro rfl
        exact h.eq_of_category? hs hs'
      · rintro rfl
        exact Option.some.inj (hs.symm.trans hs')
    rw [values_addRange, Table.values_append, Table.values_cons]
    by_cases hname : category = name
    · rw [if_pos (hsame.mpr hname), if_pos hname, h.values hs, hname]
      exact congrArg (_ ++ ·) (List.append_nil _).symm
    · rw [if_neg (mt hsame.mp hname), if_neg hname, h.values hs']
      exact (List.append_nil _).symm
  keys s' := by
    have hmem : s' ∈ (d.addRange first last s).lists ↔ s = s' ∨ s' ∈ d.lists := by
      simp [Store.addRange]
    rw [hmem, h.keys]
    simp only [Table.mem_categories_append, or_and_right, exists_or, exists_eq_left]
    rw [or_comm]
    refine or_congr_right ?_
    change _ ↔ d.category? I category = some s'
    rw [hs, Option.some.injEq]
  len := by
    have hlength : (valuesFrom first last).length = Block.size ⟨first, last, category⟩ :=
      Block.length_values ⟨first, last, category⟩
    have hsingle : Table.len ⟨[⟨first, last, category⟩]⟩ = Block.size ⟨first, last, category⟩ := rfl
    rw [Table.len_append, hsingle, ← h.len, ← hlength]
    simp [Store.addRange]

/-! ### Reading -/

/-- How far reading has come if the table is what was read and `opened` is the range that has
begun. -/
inductive Progress.Represents (I : Interner Symbol Names) :
    Progress Symbol Names → Table → Option (CodeValue × String) → Prop
  | closed {d : Store Symbol Names} {t : Table} (h : d.Represents I t none) :
    Represents I ⟨d, none⟩ t none
  | opened {d : Store Symbol Names} {t : Table} {category : String} {s : Symbol}
    (first : CodeValue) (h : d.Represents I t (some category))
    (hs : d.category? I category = some s) :
    Represents I ⟨d, some (first, s)⟩ t (some (first, category))

/-- The two outcomes report the same, and either they are the same error or the store represents
the table. -/
inductive Agrees (I : Interner Symbol Names) : Reported (Store Symbol Names) → Reading → Prop
  | stop (events : List Event) (e : ReadError) : Agrees I (.stop events e) (.stop events e)
  | ok {d : Store Symbol Names} {t : Table} (events : List Event) (h : d.Represents I t none) :
    Agrees I ⟨events, .ok d⟩ ⟨events, .ok t⟩

namespace Agrees

variable {x : Reported (Store Symbol Names)} {y : Reading}

theorem report (h : Agrees I x y) (events : List Event) :
    Agrees I (x.report events) (y.report events) := by
  cases h with
  | stop events' e => exact .stop (events ++ events') e
  | ok events' h => exact .ok (events ++ events') h

theorem exists_table (h : Agrees I x y) (hd : x.result = .ok d) :
    ∃ t, y.table = .ok t ∧ d.Represents I t none := by
  cases h with
  | stop events e => cases hd
  | ok events h =>
    cases hd
    exact ⟨_, rfl, h⟩

theorem exists_store (h : Agrees I x y) (ht : y.table = .ok t) :
    ∃ d, x.result = .ok d ∧ d.Represents I t none := by
  cases h with
  | stop events e => cases ht
  | ok events h =>
    cases ht
    exact ⟨_, rfl, h⟩

end Agrees

open Reading

variable {p : Progress Symbol Names} {range : Option (CodeValue × String)}

/-- A record is stored as it is read if this holds of what follows. -/
theorem agrees_readRecord (hI : I.Lawful) (h : p.Represents I t range) (r : Record)
    {rest : Progress Symbol Names → Reported (Store Symbol Names)}
    {rest' : Option (CodeValue × String) → Reading}
    (hrest : ∀ {p t range}, p.Represents I t range →
      Agrees I (rest p) (behind [] t (rest' range))) :
    Agrees I ((p.readRecord I r).andThen rest) (behind [] t (ofEntry range r rest')) := by
  unfold Progress.readRecord ofEntry
  split
  · exact .stop [] _
  · cases h with
    | opened first h hs =>
      dsimp only
      split
      · exact .stop _ _
      · rw [Reported.report_andThen, Reported.ok_andThen, behind_report, behind_add]
        exact (hrest (.closed (h.addRange hs first _))).report _
    | @closed d t h =>
      have hs := category?_intern_self hI d r.category
      dsimp only
      split
      · exact hrest (.opened _ (h.intern hI r.category) hs)
      · rw [Reported.ok_andThen, behind_add]
        exact hrest (.closed ((h.intern hI r.category).addRange hs _ _))

/-- Lines are stored as they are read, whatever was stored before. -/
theorem agrees_ofLines (hI : I.Lawful) (h : p.Represents I t range) (lines : List Line) :
    Agrees I ((p.readLines I lines).andThen Progress.finish)
      (behind [] t (ofLines range lines)) := by
  induction lines generalizing p t range with
  | nil =>
    cases h with
    | @closed d t h =>
      have ht : t.append {} = t := congrArg Table.mk (List.append_nil t.blocks)
      exact .ok [] (ht.symm ▸ h)
    | opened first h hs => exact .stop [] _
  | cons line lines ih =>
    rw [Progress.readLines, Reported.andThen_assoc, Progress.readLine, ofLines]
    cases line.content with
    | nothing => exact ih h
    | malformed text => exact (ih h).report _
    | record r => exact agrees_readRecord hI h r ih

/-- A text is stored as it is read. -/
theorem agrees_ofText (hI : I.Lawful) (text : String) :
    Agrees I (ofText I text) (Reading.ofText text) := by
  have h := agrees_ofLines hI (.closed (represents_empty hI)) (Line.ofText text.toList)
  rwa [behind_nil] at h

/-! ### What is found in a store -/

namespace Represents

variable {spec : String}

/-- A symbol under which values are found stands for a category. -/
theorem category?_of_resolve? (h : d.Represents I t opened) (hs : s ∈ d.lists)
    (hname : d.resolve? I s = some name) :
    name ∈ t.categories ∧ d.category? I name = some s := by
  obtain ⟨other, hmem, hother⟩ := (h.keys s).mp hs
  obtain rfl : other = name := Option.some.inj ((h.resolved hother).symm.trans hname)
  exact ⟨hmem, hother⟩

theorem mem_names_iff (h : d.Represents I t opened) :
    name ∈ d.lists.keys.filterMap (d.resolve? I) ↔ name ∈ t.categories := by
  rw [List.mem_filterMap]
  constructor
  · rintro ⟨s, hs, hname⟩
    exact (h.category?_of_resolve? (Std.HashMap.mem_keys.mp hs) hname).1
  · intro hmem
    obtain ⟨s, hs⟩ := h.exists_category? hmem
    exact ⟨s, Std.HashMap.mem_keys.mpr ((h.keys s).mpr ⟨name, hmem, hs⟩), h.resolved hs⟩

theorem nodup_names (h : d.Represents I t opened) :
    (d.lists.keys.filterMap (d.resolve? I)).Nodup := by
  rw [List.Nodup, List.pairwise_filterMap]
  refine Std.HashMap.nodup_keys.imp_of_mem ?_
  rintro s s' hs hs' hne name hname _ hname' rfl
  have hsymbol := (h.category?_of_resolve? (Std.HashMap.mem_keys.mp hs) hname).2
  have hsymbol' := (h.category?_of_resolve? (Std.HashMap.mem_keys.mp hs') hname').2
  exact hne (Option.some.inj (hsymbol.symm.trans hsymbol'))

/-- The categories are those of the table, in the same order. -/
theorem categories_eq (h : d.Represents I t opened) : d.categories I = t.categories := by
  have hlt : (d.categories I).Pairwise (· < ·) := by
    have hnodup := (List.mergeSort_perm _ fun a b => decide (a ≤ b)).nodup_iff.mpr h.nodup_names
    exact (pairwise_mergeSort _).and hnodup |>.imp fun h => Std.lt_of_le_of_ne h.1 h.2
  refine hlt.eq_of_mem_iff t.pairwise_categories fun name => ?_
  rw [categories, List.mem_mergeSort, h.mem_names_iff]

theorem isSome_category? (h : d.Represents I t none) :
    (d.category? I name).isSome = true ↔ name ∈ t.categories := by
  rw [h.known]
  simp

/-- The values of a category, which has none if it is not known. -/
theorem elim_category? (h : d.Represents I t opened) (name : String) :
    (d.category? I name).elim [] d.values = t.values name := by
  cases hname : d.category? I name with
  | some s => exact h.values hname
  | none => exact (h.values_of_unknown hname).symm

/-- A store is filtered as the table is. -/
theorem filter_eq (h : d.Represents I t opened) : d.filter I spec = t.filter spec := by
  simp only [Store.filter, h.elim_category?, Table.filter]

theorem filterEvents_eq (h : d.Represents I t none) :
    d.filterEvents I spec = t.filterEvents spec := by
  have hsame (name : String) : (d.category? I name).isNone = !t.hasCategory name := by
    have hknown : (d.category? I name).isSome = true ↔ t.hasCategory name = true :=
      h.isSome_category?.trans Table.hasCategory_iff.symm
    rw [← Option.not_isSome, Bool.eq_iff_iff.mpr hknown]
  simp only [Store.filterEvents, hsame, Table.filterEvents, Table.undefinedNames]

end Represents

/-- What was stored of a text is consistent in itself. Its length is that of the values of its
categories. The categories increase, and they are the names that have a symbol; the symbol leads
back to the name and to values, at least one. A category is among them if and only if it stands on
a record that closes no range, which malformed lines are not. -/
theorem ofText_consistent (hI : I.Lawful) {text : String} {d : Store Symbol Names}
    (h : (ofText I text).result = .ok d) :
    d.len = ((d.categories I).map fun name =>
      ((d.category? I name).elim [] d.values).length).sum ∧
    (d.categories I).Pairwise (· < ·) ∧
    (∀ name, (d.category? I name).isSome = true ↔ name ∈ d.categories I) ∧
    (∀ name s, d.category? I name = some s → d.resolve? I s = some name ∧ d.values s ≠ []) ∧
    ∃ records, (∀ rs, RecordsOf text rs ↔ rs = records) ∧
      ∀ name, name ∈ d.categories I ↔ Records.Brings records name := by
  obtain ⟨t, ht, hd⟩ := (agrees_ofText hI text).exists_table h
  obtain ⟨records, hrecords⟩ := exists_recordsOf text
  have hmakes := makes_of_text ht ((hrecords records).mpr rfl)
  rw [hd.categories_eq]
  refine ⟨?_, t.pairwise_categories, fun name => hd.isSome_category?, fun name s hs => ?_,
    records, hrecords, fun name => Table.mem_categories_iff.trans hmakes.mem_categories_iff⟩
  · simp only [hd.elim_category?]
    rw [hd.len, t.sum_lengths]
  · refine ⟨hd.resolved hs, ?_⟩
    have hname : name ∈ t.categories :=
      hd.isSome_category?.mp (Option.isSome_iff_exists.mpr ⟨s, hs⟩)
    obtain ⟨b, hb, hcategory⟩ := List.mem_map.mp (Table.mem_categories_iff.mp hname)
    have hne := hmakes.values_ne_nil b hb
    rw [hd.values hs, Table.values]
    intro hnil
    exact hne (List.flatMap_eq_nil_iff.mp hnil b (List.mem_filter.mpr ⟨hb, by simp [hcategory]⟩))

/-- A range that is closed by a line with another category, and a malformed line with a third. -/
theorem ofText_consistent_range :
    Interner.listed.Lawful ∧
      ∃ d, (ofText Interner.listed
          "40;<X, First>;Lu\n42;<X, Last>;Lo\nx;y;Zs\n41;A;Lu").result = .ok d ∧
        "Lo" ∉ d.categories Interner.listed ∧ "Zs" ∉ d.categories Interner.listed ∧
        ∃ s, d.category? Interner.listed "Lu" = some s ∧
          d.resolve? Interner.listed s = some "Lu" ∧ d.values s ≠ [] := by
  have ht : (Reading.ofText "40;<X, First>;Lu\n42;<X, Last>;Lo\nx;y;Zs\n41;A;Lu").table =
      .ok ⟨[⟨0x40, 0x42, "Lu"⟩, ⟨0x41, 0x41, "Lu"⟩]⟩ := by rfl
  obtain ⟨d, hd, hrepresents⟩ := (agrees_ofText Interner.listed_lawful _).exists_store ht
  obtain ⟨-, -, hknown, hvalues, -⟩ := ofText_consistent Interner.listed_lawful hd
  have hmem (name : String) : name ∈ d.categories Interner.listed ↔ name ∈ ["Lu", "Lu"] := by
    rw [hrepresents.categories_eq]
    exact Table.mem_categories_iff
  obtain ⟨s, hs⟩ := Option.isSome_iff_exists.mp ((hknown "Lu").mpr ((hmem _).mpr (by decide)))
  exact ⟨Interner.listed_lawful, d, hd, mt (hmem _).mp (by decide),
    mt (hmem _).mp (by decide), s, hs, hvalues _ s hs⟩

end Store

end BitClassifier
