import BitClassifier.Directory

/-!
# Writing files

Writing a file changes what one destination holds and nothing else (`write_spec`). Folders never
change, and what a path names depends on the folders alone, so the path of a file names the same
destination before and after other files have been written.
-/

namespace BitClassifier.Directory

variable {d d' : Directory}

theorem fromUTF8?_toUTF8 (text : String) : String.fromUTF8? text.toUTF8 = some text := by
  rw [String.fromUTF8?, String.toUTF8_eq_toByteArray, dif_pos text.isValidUTF8]
  rfl

theorem bind_eq_ok {ε α β : Type} {x : Except ε α} {f : α → Except ε β} {b : β} :
    x >>= f = .ok b ↔ ∃ a, x = .ok a ∧ f a = .ok b := by
  cases x with
  | error e =>
    constructor
    · intro h
      cases h
    · rintro ⟨a, ha, -⟩
      cases ha
  | ok a =>
    constructor
    · exact fun h => ⟨a, rfl, h⟩
    · rintro ⟨a, ha, hf⟩
      cases ha
      exact hf

/-! ### What a path names -/

theorem hasFolder_congr (h : d'.folders = d.folders) (place : Location) :
    d'.hasFolder place = d.hasFolder place := by
  rw [hasFolder, hasFolder, h]

theorem enterFolder_congr (h : d'.folders = d.folders) {name : String} {p q : Place}
    (hp : d.enterFolder name p = .ok q) : d'.enterFolder name p = .ok q := by
  cases p with
  | within folder =>
    rw [enterFolder] at hp ⊢
    rw [hasFolder_congr h]
    split at hp
    · rename_i hthere
      rw [if_pos hthere, hp]
    · split at hp <;> cases hp
  | above levels =>
    rw [enterFolder] at hp
    · split at hp <;> cases hp
    · simp
  | root =>
    rw [enterFolder] at hp
    · split at hp <;> cases hp
    · simp

theorem enter_congr (h : d'.folders = d.folders) {parts : List String} {p q : Place}
    (hp : d.enter p parts = .ok q) : d'.enter p parts = .ok q := by
  induction parts generalizing p with
  | nil => exact hp
  | cons part parts ih =>
    rw [enter] at hp ⊢
    split at hp
    · rename_i hsame
      rw [if_pos hsame]
      exact ih hp
    · rename_i hother
      rw [if_neg hother]
      split at hp
      · rename_i hup
        rw [if_pos hup]
        exact ih hp
      · rename_i hdown
        rw [if_neg hdown]
        split at hp
        · cases hp
        · rename_i hshort
          rw [if_neg hshort]
          cases hfolder : d.enterFolder part p with
          | error e => simp [hfolder] at hp
          | ok p' =>
            rw [hfolder] at hp
            rw [enterFolder_congr h hfolder]
            exact ih hp

/-- What a path names depends on the folders alone. -/
theorem locate_congr (h : d'.folders = d.folders) {path : String} {dest : Destination}
    (hpath : d.locate path = .ok dest) : d'.locate path = .ok dest := by
  unfold locate at hpath ⊢
  by_cases hnul : path.toList.contains '\x00' = true
  · rw [if_pos hnul] at hpath
    cases hpath
  by_cases hempty : path.isEmpty = true
  · rw [if_neg hnul, if_pos hempty] at hpath
    cases hpath
  by_cases hlong : 4096 ≤ path.utf8ByteSize
  · rw [if_neg hnul, if_neg hempty, if_pos hlong] at hpath
    cases hpath
  rw [if_neg hnul, if_neg hempty, if_neg hlong] at hpath ⊢
  cases hlast : (pathParts path).getLast? with
  | none => simp [hlast] at hpath
  | some last =>
    simp only [hlast] at hpath ⊢
    obtain ⟨folder, hfolder, hrest⟩ := bind_eq_ok.mp hpath
    exact bind_eq_ok.mpr ⟨folder, enter_congr h hfolder, hrest⟩

/-- A name that stands for an entry of a folder: it has no slash and begins with something other than
a dot. -/
structure IsPlain (name : String) : Prop where
  whole : '/' ∉ name.toList
  begins : name.toList.head?.any (· != '.') = true

/-- The last part of a joined path is the name. -/
theorem getLast?_pathParts_joinPath {folder name : String} (h : '/' ∉ name.toList) :
    (pathParts (joinPath folder name)).getLast? = some name := by
  have halone : pathParts name = [name] := by
    rw [pathParts, List.splitOn_eq_singleton h, List.map_singleton, String.ofList_toList]
  have hbehind (cs : List Char) :
      ((cs ++ '/' :: name.toList).splitOn '/').map String.ofList =
        (cs.splitOn '/').map String.ofList ++ [name] := by
    rw [List.splitOn_append_cons_self, List.map_append, ← halone, pathParts]
  unfold joinPath
  split
  · rw [halone, List.getLast?_singleton]
  · split
    · rename_i hslash
      obtain ⟨cs, hcs⟩ := List.getLast?_eq_some_iff.mp hslash
      have hpath : (folder ++ name).toList = cs ++ '/' :: name.toList := by
        rw [String.toList_append, hcs, List.append_assoc, List.singleton_append]
      rw [pathParts, hpath, hbehind, List.getLast?_concat]
    · have hpath : (folder ++ "/" ++ name).toList = folder.toList ++ '/' :: name.toList := by
        simp
      rw [pathParts, hpath, hbehind, List.getLast?_concat]

/-- A plain name in a folder names the entry of that name. -/
theorem exists_entry {folder name : String} {dest : Destination} (h : IsPlain name)
    (hpath : d.locate (joinPath folder name) = .ok dest) : ∃ place, dest = .entry place name := by
  -- the names that do not stand for an entry are empty or begin with a dot
  have hname : ∀ other : String, other.toList.head?.any (· != '.') = false → name ≠ other := by
    rintro other hother rfl
    exact Bool.noConfusion (hother.symm.trans h.begins)
  have hempty := hname "" (by decide)
  have hdot := hname "." (by decide)
  have hdots := hname ".." (by decide)
  unfold locate at hpath
  split at hpath
  · cases hpath
  split at hpath
  · cases hpath
  split at hpath
  · cases hpath
  simp only [getLast?_pathParts_joinPath h.whole] at hpath
  obtain ⟨place, -, hrest⟩ := bind_eq_ok.mp hpath
  rw [if_neg (by simp [hempty, hdot]), if_neg hdots] at hrest
  split at hrest
  · cases hrest
  · cases hrest
    exact ⟨place, rfl⟩

/-- Plain names of one folder name one entry only if they are the same. -/
theorem locate_joinPath_iff {folder name name' : String} {dest : Destination} (h : IsPlain name)
    (h' : IsPlain name') (hpath : d.locate (joinPath folder name) = .ok dest) :
    d.locate (joinPath folder name') = .ok dest ↔ name' = name := by
  constructor
  · intro hpath'
    obtain ⟨place, rfl⟩ := exists_entry h hpath
    obtain ⟨place', hdest⟩ := exists_entry h' hpath'
    cases hdest
    rfl
  · rintro rfl
    exact hpath

/-! ### What a destination holds -/

/-- A file is found where it has been put, and all others where they have been. -/
theorem find?_put {κ : Type} [DecidableEq κ] (files : List (κ × ByteArray)) (key key' : κ)
    (bytes : ByteArray) :
    (((key, bytes) :: files.filter (·.1 ≠ key)).find? (·.1 = key')).map (·.2) =
      if key' = key then some bytes else (files.find? (·.1 = key')).map (·.2) := by
  by_cases hkey : key' = key
  · subst hkey
    simp
  · rw [if_neg hkey, List.find?_cons_of_neg (by simpa using Ne.symm hkey), List.find?_filter]
    congr 2
    funext f
    by_cases hf : f.1 = key'
    · simp [hf, hkey]
    · simp [hf]

/-- A destination within the directory holds what is filed there. -/
theorem contents_of_files {folder : Location} {name : String} {bytes : ByteArray}
    (hfree : d.hasFolder (folder ++ [name]) = false) (hfolders : d'.folders = d.folders)
    (hfiles : d'.files = (folder ++ [name], bytes) :: d.files.filter (·.1 ≠ folder ++ [name]))
    (houtside : d'.outside = d.outside) (dest : Destination) :
    d'.contents dest =
      if dest = .entry (.within folder) name then .ok bytes else d.contents dest := by
  have hhas := hasFolder_congr hfolders
  have hfile (place : Location) :
      d'.file? place = if place = folder ++ [name] then some bytes else d.file? place := by
    rw [file?, hfiles]
    exact find?_put d.files (folder ++ [name]) place bytes
  have hother (place : Place) (name : String) :
      d'.outsideFile? place name = d.outsideFile? place name := by
    rw [outsideFile?, houtside, outsideFile?]
  cases dest with
  | folder place => rfl
  | entry place' name' =>
    cases place' with
    | above levels => simp [contents, hother]
    | root => simp [contents, hother]
    | within folder' =>
      by_cases hsame : folder' ++ [name'] = folder ++ [name]
      · have hdest : Destination.entry (.within folder') name' = .entry (.within folder) name := by
          simpa using hsame
        simp [contents, hhas, hfile, hsame, hfree, hdest]
      · have hdest : Destination.entry (.within folder') name' ≠ .entry (.within folder) name := by
          simpa using hsame
        simp only [contents, hhas, hfile, if_neg hsame, if_neg hdest]

/-- A destination outside of the directory holds what is filed there. -/
theorem contents_of_outside {place : Place} {name : String} {bytes : ByteArray}
    (hplace : ∀ folder, place ≠ .within folder) (hfolders : d'.folders = d.folders)
    (hfiles : d'.files = d.files)
    (houtside : d'.outside =
      ((place, name), bytes) :: d.outside.filter (·.1 ≠ (place, name))) (dest : Destination) :
    d'.contents dest = if dest = .entry place name then .ok bytes else d.contents dest := by
  have hhas := hasFolder_congr hfolders
  have hfile (location : Location) : d'.file? location = d.file? location := by
    rw [file?, hfiles, file?]
  have hother (place' : Place) (name' : String) : d'.outsideFile? place' name' =
      if Destination.entry place' name' = .entry place name then some bytes
      else d.outsideFile? place' name' := by
    have hput := find?_put d.outside (place, name) (place', name') bytes
    rw [outsideFile?, houtside, hput]
    simp [outsideFile?]
  cases dest with
  | folder place' => rfl
  | entry place' name' =>
    cases place' with
    | within folder =>
      have hdest : Destination.entry (.within folder) name' ≠ .entry place name := by
        intro h
        cases h
        exact hplace folder rfl
      simp only [contents, hhas, hfile, if_neg hdest]
    | above levels =>
      simp only [contents, hother]
      split <;> rfl
    | root =>
      simp only [contents, hother]
      split <;> rfl

/-- A written file holds its text, and nothing else has changed. -/
theorem write_spec {path text : String} (h : d.write path text = .ok d') :
    d'.folders = d.folders ∧ ∃ dest, d.locate path = .ok dest ∧
      ∀ other, d'.contents other =
        if other = dest then .ok text.toUTF8 else d.contents other := by
  obtain ⟨dest, hdest, hput⟩ := bind_eq_ok.mp h
  cases dest with
  | folder place => cases hput
  | entry place name =>
    cases place with
    | within folder =>
      dsimp only at hput
      split at hput
      · cases hput
      · rename_i hfree
        cases hput
        exact ⟨rfl, _, hdest, contents_of_files (by simpa using hfree) rfl rfl rfl⟩
    | above levels =>
      cases hput
      exact ⟨rfl, _, hdest, contents_of_outside (by simp) rfl rfl rfl⟩
    | root =>
      cases hput
      exact ⟨rfl, _, hdest, contents_of_outside (by simp) rfl rfl rfl⟩

/-- Where a text can be written, any other can, as long as the folders are there. -/
theorem exists_write (h : d'.folders = d.folders) {path text : String} {e : Directory}
    (hwrite : d.write path text = .ok e) (text' : String) :
    ∃ e', d'.write path text' = .ok e' := by
  obtain ⟨dest, hdest, hput⟩ := bind_eq_ok.mp hwrite
  cases dest with
  | folder place => cases hput
  | entry place name =>
    cases place with
    | within folder =>
      dsimp only at hput
      split at hput
      · cases hput
      · rename_i hfree
        rw [← hasFolder_congr h] at hfree
        exact ⟨_, bind_eq_ok.mpr ⟨_, locate_congr h hdest, if_neg hfree⟩⟩
    | above levels => exact ⟨_, bind_eq_ok.mpr ⟨_, locate_congr h hdest, rfl⟩⟩
    | root => exact ⟨_, bind_eq_ok.mpr ⟨_, locate_congr h hdest, rfl⟩⟩

end BitClassifier.Directory
