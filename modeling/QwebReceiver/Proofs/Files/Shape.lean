import QwebReceiver.Files.Glob

/-!
  QwebReceiver.Proofs.Files.Shape — trees with the same files and directories.

  Writing to a file that is there changes what the file holds and nothing else:
  the places of a tree, and which of them are files, make up its shape, and a
  path leads to the same place in two trees of one shape.  So does a search.

  Main results:

    * `write?_of_resolve?` — what writing to a file does;
    * `SameShape.resolve?_eq`, `SameShape.paths_eq` — a shape decides where
      paths lead and which paths a pattern matches.
-/

namespace QwebReceiver.Files

/-! ## §1. Shapes. -/

/-- Whether an entry is a file. -/
def Entry.isFile : Entry → Bool
  | .file _ => true
  | .directory => false

namespace FileTree

/-- The places of a tree, and whether they are files.  Whatever does not ask
what a file holds depends on this alone. -/
def outline (t : FileTree) : List (Place × Bool) := t.entries.map fun x => (x.1, x.2.isFile)

/-- Two trees differ at most in what their files hold: the same places, each a
file or a directory in both, and the same places that cannot be written. -/
structure SameShape (t u : FileTree) : Prop where
  working : u.working = t.working
  readOnly : u.readOnly = t.readOnly
  outline : u.outline = t.outline

variable {t u : FileTree} {p : Path} {place : Place}

/-- A tree has its own shape; a run starts from here. -/
theorem SameShape.refl (t : FileTree) : SameShape t t := ⟨rfl, rfl, rfl⟩

/-- Shapes compare step after step, which carries them through a run. -/
theorem SameShape.trans {w : FileTree} (h : SameShape t u) (h' : SameShape u w) : SameShape t w :=
  ⟨h'.working.trans h.working, h'.readOnly.trans h.readOnly, h'.outline.trans h.outline⟩

/-- What kind of entry stands at a place can be read off the outline alone. -/
theorem isFile_lookUp? (place : Place) (l : List (Place × Entry)) :
    (lookUp? place l).map Entry.isFile =
      ((l.map fun x => (x.1, x.2.isFile)).find? fun x => x.1 = place).map Prod.snd := by
  rw [List.find?_map, lookUp?, Option.map_map, Option.map_map]
  rfl

/-- Trees of one shape have the same kind of entry at every place, or none in
either. -/
theorem SameShape.isFile_entryAt? (h : SameShape t u) (place : Place) :
    (u.entryAt? place).map Entry.isFile = (t.entryAt? place).map Entry.isFile := by
  unfold entryAt?
  split
  · rfl
  · rw [isFile_lookUp?, isFile_lookUp?]
    exact congrArg (fun l => (List.find? _ l).map Prod.snd) h.outline

/-- An entry that is there and is no file is a directory. -/
theorem isFile_eq_false_iff (e : Option Entry) :
    e.map Entry.isFile = some false ↔ e = some .directory := by
  rcases e with _ | (_ | c)
  · simp
  · simp [Entry.isFile]
  · simp [Entry.isFile]

theorem SameShape.directory_iff (h : SameShape t u) (place : Place) :
    u.entryAt? place = some .directory ↔ t.entryAt? place = some .directory := by
  rw [← isFile_eq_false_iff, ← isFile_eq_false_iff, h.isFile_entryAt?]

theorem SameShape.isSome_entryAt? (h : SameShape t u) (place : Place) :
    (u.entryAt? place).isSome = (t.entryAt? place).isSome := by
  have hkind := congrArg Option.isSome (h.isFile_entryAt? place)
  rwa [Option.isSome_map, Option.isSome_map] at hkind

/-! ## §2. Where paths lead. -/

/-- A step along a path asks only whether there are directories and entries. -/
theorem SameShape.step_eq (h : SameShape t u) : u.step = t.step := by
  funext here segment
  unfold step
  simp only [ne_eq, h.directory_iff, h.isSome_entryAt?]

theorem SameShape.start_eq (h : SameShape t u) (p : Path) : u.start p = t.start p := by
  rw [start, start, h.working]

/-- A path leads to the same place, so that a second run finds the files of the
first. -/
theorem SameShape.resolve?_eq (h : SameShape t u) (p : Path) : u.resolve? p = t.resolve? p := by
  rw [resolve?, resolve?, h.step_eq, h.start_eq]

/-- A path leads to an entry of the same kind. -/
theorem SameShape.isFile_get? (h : SameShape t u) (p : Path) :
    (u.get? p).map Entry.isFile = (t.get? p).map Entry.isFile := by
  rw [get?, get?, h.resolve?_eq]
  cases t.resolve? p with
  | none => rfl
  | some place => exact h.isFile_entryAt? place

theorem SameShape.isDirectory_eq (h : SameShape t u) (p : Path) :
    u.isDirectory p = t.isDirectory p := by
  rw [isDirectory, isDirectory, decide_eq_decide, ← isFile_eq_false_iff, ← isFile_eq_false_iff,
    h.isFile_get?]

/-- Whether a path leads to a file is a matter of the kind of its entry. -/
theorem isFile_eq (t : FileTree) (p : Path) :
    t.isFile p = ((t.get? p).map Entry.isFile).getD false := by
  unfold isFile read?
  rcases t.get? p with _ | (_ | c) <;> rfl

theorem SameShape.isFile_eq (h : SameShape t u) (p : Path) : u.isFile p = t.isFile p := by
  rw [FileTree.isFile_eq, FileTree.isFile_eq, h.isFile_get?]

/-- The places below a place are read off the outline. -/
theorem SameShape.below_eq (h : SameShape t u) (place : Place) : u.below place = t.below place := by
  have hbelow : ∀ w : FileTree, w.below place = w.outline.filterMap fun x =>
      if place.isPrefixOf x.1 && place.length < x.1.length then some (x.1.drop place.length)
      else none := by
    intro w
    rw [FileTree.outline, List.filterMap_map]
    rfl
  rw [hbelow, hbelow, h.outline]

theorem SameShape.descendants_eq (h : SameShape t u) (p : Path) :
    u.descendants p = t.descendants p := by
  rw [descendants, descendants, h.resolve?_eq]
  simp only [h.below_eq]

theorem SameShape.members_eq (h : SameShape t u) (p : Path) : u.members p = t.members p := by
  rw [members, members, h.descendants_eq]

/-- A search finds the same paths. -/
theorem SameShape.walk_eq (h : SameShape t u) (pattern : List Glob.Segment) (p : Path) :
    Glob.walk u pattern p = Glob.walk t pattern p := by
  fun_induction Glob.walk t pattern p with
  | case1 => rw [Glob.walk]
  -- a literal part of the pattern asks only whether the path is there
  | case2 name rest p q found hfound ih =>
    have hsame : (if name = ['.'] || name = ['.', '.'] then u.isDirectory p
        else (u.resolve? (if isCurrent p then name else join p name)).isSome) = found := by
      rw [h.isDirectory_eq, h.resolve?_eq]
    rw [Glob.walk, hsame, if_pos hfound, ih]
  | case3 name rest p q found hfound =>
    have hsame : (if name = ['.'] || name = ['.', '.'] then u.isDirectory p
        else (u.resolve? (if isCurrent p then name else join p name)).isSome) = found := by
      rw [h.isDirectory_eq, h.resolve?_eq]
    rw [Glob.walk, hsame, if_neg hfound]
  | case4 ts rest p hp ih₁ ih₂ =>
    rw [Glob.walk, h.isDirectory_eq, if_pos hp, h.members_eq]
    simp only [ih₁, ih₂]
  | case5 ts rest p hp => rw [Glob.walk, h.isDirectory_eq, if_neg hp]
  | case6 rest p ih => rw [Glob.walk, ih]
  -- the last `**` lists what lies below a directory, which the shape gives
  | case7 p =>
    rw [Glob.walk, h.descendants_eq]
    exact List.filter_congr fun q _ => h.isDirectory_eq q
  | case8 s rest p _ ih =>
    rw [Glob.walk, h.descendants_eq]
    · simp only [ih]
    · assumption

/-- A pattern matches the same paths. -/
theorem SameShape.paths_eq (h : SameShape t u) (pattern : Text) :
    Glob.paths u pattern = Glob.paths t pattern := by
  have hdirectory : u.isDirectory = t.isDirectory := funext h.isDirectory_eq
  unfold Glob.paths
  simp only [h.walk_eq, hdirectory]

/-! ## §3. Writing to a file. -/

/-- An entry that takes the place of one of its kind leaves the shape alone,
since entries stand in the order of their places. -/
theorem outline_putEntry {l : List (Place × Entry)} (hl : l.Pairwise fun x y => x.1 < y.1)
    {e e' : Entry} (he : lookUp? place l = some e') (hkind : e.isFile = e'.isFile) :
    (putEntry place e l).map (fun x => (x.1, x.2.isFile)) = l.map fun x => (x.1, x.2.isFile) := by
  induction l with
  | nil => cases he
  | cons x l ih =>
    obtain ⟨k, x⟩ := x
    rw [List.pairwise_cons] at hl
    by_cases hk : k = place
    · subst hk
      obtain rfl : x = e' := by simpa [lookUp?] using he
      rw [putEntry, if_neg (List.lt_irrefl k), if_pos rfl, List.map_cons, List.map_cons, hkind]
    · have hrest : lookUp? place l = some e' := by simpa [lookUp?, List.find?_cons, hk] using he
      -- the entry stands further on, so its place is a later one
      have hlt : k < place := by
        obtain ⟨y, hy, -⟩ := Option.map_eq_some_iff.1 hrest
        have hplace : y.1 = place := by simpa using List.find?_some hy
        exact hplace ▸ hl.1 y (List.mem_of_find?_eq_some hy)
      rw [putEntry, if_neg (List.lt_asymm hlt), if_neg hk, List.map_cons, List.map_cons,
        ih hl.2 hrest]

/-- The root of a tree is a directory, so a file stands at another place. -/
theorem ne_nil_of_file {c : Content} (h : t.entryAt? place = some (.file c)) : place ≠ [] := by
  rintro rfl
  cases h

/-- A file that takes the place of a file leaves the shape as it is. -/
theorem sameShape_put {c : Content} (h : t.entryAt? place = some (.file c)) (c' : Content) :
    SameShape t (t.put place (.file c')) := by
  refine ⟨rfl, rfl, ?_⟩
  have hlook : lookUp? place t.entries = some (.file c) := by
    rw [entryAt?, if_neg (ne_nil_of_file h)] at h
    exact h
  exact outline_putEntry t.ascending hlook rfl

/-- A path that leads to a file ends with the name of that file. -/
theorem exists_last_of_file {c : Content} (hp : t.resolve? p = some place)
    (h : t.entryAt? place = some (.file c)) :
    ∃ init name here, segments p = init ++ [name] ∧ init.foldlM t.step (t.start p) = some here ∧
      t.entryAt? here = some .directory ∧
      ¬ (name = [] ∨ name = ['.'] ∨ name = ['.', '.']) ∧ place = here ++ [name] := by
  rw [resolve?] at hp
  split at hp
  · cases hp
  · have hsplit := (List.dropLast_concat_getLast (segments_ne_nil p)).symm
    generalize (segments p).dropLast = init at hsplit
    generalize (segments p).getLast (segments_ne_nil p) = name at hsplit
    rw [hsplit, List.foldlM_append] at hp
    obtain ⟨here, hhere, hstep⟩ := Option.bind_eq_some_iff.1 hp
    rw [List.foldlM_cons] at hstep
    obtain ⟨next, hstep, hnext⟩ := Option.bind_eq_some_iff.1 hstep
    obtain rfl : next = place := Option.some.inj hnext
    refine ⟨init, name, here, hsplit, hhere, ?_⟩
    -- the last part of the path goes to a file, so it is neither empty nor a dot name:
    -- each of those leads to a directory
    unfold step at hstep
    split at hstep
    · cases hstep
    · next hdirectory =>
      rw [ne_eq, Decidable.not_not] at hdirectory
      refine ⟨hdirectory, ?_⟩
      split at hstep
      · obtain rfl := Option.some.inj hstep
        rw [hdirectory] at h
        cases h
      · next hdot =>
        split at hstep
        · -- one directory up is a directory
          split at hstep
          · next hup =>
            obtain rfl := Option.some.inj hstep
            rw [hup] at h
            cases h
          · cases hstep
        · next hdots =>
          split at hstep
          · refine ⟨?_, (Option.some.inj hstep).symm⟩
            simpa [hdots] using hdot
          · cases hstep

/-- **Writing to a file** puts the text at the place of the file, unless that
is read-only. -/
theorem write?_of_resolve? {c : Content} (hp : t.resolve? p = some place)
    (h : t.entryAt? place = some (.file c)) (s : Text) :
    t.write? p s =
      if t.readOnly.contains place then none else some (t.put place (.file (.text s))) := by
  obtain ⟨init, name, here, hsegments, hhere, hdirectory, hname, rfl⟩ := exists_last_of_file hp h
  have hplain : ¬ (name = [] || name = ['.'] || name = ['.', '.']) = true := by
    simpa [or_assoc] using hname
  rw [write?, hsegments, List.getLast?_concat]
  simp only [hplain, List.dropLast_concat, hhere, hdirectory, h]
  simp

end FileTree
end QwebReceiver.Files
