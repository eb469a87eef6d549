import QwebReceiver.Files.Path

/-!
  QwebReceiver.Files.Tree — files and directories.

  A tree lists its entries by place, the names from the top down, in
  ascending order, so a directory comes before what is in it.  A relative path
  starts at the working directory.  Every segment of a path leads on from a
  directory: `a/..` and `a/` need `a` to be one.

    resolve? p    the place that a path leads to
    isFile p      whether a file is there
    isDirectory p whether a directory is there
    read? p       the content of the file there
    write? p t    the tree with that content there

  A file at a read-only place takes no new content.
-/

namespace QwebReceiver.Files

/-! ## §1. Entries. -/

/-- The content of a file: text, or bytes that are no text. -/
inductive Content where
  | text (t : Text)
  | binary (bytes : List UInt8)
  deriving Repr, DecidableEq

/-- The content that bytes are. -/
def Content.ofBytes (bytes : List UInt8) : Content :=
  match String.fromUTF8? ⟨bytes.toArray⟩ with
  | some s => .text s.toList
  | none => .binary bytes

/-- What is found at a place. -/
inductive Entry where
  | directory
  | file (content : Content)
  deriving Repr, DecidableEq

/-- The names from the top of the tree to an entry. -/
abbrev Place := List Text

/-- Puts an entry at its place, in place of the one that was there. -/
def putEntry (place : Place) (e : Entry) : List (Place × Entry) → List (Place × Entry)
  | [] => [(place, e)]
  | (k, x) :: rest =>
    if place < k then (place, e) :: (k, x) :: rest
    else if k = place then (place, e) :: rest
    else (k, x) :: putEntry place e rest

theorem mem_of_mem_putEntry {place : Place} {e : Entry} {x : Place × Entry}
    {l : List (Place × Entry)} (h : x ∈ putEntry place e l) : x = (place, e) ∨ x ∈ l := by
  induction l with
  | nil => simpa [putEntry] using h
  | cons y rest ih =>
    obtain ⟨k, y⟩ := y
    simp only [putEntry] at h
    split at h
    · simpa using h
    · split at h
      · rcases List.mem_cons.1 h with h | h
        · exact .inl h
        · exact .inr (List.mem_cons_of_mem _ h)
      · rcases List.mem_cons.1 h with h | h
        · exact .inr (h ▸ List.mem_cons_self)
        · rcases ih h with h | h
          · exact .inl h
          · exact .inr (List.mem_cons_of_mem _ h)

theorem pairwise_putEntry {place : Place} {e : Entry} {l : List (Place × Entry)}
    (h : l.Pairwise fun x y => x.1 < y.1) :
    (putEntry place e l).Pairwise fun x y => x.1 < y.1 := by
  induction l with
  | nil => simp [putEntry]
  | cons y rest ih =>
    obtain ⟨k, y⟩ := y
    rw [List.pairwise_cons] at h
    simp only [putEntry]
    split
    · next hlt =>
      refine List.pairwise_cons.2 ⟨?_, List.pairwise_cons.2 h⟩
      intro x hx
      rcases List.mem_cons.1 hx with rfl | hx
      · exact hlt
      · exact List.lt_trans hlt (h.1 x hx)
    · split
      · next heq => exact List.pairwise_cons.2 ⟨heq ▸ h.1, h.2⟩
      · next hlt hne =>
        refine List.pairwise_cons.2 ⟨?_, ih h.2⟩
        intro x hx
        rcases mem_of_mem_putEntry hx with rfl | hx
        · grind
        · exact h.1 x hx

/-- The entry at a place. -/
def lookUp? (place : Place) (l : List (Place × Entry)) : Option Entry :=
  (l.find? fun x => x.1 = place).map Prod.snd

theorem lookUp?_putEntry (place other : Place) (e : Entry) (l : List (Place × Entry)) :
    lookUp? other (putEntry place e l) = if other = place then some e else lookUp? other l := by
  induction l with
  | nil =>
    by_cases h : other = place
    · simp [putEntry, lookUp?, h]
    · simp [putEntry, lookUp?, h, Ne.symm h]
  | cons x rest ih =>
    obtain ⟨k, x⟩ := x
    unfold lookUp? at ih ⊢
    simp only [putEntry]
    by_cases h : other = place
    · subst h
      split
      · simp
      · split
        · simp
        · next hk => simpa [List.find?_cons, hk] using ih
    · split
      · simp [List.find?_cons, Ne.symm h]
      · split
        · next hk => simp [hk, Ne.symm h]
        · by_cases hk : k = other
          · simp [hk]
          · simpa [List.find?_cons, hk, h] using ih

/-! ## §2. The tree. -/

/-- Files and directories, seen from a working directory. -/
structure FileTree where
  entries : List (Place × Entry) := []
  ascending : entries.Pairwise (fun x y => x.1 < y.1) := by simp
  working : Place := []
  readOnly : List Place := []
  deriving Repr, DecidableEq

namespace FileTree

/-- The entry at a place; the top is a directory. -/
def entryAt? (t : FileTree) (place : Place) : Option Entry :=
  if place = [] then some .directory else lookUp? place t.entries

/-- The tree with an entry at a place. -/
def put (t : FileTree) (place : Place) (e : Entry) : FileTree :=
  { t with entries := putEntry place e t.entries, ascending := pairwise_putEntry t.ascending }

theorem entryAt?_put {t : FileTree} {place other : Place} {e : Entry} (h : other ≠ []) :
    (t.put place e).entryAt? other = if other = place then some e else t.entryAt? other := by
  simp only [entryAt?, put, h, if_false, lookUp?_putEntry]

/-- The tree with an entry at a place below the working directory, and the
directories that lead to it. -/
def add (t : FileTree) (names : List Text) (e : Entry) : FileTree :=
  let withParents := (List.range names.length).foldl
    (fun (t : FileTree) k => t.put (t.working ++ names.take k) .directory) t
  if names = [] then t else withParents.put (t.working ++ names) e

/-- One segment further from a place. -/
def step (t : FileTree) (here : Place) (segment : Text) : Option Place :=
  -- also a dot, or nothing after a slash, needs a directory to stand in
  if t.entryAt? here ≠ some .directory then none
  else if segment = [] || segment = ['.'] then some here
  else if segment = ['.', '.'] then
    if t.entryAt? here.dropLast = some .directory then some here.dropLast else none
  else if (t.entryAt? (here ++ [segment])).isSome then some (here ++ [segment])
  else none

/-- Where a path starts. -/
def start (t : FileTree) (p : Path) : Place := if isAbsolute p then [] else t.working

/-- The place that a path leads to. -/
def resolve? (t : FileTree) (p : Path) : Option Place :=
  if p = [] then none else (segments p).foldlM t.step (t.start p)

/-- What a path leads to. -/
def get? (t : FileTree) (p : Path) : Option Entry := (t.resolve? p).bind t.entryAt?

/-- Whether a path leads to a directory. -/
def isDirectory (t : FileTree) (p : Path) : Bool := t.get? p = some .directory

/-- The content of the file that a path leads to. -/
def read? (t : FileTree) (p : Path) : Option Content :=
  match t.get? p with
  | some (.file c) => some c
  | _ => none

/-- Whether a path leads to a file. -/
def isFile (t : FileTree) (p : Path) : Bool := (t.read? p).isSome

/-- The text of the file that a path leads to. -/
def readText? (t : FileTree) (p : Path) : Option Text :=
  match t.read? p with
  | some (.text s) => some s
  | _ => none

/-- The tree with this text at the end of a path; its last segment must name
a file that can be written, or none yet, in a directory. -/
def write? (t : FileTree) (p : Path) (s : Text) : Option FileTree :=
  match (segments p).getLast? with
  | none => none
  | some name =>
    if name = [] || name = ['.'] || name = ['.', '.'] then none
    else
      match (segments p).dropLast.foldlM t.step (t.start p) with
      | none => none
      | some here =>
        if t.entryAt? here ≠ some .directory || t.entryAt? (here ++ [name]) = some .directory ||
            t.readOnly.contains (here ++ [name]) then none
        else some (t.put (here ++ [name]) (.file (.text s)))

/-- What is below a place, as names from there on; a directory comes before
what is in it, names ascend. -/
def below (t : FileTree) (place : Place) : List (List Text) :=
  t.entries.filterMap fun x =>
    if place.isPrefixOf x.1 && place.length < x.1.length then some (x.1.drop place.length) else none

/-- What is below the directory that a path leads to. -/
def descendants (t : FileTree) (p : Path) : List (List Text) :=
  match t.resolve? p with
  | none => []
  | some place => t.below place

/-- The names in the directory that a path leads to. -/
def members (t : FileTree) (p : Path) : List Text :=
  (t.descendants p).filterMap fun names =>
    match names with
    | [name] => some name
    | _ => none

/-- The files below the working directory. -/
def files (t : FileTree) : List (List Text × Content) :=
  t.entries.filterMap fun x =>
    match x.2 with
    | .file c =>
      if t.working.isPrefixOf x.1 then some (x.1.drop t.working.length, c) else none
    | .directory => none

end FileTree
end QwebReceiver.Files
