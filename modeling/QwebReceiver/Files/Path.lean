import QwebReceiver.Text

/-!
  QwebReceiver.Files.Path — paths as they are written.

  A path is kept as it is written and shown that way; two paths are compared
  by their components:

    /a    root, a         a//b    a, b        ..    parent
    ./a   current, a      a/./b   a, b        a/    a

  The components order root < current < parent < names, names by code point.
-/

namespace QwebReceiver.Files

/-- A path as it is written. -/
abbrev Path := Text

/-! ## §1. Parts of a path. -/

/-- The stretches between the slashes, empty ones included. -/
def segments : Path → List Text
  | [] => [[]]
  | c :: r =>
    if c = '/' then [] :: segments r
    else
      match segments r with
      | [] => [[c]]
      | s :: rest => (c :: s) :: rest

theorem segments_ne_nil (p : Path) : segments p ≠ [] := by
  cases p with
  | nil => simp [segments]
  | cons c r =>
    unfold segments
    split
    · simp
    · split <;> simp

/-- Whether a path starts at the top of the tree. -/
def isAbsolute (p : Path) : Bool := p.head? == some '/'

/-- A component of a path. -/
inductive Component where
  | root
  | current
  | parent
  | name (n : Text)
  deriving Repr, DecidableEq

/-- The component that a segment is; empty segments and dots are none. -/
def component? (s : Text) : Option Component :=
  if s = [] || s = ['.'] then none
  else if s = ['.', '.'] then some .parent
  else some (.name s)

/-- The components of a path.  Only a leading dot counts as one. -/
def components (p : Path) : List Component :=
  let rest := (segments p).filterMap component?
  if isAbsolute p then .root :: rest
  else if (segments p).head? = some ['.'] then .current :: rest
  else rest

/-- Whether a path is the current directory itself. -/
def isCurrent (p : Path) : Bool := components p = [.current]

/-- A path below another; an absolute path stands for itself. -/
def join (p q : Path) : Path :=
  if isAbsolute q then q
  else if p = [] || p.getLast? = some '/' then p ++ q
  else p ++ '/' :: q

/-! ## §2. Order. -/

/-- A component as a word of an ordered alphabet. -/
def Component.key : Component → List Nat
  | .root => [0]
  | .current => [1]
  | .parent => [2]
  | .name n => 3 :: n.map Char.toNat

/-- What paths are compared by. -/
def sortKey (p : Path) : List (List Nat) := (components p).map Component.key

/-- Puts a path at its place among ascending paths; of two paths with the same
components the one that was there stays. -/
def placePath (p : Path) : List Path → List Path
  | [] => [p]
  | q :: rest =>
    if sortKey p < sortKey q then p :: q :: rest
    else if sortKey p = sortKey q then q :: rest
    else q :: placePath p rest

theorem mem_of_mem_placePath {p z : Path} {l : List Path} (h : z ∈ placePath p l) :
    z = p ∨ z ∈ l := by
  induction l with
  | nil => simpa [placePath] using h
  | cons q rest ih =>
    simp only [placePath] at h
    split at h
    · simpa using h
    · split at h
      · exact .inr h
      · rcases List.mem_cons.1 h with rfl | h
        · simp
        · rcases ih h with h | h <;> simp [h]

theorem pairwise_placePath {p : Path} {l : List Path}
    (h : l.Pairwise fun a b => sortKey a < sortKey b) :
    (placePath p l).Pairwise fun a b => sortKey a < sortKey b := by
  induction l with
  | nil => simp [placePath]
  | cons q rest ih =>
    rw [List.pairwise_cons] at h
    simp only [placePath]
    split
    · next hpq =>
      refine List.pairwise_cons.2 ⟨?_, List.pairwise_cons.2 h⟩
      intro z hz
      rcases List.mem_cons.1 hz with rfl | hz
      · exact hpq
      · exact List.lt_trans hpq (h.1 z hz)
    · split
      · exact List.pairwise_cons.2 h
      · next hlt hne =>
        refine List.pairwise_cons.2 ⟨?_, ih h.2⟩
        intro z hz
        rcases mem_of_mem_placePath hz with rfl | hz
        · grind
        · exact h.1 z hz

/-- Paths in ascending order, one for each list of components. -/
structure PathSet where
  toList : List Path
  ascending : toList.Pairwise (fun a b => sortKey a < sortKey b) := by simp

namespace PathSet

/-- No paths. -/
def empty : PathSet := { toList := [] }

instance : EmptyCollection PathSet := ⟨empty⟩

/-- The set with one more path. -/
def insert (s : PathSet) (p : Path) : PathSet :=
  { toList := placePath p s.toList, ascending := pairwise_placePath s.ascending }

/-- The set with all of the listed paths, the first ones first. -/
def insertAll (s : PathSet) (paths : List Path) : PathSet := paths.foldl insert s

end PathSet
end QwebReceiver.Files
