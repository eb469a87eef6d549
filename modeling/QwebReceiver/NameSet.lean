import QwebReceiver.Text

/-!
  QwebReceiver.NameSet — finite sets of names.

  A set is its list of members in ascending order (by code point), so two
  sets with the same members are equal and the members print in one order.
-/

namespace QwebReceiver

/-- A finite set of names, listed in strictly ascending order. -/
structure NameSet where
  toList : List Text
  ascending : toList.Pairwise (· < ·) := by simp
  deriving DecidableEq

namespace NameSet

/-! ## §1. Insertion into an ascending list. -/

/-- Puts a name at its place, unless it is there. -/
def place (x : Text) : List Text → List Text
  | [] => [x]
  | y :: r => if x < y then x :: y :: r else if x = y then y :: r else y :: place x r

@[simp] theorem mem_place {x z : Text} {l : List Text} : z ∈ place x l ↔ z = x ∨ z ∈ l := by
  induction l with
  | nil => simp [place]
  | cons y r ih =>
    simp only [place]
    split
    · simp
    · split
      · next h => subst h; simp
      · simp only [List.mem_cons, ih]
        constructor
        · rintro (h | h | h) <;> simp [h]
        · rintro (h | h | h) <;> simp [h]

theorem pairwise_place {x : Text} {l : List Text} (h : l.Pairwise (· < ·)) :
    (place x l).Pairwise (· < ·) := by
  induction l with
  | nil => simp [place]
  | cons y r ih =>
    rw [List.pairwise_cons] at h
    simp only [place]
    split
    · next hxy =>
      refine List.pairwise_cons.2 ⟨?_, List.pairwise_cons.2 h⟩
      intro z hz
      rcases List.mem_cons.1 hz with rfl | hz
      · exact hxy
      · exact List.lt_trans hxy (h.1 z hz)
    · split
      · exact List.pairwise_cons.2 h
      · next hlt hne =>
        refine List.pairwise_cons.2 ⟨?_, ih h.2⟩
        intro z hz
        rcases mem_place.1 hz with rfl | hz
        · grind
        · exact h.1 z hz

/-! ## §2. The operations. -/

/-- No names. -/
def empty : NameSet := { toList := [] }

instance : EmptyCollection NameSet := ⟨empty⟩

instance : Inhabited NameSet := ⟨empty⟩

instance : Membership Text NameSet := ⟨fun s x => x ∈ s.toList⟩

instance (x : Text) (s : NameSet) : Decidable (x ∈ s) :=
  inferInstanceAs (Decidable (x ∈ s.toList))

/-- Whether the name is in the set. -/
def contains (s : NameSet) (x : Text) : Bool := decide (x ∈ s)

/-- The set with one more name. -/
def insert (x : Text) (s : NameSet) : NameSet :=
  { toList := place x s.toList, ascending := pairwise_place s.ascending }

/-- The set with all of the listed names. -/
def insertAll (names : List Text) (s : NameSet) : NameSet :=
  names.foldl (fun acc x => acc.insert x) s

/-- The set of the listed names. -/
def ofList (names : List Text) : NameSet := insertAll names empty

/-- The names in either set. -/
def union (s t : NameSet) : NameSet := insertAll t.toList s

/-- How many names there are. -/
def size (s : NameSet) : Nat := s.toList.length

/-! ## §3. Membership. -/

theorem mem_def {x : Text} {s : NameSet} : x ∈ s ↔ x ∈ s.toList := Iff.rfl

@[simp] theorem not_mem_empty (x : Text) : ¬ x ∈ (∅ : NameSet) := List.not_mem_nil

@[simp] theorem mem_insert {x y : Text} {s : NameSet} : y ∈ s.insert x ↔ y = x ∨ y ∈ s :=
  mem_place

@[simp] theorem mem_insertAll {y : Text} {names : List Text} {s : NameSet} :
    y ∈ s.insertAll names ↔ y ∈ names ∨ y ∈ s := by
  unfold insertAll
  induction names generalizing s with
  | nil => simp
  | cons x r ih =>
    rw [List.foldl_cons, ih, mem_insert, List.mem_cons]
    constructor
    · rintro (h | h | h) <;> simp [h]
    · rintro ((h | h) | h) <;> simp [h]

@[simp] theorem mem_ofList {y : Text} {names : List Text} : y ∈ ofList names ↔ y ∈ names := by
  rw [ofList, mem_insertAll]
  exact ⟨fun h => h.resolve_right (not_mem_empty y), Or.inl⟩

@[simp] theorem mem_union {y : Text} {s t : NameSet} : y ∈ s.union t ↔ y ∈ s ∨ y ∈ t := by
  rw [union, mem_insertAll, ← mem_def, or_comm]

@[simp] theorem contains_eq_true {x : Text} {s : NameSet} : s.contains x = true ↔ x ∈ s := by
  simp [contains]

/-! ## §4. Sets as lists. -/

theorem place_eq_append {x : Text} {l : List Text} (h : ∀ y ∈ l, y < x) :
    place x l = l ++ [x] := by
  induction l with
  | nil => rfl
  | cons y r ih =>
    have hy : y < x := h y (by simp)
    have h1 : ¬ x < y := List.lt_asymm hy
    have h2 : x ≠ y := by rintro rfl; exact List.lt_irrefl _ hy
    simp [place, h1, h2, ih fun z hz => h z (by simp [hz])]

theorem toList_insertAll_of_ascending {l : List Text} {s : NameSet}
    (h : (s.toList ++ l).Pairwise (· < ·)) : (s.insertAll l).toList = s.toList ++ l := by
  unfold insertAll
  induction l generalizing s with
  | nil => simp
  | cons x r ih =>
    have hx : (s.insert x).toList = s.toList ++ [x] :=
      place_eq_append fun y hy => (List.pairwise_append.1 h).2.2 y hy x (by simp)
    rw [List.foldl_cons, ih (by rw [hx]; simpa using h), hx]
    simp

/-- A set is the set of its members. -/
@[simp] theorem ofList_toList (s : NameSet) : ofList s.toList = s := by
  have h : (ofList s.toList).toList = s.toList :=
    toList_insertAll_of_ascending (s := empty) s.ascending
  cases s
  cases hs : ofList _
  simp_all

/-- Two sets with the same members are equal. -/
theorem ext {s t : NameSet} (h : ∀ x, x ∈ s ↔ x ∈ t) : s = t := by
  -- a list in strict order starts with its least member
  have key : ∀ {l m : List Text}, l.Pairwise (· < ·) → m.Pairwise (· < ·) →
      (∀ x, x ∈ l ↔ x ∈ m) → l = m := by
    intro l
    induction l with
    | nil =>
      intro m _ _ hm
      exact (List.eq_nil_iff_forall_not_mem.2 fun x hx => by simpa using (hm x).2 hx).symm
    | cons a l ih =>
      intro m hl hm hlm
      cases m with
      | nil => simpa using (hlm a).1 (by simp)
      | cons b m =>
        rw [List.pairwise_cons] at hl hm
        have hab : a = b := by
          rcases List.mem_cons.1 ((hlm a).1 (by simp)) with hab | ha
          · exact hab
          · rcases List.mem_cons.1 ((hlm b).2 (by simp)) with hba | hb
            · exact hba.symm
            · exact absurd (hm.1 a ha) (List.lt_asymm (hl.1 b hb))
        subst hab
        congr 1
        refine ih hl.2 hm.2 fun x => ?_
        constructor
        · intro hx
          rcases List.mem_cons.1 ((hlm x).1 (by simp [hx])) with rfl | h'
          · exact absurd (hl.1 x hx) (List.lt_irrefl x)
          · exact h'
        · intro hx
          rcases List.mem_cons.1 ((hlm x).2 (by simp [hx])) with rfl | h'
          · exact absurd (hm.1 x hx) (List.lt_irrefl x)
          · exact h'
  have := key s.ascending t.ascending h
  cases s
  cases t
  simp_all

end NameSet
end QwebReceiver
