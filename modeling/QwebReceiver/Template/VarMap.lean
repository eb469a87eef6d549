import QwebReceiver.NameSet

/-!
  QwebReceiver.Template.VarMap — variables by template.

  A map from template names to sets of variable names.  Its entries stand in
  the order in which their names first came up, one entry for each name.
-/

namespace QwebReceiver.Template

/-! ## §1. Entries. -/

/-- Changes the entry of a name; a name without one gets an entry at the end,
made from the empty set. -/
def adjustEntry (f : NameSet → NameSet) (name : Text) :
    List (Text × NameSet) → List (Text × NameSet)
  | [] => [(name, f ∅)]
  | (n, s) :: rest => if n = name then (n, f s) :: rest else (n, s) :: adjustEntry f name rest

theorem keys_adjustEntry (f : NameSet → NameSet) (name : Text) (l : List (Text × NameSet)) :
    (adjustEntry f name l).map Prod.fst =
      if name ∈ l.map Prod.fst then l.map Prod.fst else l.map Prod.fst ++ [name] := by
  induction l with
  | nil => simp [adjustEntry]
  | cons p rest ih =>
    obtain ⟨n, s⟩ := p
    by_cases h : n = name
    · simp [adjustEntry, h]
    · simp only [adjustEntry, h, if_false, List.map_cons, ih, List.mem_cons, Ne.symm h, false_or]
      split <;> simp

theorem nodup_adjustEntry {f : NameSet → NameSet} {name : Text} {l : List (Text × NameSet)}
    (h : (l.map Prod.fst).Nodup) : ((adjustEntry f name l).map Prod.fst).Nodup := by
  rw [keys_adjustEntry]
  split
  · exact h
  · next hn => exact List.nodup_append.2 ⟨h, by simp, by
      intro a ha b hb
      rw [List.mem_singleton] at hb
      rintro rfl
      exact hn (hb ▸ ha)⟩

theorem adjustEntry_of_not_mem {f : NameSet → NameSet} {name : Text} {l : List (Text × NameSet)}
    (h : name ∉ l.map Prod.fst) : adjustEntry f name l = l ++ [(name, f ∅)] := by
  induction l with
  | nil => rfl
  | cons p rest ih =>
    obtain ⟨n, s⟩ := p
    rw [List.map_cons, List.mem_cons, not_or] at h
    simp [adjustEntry, Ne.symm h.1, ih h.2]

/-! ## §2. The map. -/

/-- Variables by template, in the order in which the templates came up. -/
structure VarMap where
  entries : List (Text × NameSet)
  distinct : (entries.map Prod.fst).Nodup := by simp

namespace VarMap

/-- No entries. -/
def empty : VarMap := { entries := [] }

instance : EmptyCollection VarMap := ⟨empty⟩

instance : Inhabited VarMap := ⟨empty⟩

/-- The variables of a template. -/
def get? (m : VarMap) (name : Text) : Option NameSet :=
  (m.entries.find? fun e => e.1 = name).map Prod.snd

/-- Changes the variables of a template, none if it had no entry. -/
def adjust (m : VarMap) (name : Text) (f : NameSet → NameSet) : VarMap :=
  { entries := adjustEntry f name m.entries, distinct := nodup_adjustEntry m.distinct }

/-- The map with an entry for the template. -/
def ensure (m : VarMap) (name : Text) : VarMap := m.adjust name id

/-- Adds variables to a template. -/
def add (m : VarMap) (name : Text) (vars : List Text) : VarMap :=
  m.adjust name fun s => s.insertAll vars

/-- Gives a template these variables and no others. -/
def put (m : VarMap) (name : Text) (vars : NameSet) : VarMap := m.adjust name fun _ => vars

/-- Adds the entries of another map. -/
def merge (m other : VarMap) : VarMap :=
  other.entries.foldl (fun acc e => acc.adjust e.1 fun s => s.union e.2) m

/-- How many templates have an entry. -/
def size (m : VarMap) : Nat := m.entries.length

/-! ## §3. Laws. -/

theorem eq_of_entries {m n : VarMap} (h : m.entries = n.entries) : m = n := by
  cases m
  cases n
  cases h
  rfl

theorem entries_put_of_new {m : VarMap} {name : Text} (h : name ∉ m.entries.map Prod.fst)
    (vars : NameSet) : (m.put name vars).entries = m.entries ++ [(name, vars)] :=
  adjustEntry_of_not_mem h

theorem get?_eq_none {m : VarMap} {name : Text} :
    m.get? name = none ↔ name ∉ m.entries.map Prod.fst := by
  simp only [get?, Option.map_eq_none_iff, List.find?_eq_none, decide_eq_true_eq, List.mem_map,
    not_exists, not_and]

/-- What a change does to each entry. -/
theorem get?_adjust (m : VarMap) (name x : Text) (f : NameSet → NameSet) :
    (m.adjust name f).get? x = if x = name then some (f ((m.get? name).getD ∅)) else m.get? x := by
  simp only [get?, adjust]
  induction m.entries with
  | nil => by_cases h : x = name <;> simp [adjustEntry, h, Ne.symm]
  | cons p rest ih =>
    obtain ⟨n, s⟩ := p
    by_cases hn : n = name
    · subst hn
      by_cases hx : x = n
      · subst hx; simp [adjustEntry]
      · simp [adjustEntry, hx, Ne.symm hx]
    · by_cases hx : x = n
      · subst hx; simp [adjustEntry, hn]
      · simp only [adjustEntry, hn, if_false, List.find?_cons, Ne.symm hx, decide_false]
        exact ih

end VarMap
end QwebReceiver.Template
