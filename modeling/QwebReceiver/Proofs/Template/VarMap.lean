import Mathlib.Order.Bounds.Basic
import Mathlib.Data.List.Nodup
import QwebReceiver.Template.VarMap

/-!
  QwebReceiver.Proofs.Template.VarMap — maps of variables as they are read.

  A map is read by name (`get?`); the order of its entries shows only when it
  is written out.  Maps are ordered by what they hold: `m ≤ n` says that every
  template of `m` is one of `n`, with no fewer variables.  In this order

    merge       is the least upper bound of two maps        `isLUB_merge`
    both ways   is the same reading of every name           `le_antisymm_iff_get?`

  Merging is pinned down exactly, entries in order, by `merge_add`: what is
  added to the second map may as well be added after merging.
-/

namespace QwebReceiver.Template.VarMap

variable {m n k : VarMap} {name : Text} {vars : List Text}

/-! ## §1. Reading a merged map. -/

/-- The templates of a map, in the order in which they came up. -/
def names (m : VarMap) : List Text := m.entries.map Prod.fst

/-- What two maps say about a template, taken together.  If only one of them has
an entry, that is what is said. -/
def both (s t : Option NameSet) : Option NameSet := Option.merge NameSet.union s t

theorem both_none (s : Option NameSet) : both s none = s := by cases s <;> rfl

/-- What three maps say is the same, in whatever order it is taken together. -/
theorem both_assoc (s t u : Option NameSet) : both (both s t) u = both s (both t u) := by
  cases s <;> cases t <;> cases u <;> try rfl
  exact congrArg some (NameSet.ext fun x => by simp [or_assoc])

/-- No entry is found for a name that no entry has. -/
theorem find?_of_not_mem {l : List (Text × NameSet)} (h : name ∉ l.map Prod.fst) :
    l.find? (fun e => e.1 = name) = none := by
  rw [List.find?_eq_none]
  intro e he hname
  exact h (List.mem_map.2 ⟨e, he, by simpa using hname⟩)

/-- What a map says after entries with distinct names are merged into it. -/
theorem get?_foldl_adjust (l : List (Text × NameSet)) (hl : (l.map Prod.fst).Nodup) (m : VarMap) :
    (l.foldl (fun (acc : VarMap) e => acc.adjust e.1 fun s => s.union e.2) m).get? name =
      both (m.get? name) ((l.find? fun e => e.1 = name).map Prod.snd) := by
  induction l generalizing m with
  | nil => exact (both_none _).symm
  | cons e l ih =>
    obtain ⟨key, vars⟩ := e
    rw [List.map_cons, List.nodup_cons] at hl
    rw [List.foldl_cons, ih hl.2, get?_adjust]
    by_cases h : name = key
    · subst h
      -- no later entry has this name
      rw [if_pos rfl, find?_of_not_mem hl.1, Option.map_none, both_none, List.find?_cons_of_pos (by simp)]
      cases m.get? name with
      | none => exact congrArg some (NameSet.ext fun x => by simp)
      | some s => rfl
    · rw [if_neg h, List.find?_cons_of_neg (by simp [Ne.symm h])]

/-- A merged map says what both maps say. -/
theorem get?_merge (m n : VarMap) (name : Text) :
    (m.merge n).get? name = both (m.get? name) (n.get? name) :=
  get?_foldl_adjust n.entries n.distinct m

/-- An addition is read at its template, and nowhere else. -/
theorem get?_add (m : VarMap) (x name : Text) (vars : List Text) :
    (m.add x vars).get? name =
      both (m.get? name) (if name = x then some (NameSet.ofList vars) else none) := by
  rw [add, get?_adjust]
  by_cases h : name = x
  · subst h
    rw [if_pos rfl, if_pos rfl]
    cases m.get? name with
    | none => rfl
    | some s => exact congrArg some (NameSet.ext fun x => by simp [or_comm])
  · rw [if_neg h, if_neg h, both_none]

/-- To make a template known is to add no variables to it. -/
theorem ensure_eq_add (m : VarMap) (name : Text) : m.ensure name = m.add name [] := rfl

/-! ## §2. The order of a merged map. -/

/-- A list with a name added at its end, unless the list has it. -/
def addName (l : List Text) (x : Text) : List Text := if l.contains x then l else l ++ [x]

theorem addName_of_mem {l : List Text} {x : Text} (h : x ∈ l) : addName l x = l :=
  if_pos (List.contains_iff_mem.2 h)

theorem addName_of_not_mem {l : List Text} {x : Text} (h : x ∉ l) : addName l x = l ++ [x] :=
  if_neg fun hx => h (List.contains_iff_mem.1 hx)

/-- A list with a name added has that name and those it had. -/
theorem mem_addName {l : List Text} {x y : Text} : y ∈ addName l x ↔ y ∈ l ∨ y = x := by
  by_cases hx : x ∈ l
  · rw [addName_of_mem hx]
    exact ⟨Or.inl, fun h => h.elim id fun h => h ▸ hx⟩
  · rw [addName_of_not_mem hx, List.mem_append, List.mem_singleton]

/-- A template that is changed comes up once, at the end if it is new. -/
theorem names_adjust (m : VarMap) (x : Text) (f : NameSet → NameSet) :
    (m.adjust x f).names = addName m.names x := by
  refine (keys_adjustEntry f x m.entries).trans ?_
  show (if x ∈ m.names then m.names else m.names ++ [x]) = addName m.names x
  split
  · next hx => exact (addName_of_mem hx).symm
  · next hx => exact (addName_of_not_mem hx).symm

/-- An addition makes its template come up. -/
theorem names_add (m : VarMap) (x : Text) (vars : List Text) :
    (m.add x vars).names = addName m.names x :=
  names_adjust m x _

/-- The templates of a merged map: those of the first map, then the new ones of
the second. -/
theorem names_merge (m n : VarMap) : (m.merge n).names = n.names.foldl addName m.names := by
  show (n.entries.foldl (fun (acc : VarMap) e => acc.adjust e.1 fun s => s.union e.2) m).names =
    (n.entries.map Prod.fst).foldl addName m.names
  induction n.entries generalizing m with
  | nil => rfl
  | cons e l ih =>
    rw [List.foldl_cons, ih, List.map_cons, List.foldl_cons, names_adjust]

/-- The names added one after the other are there, and so are those before. -/
theorem mem_foldl_addName {l before : List Text} {x : Text} :
    x ∈ l.foldl addName before ↔ x ∈ before ∨ x ∈ l := by
  induction l generalizing before with
  | nil => simp
  | cons y l ih => rw [List.foldl_cons, ih, mem_addName, List.mem_cons, or_assoc]

/-- A name that is added last is added to what the other names made. -/
theorem foldl_addName_addName (l before : List Text) (x : Text) :
    (addName l x).foldl addName before = addName (l.foldl addName before) x := by
  by_cases hx : x ∈ l
  · have hlater : x ∈ l.foldl addName before := mem_foldl_addName.2 (.inr hx)
    rw [addName_of_mem hx, addName_of_mem hlater]
  · rw [addName_of_not_mem hx, List.foldl_append]
    rfl

/-- Two maps with the same names in the same order that read the same are the
same map. -/
theorem eq_of_names (hnames : m.names = n.names) (h : ∀ name, m.get? name = n.get? name) :
    m = n := by
  obtain ⟨l, hl⟩ := m
  obtain ⟨l', hl'⟩ := n
  refine eq_of_entries ?_
  simp only [names] at hnames ⊢
  simp only [get?] at h
  induction l generalizing l' with
  | nil => exact (List.map_eq_nil_iff.1 hnames.symm).symm
  | cons e l ih =>
    obtain ⟨key, s⟩ := e
    cases l' with
    | nil => cases hnames
    | cons e' l' =>
      obtain ⟨key', s'⟩ := e'
      rw [List.map_cons, List.map_cons, List.cons.injEq] at hnames
      obtain ⟨rfl, hrest⟩ := hnames
      rw [List.map_cons, List.nodup_cons] at hl hl'
      have hs : s = s' := by simpa using h key
      subst hs
      congr 1
      refine ih hl.2 l' hl'.2 hrest fun name => ?_
      by_cases hname : name = key
      · -- the name is taken by the first entry, so neither rest has it
        subst hname
        rw [find?_of_not_mem hl.1, find?_of_not_mem hl'.1]
      · simpa [List.find?_cons, Ne.symm hname] using h name

/-- **Adding and merging commute**, entries in order.  So gathering file by file
and merging at the end come to the same map, its order included. -/
theorem merge_add (m n : VarMap) (name : Text) (vars : List Text) :
    m.merge (n.add name vars) = (m.merge n).add name vars := by
  refine eq_of_names ?_ fun x => ?_
  · rw [names_merge, names_add, names_add, names_merge, foldl_addName_addName]
  · rw [get?_merge, get?_add, get?_add, get?_merge, both_assoc]

/-! ## §3. Maps by what they hold. -/

/-- Every template of the first map is one of the second, with no fewer
variables. -/
instance : LE VarMap :=
  ⟨fun m n => ∀ name s, m.get? name = some s → ∃ t, n.get? name = some t ∧ ∀ x ∈ s, x ∈ t⟩

instance : Preorder VarMap where
  le_refl m name s hs := ⟨s, hs, fun _ hx => hx⟩
  le_trans m n k hmn hnk name s hs := by
    obtain ⟨t, ht, hst⟩ := hmn name s hs
    obtain ⟨u, hu, htu⟩ := hnk name t ht
    exact ⟨u, hu, fun x hx => htu x (hst x hx)⟩

/-- Maps that hold the same read the same. -/
theorem le_antisymm_iff_get? : m ≤ n ∧ n ≤ m ↔ ∀ name, m.get? name = n.get? name := by
  constructor
  · rintro ⟨hmn, hnm⟩ name
    cases hm : m.get? name with
    | none =>
      cases hn : n.get? name with
      | none => rfl
      | some t =>
        obtain ⟨s, hs, -⟩ := hnm name t hn
        rw [hm] at hs
        cases hs
    | some s =>
      obtain ⟨t, ht, hst⟩ := hmn name s hm
      obtain ⟨s', hs', hts⟩ := hnm name t ht
      -- both maps have an entry here, with sets that contain each other
      obtain rfl : s = s' := Option.some.inj (hm.symm.trans hs')
      rw [ht, NameSet.ext fun x => ⟨hst x, hts x⟩]
  · intro h
    exact ⟨fun name s hs => ⟨s, h name ▸ hs, fun _ hx => hx⟩,
      fun name s hs => ⟨s, h name ▸ hs, fun _ hx => hx⟩⟩

theorem empty_le (m : VarMap) : ∅ ≤ m := fun _ _ h => by cases h

/-- **Merging is the least upper bound** of what two maps hold.  The order here
forgets how the entries are listed. -/
theorem isLUB_merge (m n : VarMap) : IsLUB {m, n} (m.merge n) := by
  constructor
  · rintro u (rfl | rfl) name s hs
    · rw [get?_merge, hs]
      cases n.get? name with
      | none => exact ⟨s, rfl, fun _ hx => hx⟩
      | some t => exact ⟨s.union t, rfl, fun x hx => NameSet.mem_union.2 (.inl hx)⟩
    · rw [get?_merge, hs]
      cases m.get? name with
      | none => exact ⟨s, rfl, fun _ hx => hx⟩
      | some t => exact ⟨t.union s, rfl, fun x hx => NameSet.mem_union.2 (.inr hx)⟩
  -- an entry of the merge is one of the two, or the union of both
  · intro u hu name s hs
    have hm : m ≤ u := hu (by simp)
    have hn : n ≤ u := hu (by simp)
    rw [get?_merge] at hs
    cases hmn : m.get? name with
    | none =>
      rw [hmn] at hs
      exact hn name s (by cases hn' : n.get? name <;> simp_all [both])
    | some a =>
      cases hnn : n.get? name with
      | none =>
        rw [hmn, hnn, both_none] at hs
        exact hm name s (hmn.trans hs)
      | some b =>
        obtain ⟨t, ht, hat⟩ := hm name a hmn
        obtain ⟨t', ht', hbt⟩ := hn name b hnn
        obtain rfl : t = t' := Option.some.inj (ht.symm.trans ht')
        obtain rfl : a.union b = s := by simpa [hmn, hnn, both] using hs
        refine ⟨t, ht, fun x hx => ?_⟩
        exact (NameSet.mem_union.1 hx).elim (hat x) (hbt x)

end QwebReceiver.Template.VarMap
