import QwebReceiver.Json.Skip

/-!
  QwebReceiver.Json.Value — readers of values of a known shape.

    string           a string
    count?           a natural number of 64 bits, or null for none
    array item       an array
    object s member  an object, its members taken into a state one by one
    record s fields  an object with known members, or an array of their values
                     in order; members that are left out keep their default,
                     unknown ones are passed over, none may come twice

  A value of another shape is mistyped once it is clear what it is: words,
  numerals and strings are read to their end first, arrays and objects are
  known by their bracket.
-/

namespace QwebReceiver.Json

/-! ## §1. Scalars. -/

/-- The fault of a reading that should not have been asked for: its own, or
that the value is of another shape. -/
def faultOf {α : Type} : Except JsonError α → JsonError
  | .error e => e
  | .ok _ => .mistyped

/-- The fault at a value of another shape, given its first character. -/
def mismatch (c : Char) (r : Text) : JsonError :=
  match wordRest? c with
  | some w => faultOf (word w r)
  | none =>
    if startsNumeral c then faultOf (numeral.read (c :: r))
    else if c = '"' then faultOf (quoted.read r)
    else if (Bracket.opened? c).isSome then .mistyped
    else .malformed

/-- Reads a value by its first character, of which the text holds one. -/
def byFirst {α : Type} (f : Char → Text → Reading α)
    (hf : ∀ {c t a r}, f c t = .ok (a, r) → r.length ≤ t.length) : Reader α where
  read t :=
    match skipBlanks t with
    | [] => .error .truncated
    | c :: r => f c r
  consumes h := by
    split at h
    · simp at h
    · next hs => exact Nat.lt_of_le_of_lt (hf h) (length_lt_of_skipBlanks hs)

/-- A string. -/
def string : Reader Text :=
  byFirst (fun c r => if c = '"' then quoted.read r else .error (mismatch c r)) (by
    intro c t a r h
    split at h
    · exact Nat.le_of_lt (quoted.consumes h)
    · simp at h)

/-- A natural number of 64 bits, or none. -/
def count? : Reader (Option Nat) :=
  byFirst (fun c r =>
    if c = 'n' then (word "ull".toList r).map fun s => (none, s)
    else if startsNumeral c then
      match numeral.read (c :: r) with
      | .error e => .error e
      | .ok (n, s) =>
        match n.natural? with
        | none => .error .mistyped
        | some k => .ok (some k, s)
    else .error (mismatch c r)) (by
    intro c t a r h
    split at h
    · obtain ⟨s, hs, heq⟩ := map_eq_ok_iff.1 h
      cases heq
      exact length_word_le hs
    · split at h
      · split at h
        · simp at h
        · next hn =>
          split at h
          · simp at h
          · cases h; exact Nat.le_of_lt_succ (numeral.consumes hn)
      · simp at h)

/-! ## §2. Arrays. -/

variable {α σ : Type}

/-- The items after one of an array, to its end. -/
def moreItems (item : Reader α) (t : Text) : Reading (List α) :=
  match hs : skipBlanks t with
  | [] => .error .truncated
  | c :: r =>
    if c = ']' then .ok ([], r)
    else if c = ',' then
      match hi : item.read r with
      | .error e => .error e
      | .ok (a, s) =>
        have := Nat.lt_trans (item.consumes hi) (length_lt_of_skipBlanks hs)
        (moreItems item s).map fun p => (a :: p.1, p.2)
    else .error .malformed
termination_by t.length

theorem length_moreItems_lt {item : Reader α} {t r : Text} {l : List α}
    (h : moreItems item t = .ok (l, r)) : r.length < t.length := by
  fun_induction moreItems item t generalizing l with
  | case4 =>
    rename_i hlt ih
    obtain ⟨⟨l, s⟩, hp, heq⟩ := map_eq_ok_iff.1 h
    cases heq
    exact Nat.lt_trans (ih hp) hlt
  | _ => grind [→ length_lt_of_skipBlanks]

/-- The items of an array whose bracket has been read. -/
def itemsOf (item : Reader α) (t : Text) : Reading (List α) :=
  match skipBlanks t with
  | ']' :: r => .ok ([], r)
  | _ =>
    match item.read t with
    | .error e => .error e
    | .ok (a, s) => (moreItems item s).map fun p => (a :: p.1, p.2)

theorem length_itemsOf_lt {item : Reader α} {t r : Text} {l : List α}
    (h : itemsOf item t = .ok (l, r)) : r.length < t.length := by
  unfold itemsOf at h
  split at h
  · next hs => cases h; exact length_lt_of_skipBlanks hs
  · split at h
    · simp at h
    · next hi =>
      obtain ⟨⟨l, s⟩, hp, heq⟩ := map_eq_ok_iff.1 h
      cases heq
      exact Nat.lt_trans (length_moreItems_lt hp) (item.consumes hi)

/-- An array. -/
def array (item : Reader α) : Reader (List α) :=
  byFirst (fun c r => if c = '[' then itemsOf item r else .error (mismatch c r)) (by
    intro c t a r h
    split at h
    · exact Nat.le_of_lt (length_itemsOf_lt h)
    · simp at h)

/-! ## §3. Objects. -/

/-- How the members of an object are taken in: given the name of one, the
reader of its value and what then becomes of the state, or a fault. -/
abbrev Members (σ : Type) := σ → Text → Except JsonError (Reader σ)

/-- Reads one member, up to the end of its value. -/
def readMember (member : Members σ) (s : σ) (t : Text) : Reading σ :=
  match mark '"' t with
  | .error e => .error e
  | .ok r =>
    match quoted.read r with
    | .error e => .error e
    | .ok (name, r) =>
      match member s name with
      | .error e => .error e
      | .ok value =>
        match mark ':' r with
        | .error e => .error e
        | .ok r => value.read r

theorem length_readMember_lt {member : Members σ} {s s' : σ} {t r : Text}
    (h : readMember member s t = .ok (s', r)) : r.length < t.length := by
  unfold readMember at h
  split at h
  · simp at h
  · next h₁ =>
    split at h
    · simp at h
    · next h₂ =>
      split at h
      · simp at h
      · next value _ =>
        split at h
        · simp at h
        · next h₃ =>
          have := length_mark_lt h₁
          have := quoted.consumes h₂
          have := length_mark_lt h₃
          have := value.consumes h
          omega

/-- The members after one of an object, to its end. -/
def moreMembers (member : Members σ) (s : σ) (t : Text) : Reading σ :=
  match hs : skipBlanks t with
  | [] => .error .truncated
  | c :: r =>
    if c = '}' then .ok (s, r)
    else if c = ',' then
      match hm : readMember member s r with
      | .error e => .error e
      | .ok (s', u) =>
        have := Nat.lt_trans (length_readMember_lt hm) (length_lt_of_skipBlanks hs)
        moreMembers member s' u
    else .error .malformed
termination_by t.length

theorem length_moreMembers_lt {member : Members σ} {s s' : σ} {t r : Text}
    (h : moreMembers member s t = .ok (s', r)) : r.length < t.length := by
  fun_induction moreMembers member s t <;> grind [→ length_lt_of_skipBlanks]

/-- The members of an object whose bracket has been read. -/
def membersOf (member : Members σ) (s : σ) (t : Text) : Reading σ :=
  match skipBlanks t with
  | '}' :: r => .ok (s, r)
  | _ =>
    match readMember member s t with
    | .error e => .error e
    | .ok (s', r) => moreMembers member s' r

theorem length_membersOf_lt {member : Members σ} {s s' : σ} {t r : Text}
    (h : membersOf member s t = .ok (s', r)) : r.length < t.length := by
  unfold membersOf at h
  split at h
  · next hs => cases h; exact length_lt_of_skipBlanks hs
  · split at h
    · simp at h
    · next hm => exact Nat.lt_trans (length_moreMembers_lt h) (length_readMember_lt hm)

/-- An object. -/
def object (start : σ) (member : Members σ) : Reader σ :=
  byFirst (fun c r => if c = '{' then membersOf member start r else .error (mismatch c r)) (by
    intro c t a r h
    split at h
    · exact Nat.le_of_lt (length_membersOf_lt h)
    · simp at h)

/-! ## §4. Records. -/

/-- A field of a record: its name, and the reader that sets it. -/
structure RecordField (σ : Type) where
  name : Text
  set : σ → Reader σ

/-- The members of a record; the names that came up stand beside its value. -/
def fieldMembers (fields : List (RecordField σ)) : Members (List Text × σ) := fun s name =>
  match fields.find? fun f => f.name = name with
  | none => .ok (skipValue.map fun _ => s)
  | some f =>
    if s.1.contains name then .error .mistyped
    else .ok ((f.set s.2).map fun v => (name :: s.1, v))

/-- The fields of a record written as an array, after its first value. -/
def moreFields : List (RecordField σ) → σ → Text → Reading σ
  | fields, s, t =>
    match skipBlanks t with
    | [] => .error .truncated
    | c :: r =>
      if c = ']' then .ok (s, r)
      else if c = ',' then
        -- values beyond the last field are not read
        match fields with
        | [] => .error .malformed
        | f :: fs =>
          match (f.set s).read r with
          | .error e => .error e
          | .ok (s', u) => moreFields fs s' u
      else .error .malformed

theorem length_moreFields_lt {fields : List (RecordField σ)} {s s' : σ} {t r : Text}
    (h : moreFields fields s t = .ok (s', r)) : r.length < t.length := by
  induction fields generalizing s t with
  | nil => grind [moreFields, → length_lt_of_skipBlanks]
  | cons f fs ih =>
    unfold moreFields at h
    split at h
    · simp at h
    · next hs =>
      have := length_lt_of_skipBlanks hs
      split at h
      · cases h; exact this
      · split at h
        · split at h
          · simp at h
          · next heq =>
            cases heq
            split at h
            · simp at h
            · next hf =>
              have := (f.set s).consumes hf
              have := ih h
              omega
        · simp at h

/-- The fields of a record written as an array whose bracket has been read. -/
def fieldsOf (fields : List (RecordField σ)) (s : σ) (t : Text) : Reading σ :=
  match skipBlanks t, fields with
  | ']' :: r, _ => .ok (s, r)
  | _, [] => moreFields [] s t
  | _, f :: fs =>
    match (f.set s).read t with
    | .error e => .error e
    | .ok (s', r) => moreFields fs s' r

theorem length_fieldsOf_lt {fields : List (RecordField σ)} {s s' : σ} {t r : Text}
    (h : fieldsOf fields s t = .ok (s', r)) : r.length < t.length := by
  unfold fieldsOf at h
  split at h
  · next hs => cases h; exact length_lt_of_skipBlanks hs
  · exact length_moreFields_lt h
  · next f fs _ =>
    split at h
    · simp at h
    · next hf => exact Nat.lt_trans (length_moreFields_lt h) ((f.set s).consumes hf)

/-- A record. -/
def record (start : σ) (fields : List (RecordField σ)) : Reader σ :=
  byFirst (fun c r =>
    if c = '{' then
      (membersOf (fieldMembers fields) ([], start) r).map fun p => (p.1.2, p.2)
    else if c = '[' then fieldsOf fields start r
    else .error (mismatch c r)) (by
    intro c t a r h
    split at h
    · obtain ⟨⟨s, u⟩, hp, heq⟩ := map_eq_ok_iff.1 h
      cases heq
      exact Nat.le_of_lt (length_membersOf_lt hp)
    · split at h
      · exact Nat.le_of_lt (length_fieldsOf_lt h)
      · simp at h)

/-! ## §5. Whole texts. -/

/-- The value that a text is; only blanks may follow it. -/
def Reader.whole (p : Reader α) (t : Text) : Except JsonError α :=
  match p.read t with
  | .error e => .error e
  | .ok (a, r) => if (skipBlanks r).isEmpty then .ok a else .error .malformed

end QwebReceiver.Json
