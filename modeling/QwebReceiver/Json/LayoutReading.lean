import QwebReceiver.Json.Layout
import QwebReceiver.Json.Value

/-!
  QwebReceiver.Json.LayoutReading — what is laid out is read back.

  Main results:
    * `string_accepts_writeQuoted` — a string
    * `array_accepts_writeBlock` — an array of items, each of which is read back
    * `object_accepts_writeBlock`, `record_accepts_writeBlock` — an object, its
      members taken in one by one

  `Accepts` leaves open what follows the text, so the results compose.
-/

namespace QwebReceiver.Json

variable {α σ : Type}

/-! ## §1. Blanks. -/

theorem skipBlanks_margin (n : Nat) (t : Text) : skipBlanks (margin n ++ t) = skipBlanks t := by
  unfold margin skipBlanks
  generalize 2 * n = k
  induction k with
  | zero => rfl
  | succ k ih =>
    rw [List.replicate_succ, List.cons_append, List.dropWhile_cons_of_pos (by decide), ih]

theorem skipBlanks_newline (n : Nat) (t : Text) :
    skipBlanks ('\n' :: (margin n ++ t)) = skipBlanks t :=
  skipBlanks_margin n t

theorem skipBlanks_cons {c : Char} (h : isBlank c = false) (t : Text) :
    skipBlanks (c :: t) = c :: t := by
  simp [skipBlanks, h]

/-- A reader that starts at the first lexeme. -/
def Reader.IgnoresBlanks (p : Reader α) : Prop :=
  ∀ s t, skipBlanks s = skipBlanks t → p.read s = p.read t

theorem string_ignoresBlanks : string.IgnoresBlanks := by
  intro s t h
  simp only [string, byFirst, h]

theorem array_ignoresBlanks (item : Reader α) : (array item).IgnoresBlanks := by
  intro s t h
  simp only [array, byFirst, h]

theorem object_ignoresBlanks (start : σ) (member : Members σ) :
    (object start member).IgnoresBlanks := by
  intro s t h
  simp only [object, byFirst, h]

theorem Reader.IgnoresBlanks.map {β : Type} {p : Reader α} (h : p.IgnoresBlanks) (f : α → β) :
    (p.map f).IgnoresBlanks := by
  intro s t hst
  simp only [Reader.map, h s t hst]

/-! ## §2. Lines. -/

/-- The lines after the first one. -/
def laterLines (depth : Nat) (items : List Text) : Text :=
  items.flatMap fun item => ',' :: '\n' :: (margin depth ++ item)

theorem writeLines_cons (depth : Nat) (item : Text) (rest : List Text) :
    writeLines depth (item :: rest) = '\n' :: (margin depth ++ item ++ laterLines depth rest) := by
  induction rest generalizing item with
  | nil => simp [writeLines, laterLines]
  | cons next rest ih =>
    rw [writeLines, ih]
    · simp [laterLines]
    · simp

/-- The end of a bracket. -/
def ending (b : Bracket) (depth : Nat) : Text := '\n' :: (margin depth ++ [b.close])

theorem writeBlock_cons (b : Bracket) (depth : Nat) (item : Text) (rest : List Text) :
    writeBlock b depth (item :: rest) =
      b.opening :: '\n' ::
        (margin (depth + 1) ++ item ++ laterLines (depth + 1) rest ++ ending b depth) := by
  simp [writeBlock, writeLines_cons, ending]

theorem Bracket.isBlank_close (b : Bracket) : isBlank b.close = false := by cases b <;> rfl

theorem skipBlanks_ending (b : Bracket) (depth : Nat) (r : Text) :
    skipBlanks (ending b depth ++ r) = b.close :: r := by
  rw [ending, List.cons_append, List.append_assoc, skipBlanks_newline]
  exact skipBlanks_cons b.isBlank_close r

/-! ## §3. Strings and arrays. -/

/-- The reader reads the text as the value, whatever follows. -/
def Reader.Accepts (p : Reader α) (t : Text) (a : α) : Prop := ∀ r, p.read (t ++ r) = .ok (a, r)

theorem Reader.Accepts.map {β : Type} {p : Reader α} {t : Text} {a : α} (h : p.Accepts t a)
    (f : α → β) : (p.map f).Accepts t (f a) := by
  intro r
  simp only [Reader.map, h r]

/-- A whole text is its value. -/
theorem Reader.Accepts.whole {p : Reader α} {t : Text} {a : α} (h : p.Accepts t a) :
    p.whole t = .ok a := by
  have := h []
  rw [List.append_nil] at this
  simp [Reader.whole, this, skipBlanks]

/-- A written string is read back. -/
theorem string_accepts_writeQuoted (t : Text) : string.Accepts (writeQuoted t) t := by
  intro r
  have hq := quoted_read_writeQuoted t r
  have hs : skipBlanks (writeQuoted t ++ r) = '"' :: (t.flatMap writeChar ++ '"' :: r) := by
    rw [writeQuoted]
    simpa using skipBlanks_cons (c := '"') rfl _
  simp only [string, byFirst, hs, if_true, hq]

theorem moreItems_ending (item : Reader α) (depth : Nat) (r : Text) :
    moreItems item (ending .array depth ++ r) = .ok ([], r) := by
  rw [moreItems]
  split
  · next h => simp [skipBlanks_ending] at h
  · next h =>
    rw [skipBlanks_ending] at h
    cases h
    simp [Bracket.close]

theorem moreItems_comma {item : Reader α} {t r : Text} {a : α} (h : item.read t = .ok (a, r)) :
    moreItems item (',' :: t) = (moreItems item r).map fun p => (a :: p.1, p.2) := by
  rw [moreItems]
  split
  · next hs => simp [skipBlanks_cons (show isBlank ',' = false from rfl)] at hs
  · next hs =>
    rw [skipBlanks_cons (show isBlank ',' = false from rfl)] at hs
    cases hs
    simp only [Char.reduceEq, if_false, if_true]
    split
    · next hi => simp [h] at hi
    · next hi => rw [h] at hi; cases hi; rfl

theorem moreItems_laterLines {item : Reader α} (hb : item.IgnoresBlanks) {write : α → Text}
    {l : List α} (h : ∀ a ∈ l, item.Accepts (write a) a) (depth d : Nat) (r : Text) :
    moreItems item (laterLines d (l.map write) ++ (ending .array depth ++ r)) = .ok (l, r) := by
  induction l with
  | nil => exact moreItems_ending item depth r
  | cons a l ih =>
    have ha := h a (by simp) (laterLines d (l.map write) ++ (ending .array depth ++ r))
    have hr : item.read ('\n' :: (margin d ++ (write a ++
        (laterLines d (l.map write) ++ (ending .array depth ++ r))))) = _ :=
      (hb _ _ (skipBlanks_newline d _)).trans ha
    have := moreItems_comma hr
    rw [ih fun b hb => h b (by simp [hb])] at this
    simpa [laterLines, Except.map] using this

/-- What an array of written items is read back as. -/
theorem array_accepts_writeBlock {item : Reader α} (hb : item.IgnoresBlanks) {write : α → Text}
    {l : List α} (h : ∀ a ∈ l, item.Accepts (write a) a)
    (hw : ∀ a ∈ l, ∃ c t, write a = c :: t ∧ isBlank c = false ∧ c ≠ ']') (depth : Nat) :
    (array item).Accepts (writeBlock .array depth (l.map write)) l := by
  intro r
  cases l with
  | nil =>
    simp [writeBlock, array, byFirst, Bracket.opening, Bracket.close, skipBlanks, isBlank, itemsOf]
  | cons a l =>
    have ha := h a (by simp) (laterLines (depth + 1) (l.map write) ++ (ending .array depth ++ r))
    have hr : item.read ('\n' :: (margin (depth + 1) ++ (write a ++
        (laterLines (depth + 1) (l.map write) ++ (ending .array depth ++ r))))) = _ :=
      (hb _ _ (skipBlanks_newline _ _)).trans ha
    have hm := moreItems_laterLines hb (fun b hb => h b (by simp [hb])) depth (depth + 1) r (l := l)
    obtain ⟨c, t, hc, hcb, hne⟩ := hw a (by simp)
    have hi : itemsOf item ('\n' :: (margin (depth + 1) ++ (write a ++
        (laterLines (depth + 1) (l.map write) ++ (ending .array depth ++ r))))) = .ok (a :: l, r) := by
      unfold itemsOf
      split
      · next hs =>
        rw [skipBlanks_newline, hc, List.cons_append, skipBlanks_cons hcb] at hs
        cases hs
        exact absurd rfl hne
      · rw [hr]
        simp [hm, Except.map]
    have ho : skipBlanks ('[' :: '\n' :: (margin (depth + 1) ++ (write a ++
        (laterLines (depth + 1) (l.map write) ++ (ending .array depth ++ r))))) = _ :=
      skipBlanks_cons rfl _
    simp only [List.map_cons, writeBlock_cons, Bracket.opening, List.cons_append,
      List.append_assoc, array, byFirst, ho, if_true, hi]

/-! ## §4. Objects. -/

theorem mark_of_skipBlanks {c : Char} {t r : Text} (h : skipBlanks t = c :: r) :
    mark c t = .ok r := by
  simp [mark, h]

/-- A written member is read back as its value. -/
theorem readMember_writeMember {member : Members σ} {s s' : σ} {name value t r : Text}
    {p : Reader σ} (hm : member s name = .ok p) (hb : p.IgnoresBlanks)
    (hp : p.Accepts value s') (ht : skipBlanks t = skipBlanks (writeMember name value ++ r)) :
    readMember member s t = .ok (s', r) := by
  have hq : skipBlanks t =
      '"' :: (name.flatMap writeChar ++ '"' :: ':' :: ' ' :: (value ++ r)) := by
    rw [ht, writeMember, writeQuoted]
    simpa using skipBlanks_cons (c := '"') rfl _
  have hv : p.read (' ' :: (value ++ r)) = .ok (s', r) :=
    (hb (' ' :: (value ++ r)) (value ++ r) rfl).trans (hp r)
  simp only [readMember, mark_of_skipBlanks hq, quoted_read_writeQuoted, hm,
    mark_of_skipBlanks (skipBlanks_cons (c := ':') rfl _), hv]

theorem moreMembers_ending (member : Members σ) (s : σ) (depth : Nat) (r : Text) :
    moreMembers member s (ending .object depth ++ r) = .ok (s, r) := by
  rw [moreMembers]
  split
  · next h => simp [skipBlanks_ending] at h
  · next h =>
    rw [skipBlanks_ending] at h
    cases h
    simp [Bracket.close]

theorem moreMembers_comma {member : Members σ} {s s' : σ} {t r : Text}
    (h : readMember member s t = .ok (s', r)) :
    moreMembers member s (',' :: t) = moreMembers member s' r := by
  rw [moreMembers]
  split
  · next hs => simp [skipBlanks_cons (show isBlank ',' = false from rfl)] at hs
  · next hs =>
    rw [skipBlanks_cons (show isBlank ',' = false from rfl)] at hs
    cases hs
    simp only [Char.reduceEq, if_false, if_true]
    split
    · next hi => simp [h] at hi
    · next hi => rw [h] at hi; cases hi; rfl

/-- The members take a state to another, each of them by its written value. -/
inductive Takes (member : Members σ) : σ → List (Text × Text) → σ → Prop where
  | nil (s : σ) : Takes member s [] s
  | cons {s s' s'' : σ} {name value : Text} {rest : List (Text × Text)} {p : Reader σ}
      (hm : member s name = .ok p) (hb : p.IgnoresBlanks) (hp : p.Accepts value s')
      (hrest : Takes member s' rest s'') : Takes member s ((name, value) :: rest) s''

theorem moreMembers_laterLines {member : Members σ} {s s' : σ} {l : List (Text × Text)}
    (h : Takes member s l s') (depth d : Nat) (r : Text) :
    moreMembers member s (laterLines d (l.map fun e => writeMember e.1 e.2) ++
      (ending .object depth ++ r)) = .ok (s', r) := by
  induction h with
  | nil s => exact moreMembers_ending member s depth r
  | @cons s s₁ s₂ name value rest p hm hb hp _ ih =>
    rw [← ih, ← moreMembers_comma (readMember_writeMember hm hb hp (skipBlanks_newline d _))]
    simp [laterLines]

theorem membersOf_lines {member : Members σ} {s s₁ s₂ : σ} {name value : Text}
    {rest : List (Text × Text)} {p : Reader σ} (hm : member s name = .ok p)
    (hb : p.IgnoresBlanks) (hp : p.Accepts value s₁) (h : Takes member s₁ rest s₂)
    (depth d : Nat) (r : Text) :
    membersOf member s ('\n' :: (margin d ++ (writeMember name value ++
      (laterLines d (rest.map fun e => writeMember e.1 e.2) ++ (ending .object depth ++ r))))) =
      .ok (s₂, r) := by
  have hr := readMember_writeMember hm hb hp (skipBlanks_newline d _)
    (r := laterLines d (rest.map fun e => writeMember e.1 e.2) ++ (ending .object depth ++ r))
  unfold membersOf
  split
  · next hs =>
    rw [skipBlanks_newline, writeMember, writeQuoted, List.cons_append, List.cons_append,
      List.cons_append, skipBlanks_cons rfl] at hs
    cases hs
  · simp only [hr]
    exact moreMembers_laterLines h depth d r

theorem membersOf_writeBlock {member : Members σ} {s s' : σ} {l : List (Text × Text)}
    (h : Takes member s l s') (depth : Nat) (r : Text) :
    ∃ t, writeBlock .object depth (l.map fun e => writeMember e.1 e.2) ++ r = '{' :: t ∧
      membersOf member s t = .ok (s', r) := by
  cases h with
  | nil => exact ⟨_, rfl, rfl⟩
  | cons hm hb hp hrest =>
    refine ⟨_, ?_, membersOf_lines hm hb hp hrest depth (depth + 1) r⟩
    simp [writeBlock_cons, Bracket.opening]

/-- What an object of written members is read back as. -/
theorem object_accepts_writeBlock {member : Members σ} {s s' : σ} {l : List (Text × Text)}
    (h : Takes member s l s') (depth : Nat) :
    (object s member).Accepts
      (writeBlock .object depth (l.map fun e => writeMember e.1 e.2)) s' := by
  intro r
  obtain ⟨t, ht, hm⟩ := membersOf_writeBlock h depth r
  simp only [ht, object, byFirst, skipBlanks_cons (c := '{') rfl, if_true, hm]

/-- What a record of written members is read back as. -/
theorem record_accepts_writeBlock {fields : List (RecordField σ)} {s s' : σ} {names : List Text}
    {l : List (Text × Text)} (h : Takes (fieldMembers fields) ([], s) l (names, s')) (depth : Nat) :
    (record s fields).Accepts
      (writeBlock .object depth (l.map fun e => writeMember e.1 e.2)) s' := by
  intro r
  obtain ⟨t, ht, hm⟩ := membersOf_writeBlock h depth r
  simp only [ht, record, byFirst, skipBlanks_cons (c := '{') rfl, if_true, hm, Except.map]

end QwebReceiver.Json
