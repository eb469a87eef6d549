import QwebReceiver.Proofs.Markup.Grammar

/-!
  QwebReceiver.Proofs.Markup.Written — reading the parts of markup.

  For each part of markup two facts tie its reader to the grammar.  The reader
  returns what was written, up to a text that cannot go on with the part
  (`indexOf?_write`, `doctypeLength?_write`, `scanReference_write`,
  `scanValue_write`, `scanAttribute_write`, `scanTagRest_write`); and where the
  reader finds no problem, such a part was written (the `exists_` lemmas).
-/

namespace QwebReceiver.Markup

open QwebReceiver.Text

/-! ## §1. Cursors over written text. -/

/-- Past a word that stands at the cursor. -/
theorem skip_written (here : Location) (w r : Text) :
    (⟨here, w ++ r⟩ : Cursor).skip w.length = ⟨here.after w, r⟩ := by
  simp [Cursor.skip]

/-- Past a whole run. -/
theorem skipWhile_written {p : Char → Bool} (here : Location) {w r : Text}
    (hw : ∀ c ∈ w, p c = true) (hr : StopsAt p r) :
    (⟨here, w ++ r⟩ : Cursor).skipWhile p = ⟨here.after w, r⟩ := by
  show (⟨here, w ++ r⟩ : Cursor).skip ((w ++ r).takeWhile p).length = _
  rw [takeWhile_run hw hr]
  exact skip_written here w r

/-- A run of the class stands at every cursor. -/
theorem exists_run (p : Char → Bool) (t : Text) :
    ∃ w r, t = w ++ r ∧ (∀ c ∈ w, p c = true) ∧ StopsAt p r := by
  refine ⟨t.takeWhile p, t.dropWhile p, List.takeWhile_append_dropWhile.symm, ?_, ?_⟩
  · intro c hc
    exact List.mem_takeWhile_imp hc
  · intro c hc
    exact head_dropWhile hc

/-! ## §2. Marks. -/

/-- The first mark after the content is where the content ends. -/
theorem indexOf?_write {mark : String} (hm : mark.toList ≠ []) {content : Text}
    (h : FirstEnd mark.toList content) (r : Text) :
    indexOf? mark (content ++ (mark.toList ++ r)) = some content.length := by
  induction content with
  | nil =>
    obtain ⟨d, m, hd⟩ := List.exists_cons_of_ne_nil hm
    have hp : mark.toList.isPrefixOf (d :: (m ++ r)) = true :=
      List.isPrefixOf_iff_prefix.2 ⟨r, by rw [hd]; rfl⟩
    show indexOf? mark (mark.toList ++ r) = some 0
    rw [hd, List.cons_append, indexOf?, if_pos hp]
  | cons x content ih =>
    have hnot : ¬ mark.toList.isPrefixOf (x :: (content ++ (mark.toList ++ r))) = true := by
      intro hp
      -- a mark at the first character would end before the text that follows
      have hle : mark.toList.length ≤ (x :: content ++ mark.toList).length := by
        simp only [List.length_append, List.length_cons]
        omega
      have hpre : x :: content ++ mark.toList <+: x :: (content ++ (mark.toList ++ r)) :=
        ⟨r, by simp⟩
      exact h 0 (by simp) (List.prefix_of_prefix_length_le (List.isPrefixOf_iff_prefix.1 hp) hpre hle)
    have htail : FirstEnd mark.toList content := by
      intro k hk
      exact h (k + 1) (Nat.succ_lt_succ hk)
    rw [List.cons_append, indexOf?, if_neg hnot, ih htail]
    rfl

/-- Where a mark is found, the content before it was written. -/
theorem exists_content_of_indexOf? {mark : String} {t : Text} {n : Nat}
    (h : indexOf? mark t = some n) :
    ∃ content r, t = content ++ (mark.toList ++ r) ∧ content.length = n ∧
      FirstEnd mark.toList content := by
  induction t generalizing n with
  | nil => simp [indexOf?] at h
  | cons x t ih =>
    by_cases hp : mark.toList.isPrefixOf (x :: t) = true
    · rw [indexOf?, if_pos hp] at h
      obtain ⟨r, hr⟩ := List.isPrefixOf_iff_prefix.1 hp
      refine ⟨[], r, hr.symm, Option.some.inj h, ?_⟩
      intro k hk
      exact absurd hk (Nat.not_lt_zero k)
    · rw [indexOf?, if_neg hp] at h
      obtain ⟨m, hm, rfl⟩ := Option.map_eq_some_iff.1 h
      obtain ⟨content, r, rfl, hlen, hfirst⟩ := ih hm
      refine ⟨x :: content, r, rfl, by simp [hlen], ?_⟩
      intro k hk hpre
      -- an earlier end mark would have matched here or further on in the rest
      cases k with
      | zero =>
        apply hp
        obtain ⟨s, hs⟩ := hpre
        refine List.isPrefixOf_iff_prefix.2 ⟨s ++ r, ?_⟩
        rw [← List.append_assoc, hs]
        simp
      | succ k => exact hfirst k (Nat.lt_of_succ_lt_succ hk) hpre

/-- One more character of a declaration. -/
theorem depthAfter_cons (depth : Nat) (c : Char) (r : Text) :
    depthAfter depth (c :: r) =
      depthAfter (if c = '[' then depth + 1 else if c = ']' then depth - 1 else depth) r := rfl

/-- The first `>` at depth zero is where the content ends. -/
theorem doctypeLength?_write {content : Text} (depth : Nat) (hend : depthAfter depth content = 0)
    (hin : ∀ a b, content = a ++ '>' :: b → depthAfter depth a ≠ 0) (r : Text) :
    doctypeLength? depth (content ++ '>' :: r) = some content.length := by
  induction content generalizing depth with
  | nil =>
    have hd : depth = 0 := hend
    subst hd
    simp [doctypeLength?]
  | cons c content ih =>
    -- whatever `c` does to the depth, the rest of the content closes at that depth
    have hstep : ∀ e, (if c = '[' then depth + 1 else if c = ']' then depth - 1 else depth) = e →
        doctypeLength? e (content ++ '>' :: r) = some content.length := by
      rintro e rfl
      refine ih _ hend ?_
      intro a b hab
      exact hin (c :: a) b (by rw [hab]; rfl)
    rw [List.cons_append, doctypeLength?]
    by_cases h1 : c = '['
    · rw [if_pos h1, hstep (depth + 1) (by rw [if_pos h1])]
      rfl
    · rw [if_neg h1]
      by_cases h2 : c = ']'
      · rw [if_pos h2, hstep (depth - 1) (by rw [if_neg h1, if_pos h2])]
        rfl
      · rw [if_neg h2]
        have h3 : ¬ (c = '>' ∧ depth = 0) := by
          rintro ⟨rfl, hd⟩
          exact hin [] content rfl hd
        rw [if_neg h3, hstep depth (by rw [if_neg h1, if_neg h2])]
        rfl

/-- Where a declaration ends, its content was written. -/
theorem exists_content_of_doctypeLength? {depth n : Nat} {t : Text}
    (h : doctypeLength? depth t = some n) :
    ∃ content r, t = content ++ '>' :: r ∧ content.length = n ∧ depthAfter depth content = 0 ∧
      ∀ a b, content = a ++ '>' :: b → depthAfter depth a ≠ 0 := by
  induction t generalizing depth n with
  | nil => simp [doctypeLength?] at h
  | cons c t ih =>
    -- whatever the bracket does, the rest is a content from the new depth on
    have hstep : ∀ {e m}, (if c = '[' then depth + 1 else if c = ']' then depth - 1 else depth) = e →
        ¬ (c = '>' ∧ depth = 0) → (doctypeLength? e t).map (· + 1) = some m →
        ∃ content r, c :: t = content ++ '>' :: r ∧ content.length = m ∧
          depthAfter depth content = 0 ∧
          ∀ a b, content = a ++ '>' :: b → depthAfter depth a ≠ 0 := by
      intro e m he hc hm
      obtain ⟨k, hk, rfl⟩ := Option.map_eq_some_iff.1 hm
      obtain ⟨content, r, rfl, hlen, hend, hin⟩ := ih hk
      refine ⟨c :: content, r, rfl, by simp [hlen], by rw [depthAfter_cons, he]; exact hend, ?_⟩
      intro a b hab
      cases a with
      | nil =>
        intro hd
        simp only [List.nil_append, List.cons.injEq] at hab
        exact hc ⟨hab.1, hd⟩
      | cons x a =>
        simp only [List.cons_append, List.cons.injEq] at hab
        obtain ⟨rfl, rfl⟩ := hab
        rw [depthAfter_cons, he]
        exact hin a b rfl
    rw [doctypeLength?] at h
    by_cases h1 : c = '['
    · rw [if_pos h1] at h
      exact hstep (by rw [if_pos h1]) (by rw [h1]; simp) h
    · rw [if_neg h1] at h
      by_cases h2 : c = ']'
      · rw [if_pos h2] at h
        exact hstep (by rw [if_neg h1, if_pos h2]) (by rw [h2]; simp) h
      · rw [if_neg h2] at h
        by_cases h3 : c = '>' ∧ depth = 0
        · rw [if_pos h3] at h
          obtain ⟨rfl, rfl⟩ := h3
          refine ⟨[], t, rfl, Option.some.inj h, rfl, ?_⟩
          intro a b hab
          simp at hab
        · rw [if_neg h3] at h
          exact hstep (by rw [if_neg h1, if_neg h2]) h3 h

/-! ## §3. Values. -/

/-- A hexadecimal digit may stand in a reference. -/
theorem isReferenceChar_of_isHexDigit {c : Char} (h : isHexDigit c = true) :
    isReferenceChar c = true := by
  have hb : isBlank c = false := by
    cases hc : isBlank c with
    | false => rfl
    | true =>
      have hx : isHexDigit c = false := not_of_isBlank (by decide) hc
      rw [hx] at h
      cases h
  have hne : ∀ d, isHexDigit d = false → c ≠ d := by
    rintro d hd rfl
    rw [hd] at h
    cases h
  simp [isReferenceChar, isQuote, hb, hne ';' (by decide), hne '<' (by decide), hne '&' (by decide),
    hne '\'' (by decide), hne '"' (by decide), hne '`' (by decide)]

theorem isHexDigit_of_isAsciiDigit {c : Char} (h : isAsciiDigit c = true) : isHexDigit c = true := by
  simp [isHexDigit, h]

/-- Digits that refer to a character are digits of their class. -/
theorem all_of_numericReference? {base : UInt32} {isDigit : Char → Bool} {digits : Text} {c : Char}
    (h : numericReference? base isDigit digits = some c) : ∀ x ∈ digits, isDigit x = true := by
  unfold numericReference? at h
  split at h
  · next hd =>
    simp only [Bool.and_eq_true, List.all_eq_true] at hd
    exact hd.2
  · simp at h

/-- A body with a meaning holds only characters of references. -/
theorem all_of_decodeReference? {body : Text} {c : Char} (h : decodeReference? body = some c) :
    ∀ x ∈ body, isReferenceChar x = true := by
  unfold decodeReference? at h
  -- a number is checked digit by digit, a name is one of five
  split at h
  · next digits =>
    intro x hx
    simp only [List.mem_cons] at hx
    rcases hx with rfl | rfl | hx
    · decide
    · decide
    · exact isReferenceChar_of_isHexDigit (all_of_numericReference? h x hx)
  · next digits =>
    intro x hx
    simp only [List.mem_cons] at hx
    rcases hx with rfl | rfl | hx
    · decide
    · decide
    · exact isReferenceChar_of_isHexDigit (all_of_numericReference? h x hx)
  · next digits _ _ =>
    intro x hx
    simp only [List.mem_cons] at hx
    rcases hx with rfl | hx
    · decide
    · exact isReferenceChar_of_isHexDigit
        (isHexDigit_of_isAsciiDigit (all_of_numericReference? h x hx))
  · obtain ⟨p, hp, -⟩ := Option.map_eq_some_iff.1 h
    have hmem := List.mem_of_find?_eq_some hp
    have hbody : p.1 = body := by simpa using List.find?_some hp
    have hall : ∀ q ∈ predefinedReferences, ∀ x ∈ q.1, isReferenceChar x = true := by decide
    rw [← hbody]
    exact hall p hmem

/-- A reference is read as it was written. -/
theorem scanReference_write (here : Location) {body : Text} {c : Char}
    (h : decodeReference? body = some c) (r : Text) :
    scanReference ⟨here, '&' :: (body ++ ';' :: r)⟩ =
      .ok (.reference ('&' :: (body ++ [';'])) c, ⟨here.after ('&' :: (body ++ [';'])), r⟩) := by
  have hskip : (⟨here, '&' :: (body ++ ';' :: r)⟩ : Cursor).skip 1 =
      ⟨here.after ['&'], body ++ ';' :: r⟩ := skip_written here ['&'] (body ++ ';' :: r)
  -- the body is the longest run of reference characters, as `;` is none
  have hrun : (body ++ ';' :: r).takeWhile isReferenceChar = body := by
    refine takeWhile_run (all_of_decodeReference? h) ?_
    intro x hx
    simp only [List.head?_cons, Option.some.injEq] at hx
    subst hx
    decide
  have hstop : (⟨here.after ['&'], body ++ ';' :: r⟩ : Cursor).skip body.length =
      ⟨(here.after ['&']).after body, ';' :: r⟩ := skip_written _ body (';' :: r)
  have hlast : (⟨(here.after ['&']).after body, ';' :: r⟩ : Cursor).skip 1 =
      ⟨((here.after ['&']).after body).after [';'], r⟩ := skip_written _ [';'] r
  simp only [scanReference, hskip, hrun, hstop, hlast]
  rw [if_pos (show Cursor.peek ⟨(here.after ['&']).after body, ';' :: r⟩ = some ';' from rfl), h]
  show Except.ok (Glyph.reference ('&' :: (body ++ [';'])) c,
    (⟨((here.after ['&']).after body).after [';'], r⟩ : Cursor)) = _
  rw [show '&' :: (body ++ [';']) = ['&'] ++ body ++ [';'] from by simp, Location.after_append,
    Location.after_append]

/-- Where a reference is read, one was written. -/
theorem exists_body_of_scanReference {here : Location} {t : Text} {g : Glyph} {c : Cursor}
    (h : scanReference ⟨here, '&' :: t⟩ = .ok (g, c)) :
    ∃ body x r, t = body ++ ';' :: r ∧ decodeReference? body = some x ∧
      g = .reference ('&' :: (body ++ [';'])) x ∧ c = ⟨here.after ('&' :: (body ++ [';'])), r⟩ := by
  obtain ⟨body, r, rfl, hbody, hr⟩ := exists_run isReferenceChar t
  have hskip : (⟨here, '&' :: (body ++ r)⟩ : Cursor).skip 1 = ⟨here.after ['&'], body ++ r⟩ :=
    skip_written here ['&'] (body ++ r)
  have hread := h
  simp only [scanReference, hskip, takeWhile_run hbody hr, skip_written] at h
  split at h
  · next hp =>
    -- the reference ends at a semicolon, so it was written whole
    obtain ⟨u, rfl⟩ := List.head?_eq_some_iff.1 hp
    split at h
    · next x hx =>
      rw [scanReference_write here hx u, Except.ok.injEq, Prod.mk.injEq] at hread
      exact ⟨body, x, u, rfl, hx, hread.1.symm, hread.2.symm⟩
    · simp at h
  · simp at h

/-- A value ends where it is stopped. -/
theorem scanValue_stop {stop : Char → Bool} (here : Location) {r : Text}
    (hr : StopsAt (fun c => !stop c) r) :
    scanValue stop ⟨here, r⟩ = { value := [], cursor := ⟨here, r⟩, failure := none } := by
  cases r with
  | nil => rw [scanValue]
  | cons c r =>
    have hc : stop c = true := by simpa using hr c rfl
    rw [scanValue]
    simp only [hc, if_true]

/-- A character that neither stops the value nor starts a reference. -/
theorem scanValue_plain {stop : Char → Bool} (here : Location) {c : Char} (r : Text)
    (hs : stop c = false) (hc : c ≠ '&') :
    scanValue stop ⟨here, c :: r⟩ =
      { scanValue stop ⟨here.after [c], r⟩ with
        value := .plain c :: (scanValue stop ⟨here.after [c], r⟩).value } := by
  have hskip : (⟨here, c :: r⟩ : Cursor).skip 1 = ⟨here.after [c], r⟩ := skip_written here [c] r
  rw [scanValue]
  simp only [hs, hc, if_false, Bool.false_eq_true, hskip]

/-- A reference in a value. -/
theorem scanValue_reference {stop : Char → Bool} (hamp : stop '&' = false) {here : Location}
    {r : Text} {g : Glyph} {next : Cursor} (h : scanReference ⟨here, '&' :: r⟩ = .ok (g, next)) :
    scanValue stop ⟨here, '&' :: r⟩ =
      { scanValue stop next with value := g :: (scanValue stop next).value } := by
  rw [scanValue]
  simp only [hamp, if_true, Bool.false_eq_true, if_false]
  split
  · next heq => rw [h] at heq; cases heq
  · next heq => rw [h] at heq; cases heq; rfl

/-- A value is read as it was written, up to a character that stops it. -/
theorem scanValue_write {stop : Char → Bool} (hamp : stop '&' = false) (here : Location)
    {value : Spelling} (hv : ∀ g ∈ value, g.Valid stop) {r : Text}
    (hr : StopsAt (fun c => !stop c) r) :
    scanValue stop ⟨here, value.raw ++ r⟩ =
      { value, cursor := ⟨here.after value.raw, r⟩, failure := none } := by
  induction value generalizing here with
  | nil => exact scanValue_stop here hr
  | cons g value ih =>
    have htail : ∀ x ∈ value, x.Valid stop := fun x hx => hv x (List.mem_cons_of_mem _ hx)
    have hraw : Spelling.raw (g :: value) = g.raw ++ Spelling.raw value := rfl
    -- a plain character is taken as it is, a reference is read up to its `;`
    cases g with
    | plain c =>
      obtain ⟨hc, hs⟩ : c ≠ '&' ∧ stop c = false := hv _ List.mem_cons_self
      show scanValue stop ⟨here, c :: (Spelling.raw value ++ r)⟩ = _
      rw [scanValue_plain here _ hs hc, ih (here.after [c]) htail]
      rfl
    | reference raw c =>
      obtain ⟨body, rfl, hbody⟩ : ∃ body, raw = '&' :: (body ++ [';']) ∧
          decodeReference? body = some c := hv _ List.mem_cons_self
      have hread := scanReference_write here hbody (Spelling.raw value ++ r)
      rw [hraw, Location.after_append]
      show scanValue stop ⟨here, '&' :: (body ++ [';'] ++ Spelling.raw value ++ r)⟩ = _
      rw [show body ++ [';'] ++ Spelling.raw value ++ r = body ++ ';' :: (Spelling.raw value ++ r)
        from by simp, scanValue_reference hamp hread, ih _ htail]
      rfl

/-- Where a value is read, one was written. -/
theorem exists_value_of_scanValue {stop : Char → Bool} {c : Cursor}
    (h : (scanValue stop c).failure = none) :
    ∃ (value : Spelling) (r : Text), c.rest = value.raw ++ r ∧ (∀ g ∈ value, g.Valid stop) ∧
      StopsAt (fun c => !stop c) r := by
  fun_induction scanValue stop c with
  | case1 c hc => exact ⟨[], [], hc, by simp, by simp [StopsAt]⟩
  -- the scanner stops in front of the first character that ends the value
  | case2 c x t hc hx =>
    refine ⟨[], x :: t, hc, by simp, ?_⟩
    intro y hy
    simp only [List.head?_cons, Option.some.injEq] at hy
    subst hy
    simp [hx]
  | case3 => simp at h
  | case4 c t g next hread s hc hx hlt ih =>
    obtain ⟨value, r, hr, hv, hstop⟩ := ih h
    obtain ⟨here, rest⟩ := c
    obtain rfl : rest = '&' :: t := hc
    obtain ⟨body, x, u, rfl, hbody, rfl, rfl⟩ := exists_body_of_scanReference hread
    obtain rfl : u = Spelling.raw value ++ r := hr
    refine ⟨.reference ('&' :: (body ++ [';'])) x :: value, r, ?_, ?_, hstop⟩
    · simp [Spelling.raw, Glyph.raw]
    · intro y hy
      rcases List.mem_cons.1 hy with rfl | hy
      · exact ⟨body, rfl, hbody⟩
      · exact hv y hy
  | case5 c x t hc hx hamp hlt s ih =>
    obtain ⟨value, r, hr, hv, hstop⟩ := ih h
    rw [Cursor.rest_skip, hc, List.drop_succ_cons, List.drop_zero] at hr
    refine ⟨.plain x :: value, r, by rw [hc, hr]; rfl, ?_, hstop⟩
    intro y hy
    rcases List.mem_cons.1 hy with rfl | hy
    · exact ⟨hamp, by simpa using hx⟩
    · exact hv y hy

/-! ## §4. Tags. -/

/-- A run of blanks stops names. -/
theorem IsBlank.stopsAt {t : Text} (h : IsBlank t) : StopsAt isNamePart t := by
  intro c hc
  exact isNamePart_of_isBlank (h c (List.mem_of_mem_head? hc))

/-- A name holds only characters of names. -/
theorem IsName.all {name : Text} (h : IsName name) : ∀ x ∈ name, isNamePart x = true := by
  obtain ⟨c, r, rfl, hc, hr⟩ := h
  intro x hx
  rcases List.mem_cons.1 hx with rfl | hx
  · exact isNamePart_of_isNameStart hc
  · exact hr x hx

/-- A name stops blanks. -/
theorem IsName.stopsAt {name : Text} (h : IsName name) (r : Text) :
    StopsAt isBlank (name ++ r) := by
  have hall := h.all
  obtain ⟨c, t, rfl, -, -⟩ := h
  exact stopsAt_cons (isBlank_of_isNamePart (hall c List.mem_cons_self))

/-- A name is read as it was written. -/
theorem nameLength?_write (here : Location) {name r : Text} (hn : IsName name)
    (hr : StopsAt isNamePart r) : nameLength? ⟨here, name ++ r⟩ = some name.length := by
  have hrun := takeWhile_run hn.all hr
  obtain ⟨c, t, rfl, hc, -⟩ := hn
  show (if isNameStart c then some ((c :: t ++ r).takeWhile isNamePart).length else none) = _
  rw [if_pos hc, hrun]

/-- Where a name is read, one was written. -/
theorem exists_name_of_nameLength? {here : Location} {t : Text} {n : Nat}
    (h : nameLength? ⟨here, t⟩ = some n) :
    ∃ name r, t = name ++ r ∧ name.length = n ∧ IsName name ∧ StopsAt isNamePart r := by
  obtain ⟨name, r, rfl, hname, hr⟩ := exists_run isNamePart t
  simp only [nameLength?] at h
  split at h
  · simp at h
  · next c u hu =>
    split at h
    · next hc =>
      rw [takeWhile_run hname hr, Option.some.injEq] at h
      refine ⟨name, r, rfl, h, ?_, hr⟩
      cases name with
      | nil =>
        -- a run that starts with a start of a name is not empty
        have hno : isNamePart c = false := hr c (by rw [List.nil_append] at hu; rw [hu]; rfl)
        rw [isNamePart_of_isNameStart hc] at hno
        cases hno
      | cons x name =>
        simp only [List.cons_append, List.cons.injEq] at hu
        obtain ⟨rfl, -⟩ := hu
        exact ⟨x, name, rfl, hc, fun y hy => hname y (List.mem_cons_of_mem _ hy)⟩
    · simp at h

/-- The tokens of an attribute at `here`. -/
def AttributeForm.tokens (here : Location) (a : AttributeForm) : List Token :=
  [⟨.attributeName a.name, (a.toAttribute here).nameSpan⟩,
    ⟨.attributeValue a.quote a.value, (a.toAttribute here).valueSpan⟩]

/-- The tokens of some attributes from `here` on. -/
def AttributeForm.tokensAt (here : Location) : List AttributeForm → List Token
  | [] => []
  | a :: rest => a.tokens here ++ tokensAt (here.after a.write) rest

/-- An attribute is read as it was written. -/
theorem scanAttribute_write (here : Location) {a : AttributeForm} (ha : a.Valid) (r : Text) :
    scanAttribute ⟨here.after a.lead, (a.name ++ a.beforeSign ++ '=' :: (a.afterSign ++
        a.quote :: (a.value.raw ++ a.quote :: r)))⟩ a.name.length =
      { tokens := a.tokens here, cursor := ⟨here.after a.write, r⟩, failure := none } := by
  have hquote : isBlank a.quote = false := by rcases ha.quote with h | h <;> rw [h] <;> decide
  have hamp : stopsValue a.quote '&' = false := by
    rcases ha.quote with h | h <;> rw [h] <;> decide
  -- the cursor passes the name, the blanks, the sign, the blanks, the quote, the value
  have h1 := skip_written (here.after a.lead) a.name
    (a.beforeSign ++ '=' :: (a.afterSign ++ a.quote :: (a.value.raw ++ a.quote :: r)))
  have h2 := skipWhile_written ((here.after a.lead).after a.name) ha.beforeSign
    (stopsAt_cons (c := '=') (r := a.afterSign ++ a.quote :: (a.value.raw ++ a.quote :: r))
      (by decide))
  have h3 := skip_written (((here.after a.lead).after a.name).after a.beforeSign) ['=']
    (a.afterSign ++ a.quote :: (a.value.raw ++ a.quote :: r))
  have h4 := skipWhile_written
    ((((here.after a.lead).after a.name).after a.beforeSign).after ['=']) ha.afterSign
    (stopsAt_cons (r := a.value.raw ++ a.quote :: r) hquote)
  have h5 := skip_written
    (((((here.after a.lead).after a.name).after a.beforeSign).after ['=']).after a.afterSign)
    [a.quote] (a.value.raw ++ a.quote :: r)
  have hopening : (((((here.after a.lead).after a.name).after a.beforeSign).after ['=']).after
      a.afterSign).after [a.quote] = here.after a.opening := by
    simp only [AttributeForm.opening, ← Location.after_append]
    simp
  rw [hopening] at h5
  have hstop : StopsAt (fun c => !stopsValue a.quote c) (a.quote :: r) :=
    stopsAt_cons (by simp [stopsValue])
  have h6 := scanValue_write hamp (here.after a.opening) ha.value hstop
  have h7 := skip_written ((here.after a.opening).after a.value.raw) [a.quote] r
  simp only [List.singleton_append, List.length_singleton] at h3 h5 h7
  have h6' : scanValue (fun x => x == a.quote || x == '<')
      ⟨here.after a.opening, a.value.raw ++ a.quote :: r⟩ = _ := h6
  rw [List.append_assoc]
  simp only [scanAttribute, h1, h2, h3, h4, h5, h6', h7, Cursor.peek, List.head?_cons, if_true,
    if_pos ha.quote]
  simp only [AttributeForm.tokens, AttributeForm.toAttribute, AttributeForm.write,
    Location.after_append, Cursor.spanTo, List.take_left']

/-- Where an attribute is read, one was written. -/
theorem exists_attribute_of_scanAttribute {here : Location} {name t : Text} (hn : IsName name)
    (h : (scanAttribute ⟨here, name ++ t⟩ name.length).failure = none) :
    ∃ (a : AttributeForm) (r : Text), a.lead = [] ∧ a.name = name ∧ a.Valid ∧
      name ++ t = a.write ++ r := by
  obtain ⟨before, t1, rfl, hbefore, h1⟩ := exists_run isBlank t
  simp only [scanAttribute, skip_written, skipWhile_written _ hbefore h1] at h
  -- the reader reports whatever is missing, so each of its tests has succeeded
  split at h
  · next hsign =>
    obtain ⟨t2, rfl⟩ := List.head?_eq_some_iff.1 hsign
    obtain ⟨after, t3, rfl, hafter, h3⟩ := exists_run isBlank t2
    have hskip : (⟨(here.after name).after before, '=' :: (after ++ t3)⟩ : Cursor).skip 1 =
        ⟨((here.after name).after before).after ['='], after ++ t3⟩ :=
      skip_written _ ['='] (after ++ t3)
    simp only [hskip, skipWhile_written _ hafter h3] at h
    split at h
    · next quote hq =>
      obtain ⟨t4, rfl⟩ := List.head?_eq_some_iff.1 hq
      split at h
      · next hquote =>
        split at h
        · simp at h
        · next hval =>
          obtain ⟨value, r, hr, hvalue, hstop⟩ := exists_value_of_scanValue hval
          have hamp : stopsValue quote '&' = false := by
            rcases hquote with rfl | rfl <;> decide
          simp only [Cursor.rest_skip, List.drop_succ_cons, List.drop_zero] at hr
          subst hr
          have hskip' := skip_written
            ((((here.after name).after before).after ['=']).after after) [quote]
            (Spelling.raw value ++ r)
          have hread := scanValue_write hamp (((((here.after name).after before).after ['=']).after
            after).after [quote]) hvalue hstop
          simp only [List.singleton_append, List.length_singleton] at hskip'
          have hread' : scanValue (fun x => x == quote || x == '<') _ = _ := hread
          simp only [hskip', hread'] at h
          split at h
          · next hlast =>
            obtain ⟨u, rfl⟩ := List.head?_eq_some_iff.1 hlast
            refine ⟨⟨[], name, before, after, quote, value⟩, u, rfl, rfl,
              ⟨by simp [IsBlank], hn, hbefore, hafter, hquote, hvalue⟩, ?_⟩
            simp [AttributeForm.write, AttributeForm.opening]
          · split at h
            · simp [Scan.problem] at h
            · simp [Scan.unexpected] at h
      · simp [Scan.unexpected] at h
    · simp [Scan.unexpected] at h
  · simp [Scan.unexpected] at h

/-- The mark at the end of a start tag, which for an element without content
ends the element too. -/
def endMark (empty : Bool) : Text := if empty then emptyTagEnd else tagEndMark

/-- What the token for the end of a start tag says. -/
def endContent (empty : Bool) : TokenContent := if empty then .tagEndEmpty else .tagEnd

/-- One attribute of a tag is read and the rest of the tag goes on behind it. -/
theorem scanTagRest_attribute {c d : Cursor} {s : Scan} {n : Nat} (hd : c.skipWhile isBlank = d)
    (hempty : d.startsWith "/>" = false) (hend : d.startsWith ">" = false)
    (hn : nameLength? d = some n) (hs : scanAttribute d n = s) (hok : s.failure = none) :
    scanTagRest c =
      { scanTagRest s.cursor with tokens := s.tokens ++ (scanTagRest s.cursor).tokens } := by
  subst hd hs
  rw [scanTagRest]
  simp only [hempty, hend, Bool.false_eq_true, if_false]
  split
  · next heq => rw [hn] at heq; cases heq
  · next m heq =>
    rw [hn] at heq
    cases heq
    split
    · next hf => rw [hok] at hf; cases hf
    · rfl

/-- A name starts with no character that is not part of names. -/
theorem IsName.exists_cons_ne {name : Text} (hn : IsName name) {m : Char}
    (hm : isNamePart m = false) : ∃ c t, name = c :: t ∧ m ≠ c := by
  have hall := hn.all
  obtain ⟨c, t, rfl, -, -⟩ := hn
  refine ⟨c, t, rfl, ?_⟩
  rintro rfl
  rw [hall m List.mem_cons_self] at hm
  cases hm

/-- A word that starts with a mark of its own stands at no name. -/
theorem startsWith_name {here : Location} {name r : Text} (hn : IsName name) {word : String}
    {m : Char} {ms : Text} (hw : word.toList = m :: ms) (hm : isNamePart m = false) :
    (⟨here, name ++ r⟩ : Cursor).startsWith word = false := by
  obtain ⟨c, t, rfl, hne⟩ := hn.exists_cons_ne hm
  show word.toList.isPrefixOf (c :: (t ++ r)) = false
  rw [hw, List.isPrefixOf, beq_eq_false_iff_ne.2 hne, Bool.false_and]

/-- The rest of a start tag is read as it was written. -/
theorem scanTagRest_write (here : Location) {attributes : List AttributeForm}
    (ha : ∀ a ∈ attributes, a.Valid) {trail : Text} (ht : IsBlank trail) (empty : Bool) (r : Text) :
    scanTagRest ⟨here, AttributeForm.writeAll attributes ++ (trail ++ (endMark empty ++ r))⟩ =
      { tokens := AttributeForm.tokensAt here attributes ++
          [⟨endContent empty,
            ⟨(here.after (AttributeForm.writeAll attributes)).after trail,
              ((here.after (AttributeForm.writeAll attributes)).after trail).after
                (endMark empty)⟩⟩],
        cursor := ⟨((here.after (AttributeForm.writeAll attributes)).after trail).after
          (endMark empty), r⟩,
        failure := none } := by
  induction attributes generalizing here with
  | nil =>
    have hstop : StopsAt isBlank (endMark empty ++ r) := by
      cases empty
      · exact stopsAt_cons (c := '>') (by decide)
      · exact stopsAt_cons (c := '/') (by decide)
    have hblank := skipWhile_written here ht hstop
    have hskip := skip_written (here.after trail) (endMark empty) r
    show scanTagRest ⟨here, trail ++ (endMark empty ++ r)⟩ = _
    rw [scanTagRest]
    simp only [hblank]
    -- no attribute is left: the mark ends the tag, and the scanner tries `/>` first
    cases empty with
    | false =>
      have hskip' : (⟨here.after trail, endMark false ++ r⟩ : Cursor).skip 1 = _ := hskip
      rw [if_neg (by simp [Cursor.startsWith, endMark, tagEndMark]),
        if_pos (by simp [Cursor.startsWith, endMark, tagEndMark]), hskip']
      rfl
    | true =>
      have hskip' : (⟨here.after trail, endMark true ++ r⟩ : Cursor).skip 2 = _ := hskip
      rw [if_pos (by simp [Cursor.startsWith, endMark, emptyTagEnd]), hskip']
      rfl
  | cons a attributes ih =>
    have hva := ha a List.mem_cons_self
    have hrest : ∀ b ∈ attributes, b.Valid := fun b hb => ha b (List.mem_cons_of_mem _ hb)
    have hsplit : AttributeForm.writeAll (a :: attributes) ++ (trail ++ (endMark empty ++ r)) =
        a.lead ++ (a.name ++ a.beforeSign ++ '=' :: (a.afterSign ++ a.quote :: (a.value.raw ++
          a.quote :: (AttributeForm.writeAll attributes ++ (trail ++ (endMark empty ++ r)))))) := by
      simp [AttributeForm.writeAll, AttributeForm.write, AttributeForm.opening]
    have hread := scanAttribute_write here hva
      (AttributeForm.writeAll attributes ++ (trail ++ (endMark empty ++ r)))
    rw [List.append_assoc] at hread hsplit
    have hblank := skipWhile_written here hva.lead (hva.name.stopsAt
      (a.beforeSign ++ '=' :: (a.afterSign ++ a.quote :: (a.value.raw ++
        a.quote :: (AttributeForm.writeAll attributes ++ (trail ++ (endMark empty ++ r)))))))
    have hname := nameLength?_write (here.after a.lead) hva.name
      (hva.beforeSign.stopsAt.append (stopsAt_cons (c := '=') (r := a.afterSign ++ a.quote ::
        (a.value.raw ++ a.quote :: (AttributeForm.writeAll attributes ++
          (trail ++ (endMark empty ++ r))))) (by decide)))
    rw [hsplit, scanTagRest_attribute hblank
      (startsWith_name hva.name (m := '/') rfl (by decide))
      (startsWith_name hva.name (m := '>') rfl (by decide)) hname hread rfl,
      ih (here.after a.write) hrest]
    simp only [AttributeForm.tokensAt, AttributeForm.writeAll, List.flatMap_cons,
      Location.after_append, List.append_assoc]

/-- Where the rest of a start tag is read, one was written. -/
theorem exists_attributes_of_scanTagRest {c : Cursor} (h : (scanTagRest c).failure = none) :
    ∃ (attributes : List AttributeForm) (trail : Text) (empty : Bool) (r : Text),
      (∀ a ∈ attributes, a.Valid) ∧ IsBlank trail ∧
      c.rest = AttributeForm.writeAll attributes ++ (trail ++ (endMark empty ++ r)) := by
  fun_induction scanTagRest c with
  | case1 c d hd =>
    obtain ⟨here, t⟩ := c
    obtain ⟨blank, u, rfl, hblank, hu⟩ := exists_run isBlank t
    have hrest : d = ⟨here.after blank, u⟩ := skipWhile_written here hblank hu
    rw [hrest] at hd
    obtain ⟨r, hr⟩ := List.isPrefixOf_iff_prefix.1 hd
    obtain rfl : u = emptyTagEnd ++ r := hr.symm
    exact ⟨[], blank, true, r, by simp, hblank, rfl⟩
  | case2 c d _ hd =>
    obtain ⟨here, t⟩ := c
    obtain ⟨blank, u, rfl, hblank, hu⟩ := exists_run isBlank t
    have hrest : d = ⟨here.after blank, u⟩ := skipWhile_written here hblank hu
    rw [hrest] at hd
    obtain ⟨r, hr⟩ := List.isPrefixOf_iff_prefix.1 hd
    obtain rfl : u = tagEndMark ++ r := hr.symm
    exact ⟨[], blank, false, r, by simp, hblank, rfl⟩
  | case3 => simp [Scan.unexpected] at h
  | case4 c d _ _ n hn s e hs => rw [hs] at h; cases h
  | case5 c d _ _ n hn s hs hlt more ih =>
    obtain ⟨here, t⟩ := c
    obtain ⟨blank, u, rfl, hblank, hu⟩ := exists_run isBlank t
    have hrest : d = ⟨here.after blank, u⟩ := skipWhile_written here hblank hu
    rw [hrest] at hn
    obtain ⟨name, v, rfl, rfl, hname, -⟩ := exists_name_of_nameLength? hn
    have hok : (scanAttribute ⟨here.after blank, name ++ v⟩ name.length).failure = none := by
      rw [← hrest]
      exact hs
    obtain ⟨a, w, hlead, rfl, ha, heq⟩ := exists_attribute_of_scanAttribute hname hok
    -- the blanks before the name belong to the attribute
    have hread := scanAttribute_write (here.after blank) ha w
    have hwrite : a.write ++ w = a.name ++ a.beforeSign ++ '=' :: (a.afterSign ++
        a.quote :: (a.value.raw ++ a.quote :: w)) := by
      simp [AttributeForm.write, AttributeForm.opening, hlead]
    rw [hlead, Location.after_nil, ← hwrite, ← heq, ← hrest] at hread
    have hcur : s.cursor.rest = w := by
      show (scanAttribute d a.name.length).cursor.rest = w
      rw [hread]
    obtain ⟨attributes, trail, empty, r, hall, htrail, htext⟩ := ih h
    rw [hcur] at htext
    subst htext
    refine ⟨{ a with lead := blank } :: attributes, trail, empty, r, ?_, htrail, ?_⟩
    · intro b hb
      rcases List.mem_cons.1 hb with rfl | hb
      · exact ⟨hblank, ha.name, ha.beforeSign, ha.afterSign, ha.quote, ha.value⟩
      · exact hall b hb
    · show blank ++ (a.name ++ v) = _
      rw [heq, hwrite]
      simp [AttributeForm.writeAll, AttributeForm.write, AttributeForm.opening]

end QwebReceiver.Markup
