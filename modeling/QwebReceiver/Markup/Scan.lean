import QwebReceiver.Markup.Reference
import QwebReceiver.Markup.Token

/-!
  QwebReceiver.Markup.Scan — reading markup into tokens.

  At each place the first rule that applies is taken:

    <!--        a comment, up to the first -->
    <![CDATA[   a CDATA section, up to the first ]]>
    <!          a doctype, up to the first > outside square brackets
    <?          a processing instruction, up to the first ?>
    </          a closing tag
    <           a start tag with its attributes
    (other)     text, up to the next <

  Reading stops at the first problem; the tokens read so far are kept.  A scan
  only moves forward (`reaches`), and a rule that succeeds moves past at least
  one character, which is why reading ends.
-/

namespace QwebReceiver.Markup

open QwebReceiver.Text

/-! ## §1. Scans. -/

/-- Tokens read, the place reached, and the problem met there if any. -/
structure Scan where
  tokens : List Token
  cursor : Cursor
  failure : Option Diagnostic := none

/-- A scan that stops at `c` because something else was needed there. -/
def Scan.unexpected (tokens : List Token) (c : Cursor) (e : Expectation) : Scan :=
  { tokens, cursor := c, failure := some ⟨.unexpected c.peek e, c.spanTo c⟩ }

/-- A scan that stops at `c` because of a problem that started earlier. -/
def Scan.problem (tokens : List Token) (start c : Cursor) (p : Problem) : Scan :=
  { tokens, cursor := c, failure := some ⟨p, start.spanTo c⟩ }

/-- How many characters stand before the first occurrence of the mark. -/
def indexOf? (mark : String) : Text → Option Nat
  | [] => none
  | c :: r => if mark.toList.isPrefixOf (c :: r) then some 0 else (indexOf? mark r).map (· + 1)

/-! ## §2. Comments, CDATA, instructions, doctypes. -/

/-- Markup from `start` whose content starts `lead` characters later and ends
at `mark`; the token covers all of it. -/
def scanMarked (start : Cursor) (lead : Nat) (mark : String) (construct : Construct)
    (content : Text → TokenContent) : Scan :=
  let body := start.skip lead
  match indexOf? mark body.rest with
  | none => .problem [] start body.toEnd (.unterminated construct)
  | some n =>
    let stop := body.skip (n + mark.length)
    { tokens := [⟨content (body.rest.take n), start.spanTo stop⟩], cursor := stop }

/-- A CDATA section; the token covers its inside. -/
def scanCdata (start : Cursor) : Scan :=
  let body := start.skip 9
  match indexOf? "]]>" body.rest with
  | none => .problem [] body body.toEnd (.unterminated .cdata)
  | some n =>
    { tokens := [⟨.cdata (body.rest.take n), body.spanTo (body.skip n)⟩],
      cursor := body.skip (n + 3) }

/-- How many characters a doctype has before its closing `>`, with `depth`
square brackets open; a bracket too many is ignored. -/
def doctypeLength? (depth : Nat) : Text → Option Nat
  | [] => none
  | c :: r =>
    if c = '[' then (doctypeLength? (depth + 1) r).map (· + 1)
    else if c = ']' then (doctypeLength? (depth - 1) r).map (· + 1)
    else if c = '>' ∧ depth = 0 then some 0
    else (doctypeLength? depth r).map (· + 1)

/-- A doctype, or any other declaration. -/
def scanDoctype (start : Cursor) : Scan :=
  let body := start.skip 2
  match doctypeLength? 0 body.rest with
  | none => .problem [] start body.toEnd (.unterminated .doctype)
  | some n =>
    let stop := body.skip (n + 1)
    { tokens := [⟨.doctype (body.rest.take n), start.spanTo stop⟩], cursor := stop }

/-! ## §3. Values with references. -/

/-- A value read, the place reached, and the problem met there if any. -/
structure ValueScan where
  value : Spelling
  cursor : Cursor
  failure : Option Diagnostic := none

/-- Whether a character belongs to the body of a reference. -/
def isReferenceChar (c : Char) : Bool :=
  !(c == ';' || isBlank c || c == '<' || c == '&' || isQuote c)

/-- The reference at `start`, which stands at `&`: its glyph and the cursor
behind it, or the problem and the place where reading stopped. -/
def scanReference (start : Cursor) : Except (Problem × Cursor) (Glyph × Cursor) :=
  let inside := start.skip 1
  let body := inside.rest.takeWhile isReferenceChar
  let stop := inside.skip body.length
  if stop.peek = some ';' then
    -- an unknown reference is reported with its semicolon
    match decodeReference? body with
    | some c => .ok (.reference ('&' :: (body ++ [';'])) c, stop.skip 1)
    | none => .error (.unknownReference body, stop.skip 1)
  else .error (.unterminatedReference body, stop)

theorem reaches_of_scanReference {start c : Cursor} {g : Glyph}
    (h : scanReference start = .ok (g, c)) : (start.skip 1).Reaches c := by
  simp only [scanReference] at h
  split at h
  · split at h
    · simp only [Except.ok.injEq, Prod.mk.injEq] at h
      rw [← h.2]
      exact (Cursor.reaches_skip _ _).skip 1
    · simp at h
  · simp at h

/-- Reads characters and references up to a character of the class `stop` or
the end of the text. -/
def scanValue (stop : Char → Bool) (c : Cursor) : ValueScan :=
  match hc : c.rest with
  | [] => { value := [], cursor := c }
  | x :: _ =>
    if stop x then { value := [], cursor := c }
    else if x = '&' then
      match h : scanReference c with
      | .error (p, reached) =>
        { value := [], cursor := reached, failure := some ⟨p, c.spanTo reached⟩ }
      | .ok (g, next) =>
        have : next.rest.length < c.rest.length :=
          Cursor.length_lt_of_reaches_skip (by decide) (by simp [hc]) (reaches_of_scanReference h)
        let s := scanValue stop next
        { s with value := g :: s.value }
    else
      have : (c.skip 1).rest.length < c.rest.length :=
        Cursor.length_lt_of_reaches_skip (by decide) (by simp [hc]) (Cursor.Reaches.refl _)
      let s := scanValue stop (c.skip 1)
      { s with value := .plain x :: s.value }
termination_by c.rest.length

theorem reaches_of_scanReference_error {start c : Cursor} {p : Problem}
    (h : scanReference start = .error (p, c)) : start.Reaches c := by
  simp only [scanReference] at h
  split at h
  · split at h
    · simp at h
    · simp only [Except.error.injEq, Prod.mk.injEq] at h
      rw [← h.2]
      exact ((Cursor.reaches_skip _ _).skip _).skip 1
  · simp only [Except.error.injEq, Prod.mk.injEq] at h
    rw [← h.2]
    exact (Cursor.reaches_skip _ _).skip _

theorem reaches_scanValue (stop : Char → Bool) (c : Cursor) :
    c.Reaches (scanValue stop c).cursor := by
  fun_induction scanValue stop c with
  | case1 c => exact .refl c
  | case2 c => exact .refl c
  | case3 => exact reaches_of_scanReference_error (by assumption)
  | case4 =>
    exact ((Cursor.reaches_skip _ _).trans (reaches_of_scanReference (by assumption))).trans
      (by assumption)
  | case5 c _ _ _ _ _ _ s ih => exact (Cursor.reaches_skip _ _).trans ih

/-- A value that does not start at its end has at least one character. -/
theorem reaches_skip_scanValue {stop : Char → Bool} {c : Cursor} {x : Char} {r : Text}
    (hc : c.rest = x :: r) (hx : stop x = false) (hok : (scanValue stop c).failure = none) :
    (c.skip 1).Reaches (scanValue stop c).cursor := by
  unfold scanValue at hok ⊢
  split at hok
  · next h => simp [hc] at h
  · next y r' h =>
    rw [hc] at h
    obtain ⟨rfl, rfl⟩ := List.cons.inj h
    simp only [hx, Bool.false_eq_true, if_false] at hok ⊢
    split
    · next hamp =>
      rw [if_pos hamp] at hok
      split at hok
      · simp at hok
      · next h => exact (reaches_of_scanReference h).trans (reaches_scanValue _ _)
    · exact reaches_scanValue _ _

/-! ## §4. Tags. -/

/-- How many characters of a name stand at the cursor; none if the first one
cannot start a name. -/
def nameLength? (c : Cursor) : Option Nat :=
  match c.rest with
  | [] => none
  | x :: _ => if isNameStart x then some (c.rest.takeWhile isNamePart).length else none

/-- An attribute at the cursor, which stands at a name of `n` characters: the
name, `=`, and a quoted value. -/
def scanAttribute (c : Cursor) (n : Nat) : Scan :=
  let nameEnd := c.skip n
  let name : Token := ⟨.attributeName (c.rest.take n), c.spanTo nameEnd⟩
  let sign := nameEnd.skipWhile isBlank
  if sign.peek = some '=' then
    let opening := (sign.skip 1).skipWhile isBlank
    match opening.peek with
    | some quote =>
      if quote = '"' ∨ quote = '\'' then
        let inside := opening.skip 1
        let s := scanValue (fun x => x == quote || x == '<') inside
        match s.failure with
        | some d => { tokens := [name], cursor := s.cursor, failure := some d }
        | none =>
          -- the value ends at its quote, at the end of the text, or at a `<`
          if s.cursor.peek = some quote then
            { tokens := [name, ⟨.attributeValue quote s.value, inside.spanTo s.cursor⟩],
              cursor := s.cursor.skip 1 }
          else if s.cursor.peek = none then
            .problem [name] inside s.cursor (.unterminated .attributeValue)
          else .unexpected [name] s.cursor .noLessThan
      else .unexpected [name] opening .quotedValue
    | none => .unexpected [name] opening .quotedValue
  else .unexpected [name] sign .equalsSign

theorem reaches_scanAttribute (c : Cursor) (n : Nat) :
    (c.skip n).Reaches (scanAttribute c n).cursor := by
  have hsign : (c.skip n).Reaches ((c.skip n).skipWhile isBlank) :=
    (Cursor.Reaches.refl _).skipWhile _
  have hopen := (hsign.skip 1).skipWhile isBlank
  unfold scanAttribute
  simp only
  split
  · split
    · split
      · split
        · exact (hopen.skip 1).trans (reaches_scanValue _ _)
        · split
          · exact ((hopen.skip 1).trans (reaches_scanValue _ _)).skip 1
          · split <;> exact (hopen.skip 1).trans (reaches_scanValue _ _)
      · exact hopen
    · exact hopen
  · exact hsign

theorem nameLength?_pos {c : Cursor} {n : Nat} (h : nameLength? c = some n) :
    0 < n ∧ c.rest ≠ [] := by
  unfold nameLength? at h
  split at h
  · simp at h
  · next x r hr =>
    split at h
    · next hx =>
      simp only [Option.some.injEq] at h
      have hp : isNamePart x = true := by simp [isNamePart, hx]
      rw [hr, List.takeWhile_cons_of_pos hp] at h
      rw [← h]
      simp [hr]
    · simp at h

/-- The attributes and the end of a start tag. -/
def scanTagRest (c : Cursor) : Scan :=
  let d := c.skipWhile isBlank
  if d.startsWith "/>" then
    { tokens := [⟨.tagEndEmpty, d.spanTo (d.skip 2)⟩], cursor := d.skip 2 }
  else if d.startsWith ">" then
    { tokens := [⟨.tagEnd, d.spanTo (d.skip 1)⟩], cursor := d.skip 1 }
  else
    match h : nameLength? d with
    | none => .unexpected [] d .attributeOrTagEnd
    | some n =>
      let s := scanAttribute d n
      match s.failure with
      | some _ => s
      | none =>
        -- an attribute has a name, so less text is left after it
        have : (scanAttribute d n).cursor.rest.length < c.rest.length := by
          have h1 := Cursor.length_lt_of_reaches_skip (nameLength?_pos h).1 (nameLength?_pos h).2
            (reaches_scanAttribute d n)
          have h2 := ((Cursor.Reaches.refl c).skipWhile isBlank).length_le
          exact Nat.lt_of_lt_of_le h1 h2
        let t := scanTagRest s.cursor
        { t with tokens := s.tokens ++ t.tokens }
termination_by c.rest.length

theorem reaches_scanTagRest (c : Cursor) : c.Reaches (scanTagRest c).cursor := by
  fun_induction scanTagRest c with
  | case1 c d => exact ((Cursor.Reaches.refl c).skipWhile _).skip 2
  | case2 c d => exact ((Cursor.Reaches.refl c).skipWhile _).skip 1
  | case3 c d => exact (Cursor.Reaches.refl c).skipWhile _
  | case4 c d _ _ n h s =>
    exact (((Cursor.Reaches.refl c).skipWhile _).skip n).trans (reaches_scanAttribute d n)
  | case5 c d _ _ n h s _ _ t ih =>
    exact ((((Cursor.Reaches.refl c).skipWhile _).skip n).trans
      (reaches_scanAttribute d n)).trans ih

/-- A start tag; `start` stands at `<`. -/
def scanStartTag (start : Cursor) : Scan :=
  let c := start.skip 1
  match nameLength? c with
  | none => .unexpected [] c .name
  | some n =>
    let t := scanTagRest (c.skip n)
    { t with tokens := ⟨.tagStart (c.rest.take n), start.spanTo (c.skip n)⟩ :: t.tokens }

/-- A closing tag; `start` stands at `</`. -/
def scanClosingTag (start : Cursor) : Scan :=
  let c := start.skip 2
  match nameLength? c with
  | none => .unexpected [] c .name
  | some n =>
    let d := (c.skip n).skipWhile isBlank
    if d.peek = some '>' then
      { tokens := [⟨.closingTag (c.rest.take n), start.spanTo (d.skip 1)⟩], cursor := d.skip 1 }
    else .unexpected [] d .tagEnd

/-- Text up to the next `<`. -/
def scanText (start : Cursor) : Scan :=
  let s := scanValue (· == '<') start
  match s.failure with
  | some d => { tokens := [], cursor := s.cursor, failure := some d }
  | none => { tokens := [⟨.text s.value, start.spanTo s.cursor⟩], cursor := s.cursor }

/-! ## §5. A whole text. -/

/-- What stands at the cursor, by the first rule that applies. -/
def scanConstruct (c : Cursor) : Scan :=
  if c.startsWith "<!--" then scanMarked c 4 "-->" .comment .comment
  else if c.startsWith "<![CDATA[" then scanCdata c
  else if c.startsWith "<!" then scanDoctype c
  else if c.startsWith "<?" then scanMarked c 2 "?>" .instruction .instruction
  else if c.startsWith "</" then scanClosingTag c
  else if c.startsWith "<" then scanStartTag c
  else scanText c

theorem reaches_scanMarked (c : Cursor) (lead : Nat) (mark : String) (k : Construct)
    (f : Text → TokenContent) : (c.skip lead).Reaches (scanMarked c lead mark k f).cursor := by
  simp only [scanMarked]
  split <;> exact Cursor.reaches_skip _ _

theorem reaches_scanCdata (c : Cursor) : (c.skip 9).Reaches (scanCdata c).cursor := by
  simp only [scanCdata]
  split <;> exact Cursor.reaches_skip _ _

theorem reaches_scanDoctype (c : Cursor) : (c.skip 2).Reaches (scanDoctype c).cursor := by
  simp only [scanDoctype]
  split <;> exact Cursor.reaches_skip _ _

theorem reaches_scanStartTag (c : Cursor) : (c.skip 1).Reaches (scanStartTag c).cursor := by
  simp only [scanStartTag]
  split
  · exact .refl _
  · exact (Cursor.reaches_skip _ _).trans (reaches_scanTagRest _)

theorem reaches_scanClosingTag (c : Cursor) : (c.skip 2).Reaches (scanClosingTag c).cursor := by
  simp only [scanClosingTag]
  split
  · exact .refl _
  · split
    · exact ((Cursor.reaches_skip _ _).skipWhile _).skip 1
    · exact (Cursor.reaches_skip _ _).skipWhile _

theorem failure_of_scanText {c : Cursor} (h : (scanText c).failure = none) :
    (scanValue (· == '<') c).failure = none ∧
      (scanText c).cursor = (scanValue (· == '<') c).cursor := by
  simp only [scanText] at h ⊢
  split at h
  · simp at h
  · next hf => simp [hf]

/-- A rule that succeeds moves past at least one character. -/
theorem length_scanConstruct {c : Cursor} (hc : c.rest ≠ [])
    (hok : (scanConstruct c).failure = none) :
    (scanConstruct c).cursor.rest.length < c.rest.length := by
  unfold scanConstruct at hok ⊢
  split
  · exact Cursor.length_lt_of_reaches_skip (by decide) hc (reaches_scanMarked ..)
  split
  · exact Cursor.length_lt_of_reaches_skip (by decide) hc (reaches_scanCdata _)
  split
  · exact Cursor.length_lt_of_reaches_skip (by decide) hc (reaches_scanDoctype _)
  split
  · exact Cursor.length_lt_of_reaches_skip (by decide) hc (reaches_scanMarked ..)
  split
  · exact Cursor.length_lt_of_reaches_skip (by decide) hc (reaches_scanClosingTag _)
  split
  · exact Cursor.length_lt_of_reaches_skip (by decide) hc (reaches_scanStartTag _)
  · next h1 h2 h3 h4 h5 h6 =>
    -- text: its first character is no `<`, so the value is not empty
    simp only [h1, h2, h3, h4, h5, h6] at hok
    obtain ⟨hv, hcur⟩ := failure_of_scanText hok
    rw [hcur]
    obtain ⟨x, r, hx⟩ := List.exists_cons_of_ne_nil hc
    have hne : (x == '<') = false := by
      simp only [Cursor.startsWith, hx] at h6
      simp only [beq_eq_false_iff_ne]
      rintro rfl
      exact h6 rfl
    exact Cursor.length_lt_of_reaches_skip (by decide) hc (reaches_skip_scanValue hx hne hv)

/-- Reads from the cursor to the end of the text or the first problem. -/
def scanFrom (c : Cursor) : Scan :=
  if hc : c.rest = [] then { tokens := [], cursor := c }
  else
    let s := scanConstruct c
    match h : s.failure with
    | some _ => s
    | none =>
      have : (scanConstruct c).cursor.rest.length < c.rest.length := length_scanConstruct hc h
      let t := scanFrom s.cursor
      { t with tokens := s.tokens ++ t.tokens }
termination_by c.rest.length

/-- The tokens of a text, closed by the end of the text or the place where a
problem stopped the reading, and that problem. -/
def scan (content : Text) : List Token × Option Diagnostic :=
  let s := scanFrom (.ofText content)
  (s.tokens ++ [⟨.endOfText, s.cursor.spanTo s.cursor⟩], s.failure)

end QwebReceiver.Markup
