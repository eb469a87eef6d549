import QwebReceiver.Proofs.Markup.Written

/-!
  QwebReceiver.Proofs.Markup.Layout — where the tokens of a text lie.

  The reader moves one cursor forward, and each token is a stretch of that way:
  `Laid c ts d` says that the tokens `ts` lie one after the other between the
  cursors `c` and `d`, with gaps that belong to none of them, and that each
  covers the text that `Reads` asks of its content.  No part of the reader is
  needed to be successful for this: what it read before a problem is laid out
  like everything else, and so is the problem (`Scan.Sound`).

  Main results:

    * `laid_scan` — the tokens of a text, from its start to its end or to the
      place of the problem that stopped the reading;
    * `failure_scan` — that problem.
-/

namespace QwebReceiver.Cursor

open QwebReceiver.Markup

/-! ## §1. The way between two cursors. -/

/-- One cursor is reached from another over the text between them. -/
theorem reaches_iff {a b : Cursor} :
    a.Reaches b ↔ ∃ w, a.rest = w ++ b.rest ∧ b.here = a.here.after w := by
  constructor
  · rintro ⟨n, rfl⟩
    exact ⟨a.rest.take n, (List.take_append_drop n a.rest).symm, rfl⟩
  · rintro ⟨w, hrest, hhere⟩
    refine ⟨w.length, ?_⟩
    cases b
    simp only at hrest hhere
    rw [Cursor.skip, hrest, List.take_left', List.drop_left', hhere] <;> rfl

/-- A word that stands at the cursor is the text that is passed by moving on by
its length. -/
theorem take_of_startsWith {c : Cursor} {word : String} (h : c.startsWith word = true) :
    c.rest.take word.length = word.toList := by
  obtain ⟨r, hr⟩ := List.isPrefixOf_iff_prefix.1 h
  rw [← hr, ← String.length_toList, List.take_left']
  rfl

end QwebReceiver.Cursor

namespace QwebReceiver.Markup

open QwebReceiver.Text

/-! ## §2. Values and what they are written as. -/

/-- A text and the value it stands for: every character stands for itself, but
for `&`, which starts the reference to a character. -/
inductive Decodes : Text → Text → Prop where
  | nil : Decodes [] []
  | plain {c : Char} {t v : Text} (hc : c ≠ '&') (h : Decodes t v) : Decodes (c :: t) (c :: v)
  | reference {body t v : Text} {c : Char} (hbody : decodeReference? body = some c)
      (h : Decodes t v) : Decodes ('&' :: (body ++ ';' :: t)) (c :: v)

/-- A value that is read was written there. -/
theorem decodes_scanValue {stop : Char → Bool} {c : Cursor} (h : (scanValue stop c).failure = none) :
    c.rest = (scanValue stop c).value.raw ++ (scanValue stop c).cursor.rest ∧
      Decodes (scanValue stop c).value.raw (scanValue stop c).value.decoded := by
  fun_induction scanValue stop c with
  | case1 => exact ⟨rfl, .nil⟩
  | case2 => exact ⟨rfl, .nil⟩
  | case3 => cases h
  | case4 c t g next hg s hc hx hlt ih =>
    obtain ⟨here, rest⟩ := c
    obtain rfl : rest = '&' :: t := hc
    obtain ⟨body, y, r, rfl, hbody, rfl, rfl⟩ := exists_body_of_scanReference hg
    obtain ⟨hrest, hdecodes⟩ := ih h
    -- a reference is spelled as it is written, with its `&` and `;`
    have hraw : Spelling.raw (.reference ('&' :: (body ++ [';'])) y :: s.value) =
        '&' :: (body ++ ';' :: Spelling.raw s.value) := by
      simp [Spelling.raw, Glyph.raw]
    rw [hraw]
    refine ⟨?_, .reference hbody hdecodes⟩
    have hrest' : r = Spelling.raw s.value ++ s.cursor.rest := hrest
    simp [hrest']
  | case5 c x t hc hx hx' hlt s ih =>
    obtain ⟨hrest, hdecodes⟩ := ih h
    have hrest' : t = Spelling.raw s.value ++ s.cursor.rest := by
      rw [← hrest, Cursor.rest_skip, hc]
      rfl
    exact ⟨by rw [hc, hrest']; rfl, .plain hx' hdecodes⟩

/-! ## §3. Tokens along the way. -/

/-- What the text `w` of a token is, before the text `r`.  With the span of the
token this is all that a token says. -/
def TokenContent.Reads (w r : Text) : TokenContent → Prop
  | .tagStart name => w = '<' :: name
  | .attributeName name => w = name
  | .attributeValue quote v =>
    w = v.raw ∧ Decodes w v.decoded ∧ (quote = '"' ∨ quote = '\'') ∧ r.head? = some quote
  | .tagEnd => w = tagEndMark
  | .tagEndEmpty => w = emptyTagEnd
  | .closingTag name => ∃ gap, IsBlank gap ∧ w = writeClosing name gap
  | .text v => w = v.raw ∧ Decodes w v.decoded
  | .cdata c => w = c
  | .comment c => w = commentStart ++ c ++ commentEnd
  | .instruction c => w = instructionStart ++ c ++ instructionEnd
  | .doctype c => w = declarationStart ++ c ++ tagEndMark
  | .endOfText => w = []

/-- The token is the text from one cursor to another, and its span is the one
between them. -/
def Token.Covers (t : Token) (a b : Cursor) : Prop :=
  t.span = a.spanTo b ∧ ∃ w, a.rest = w ++ b.rest ∧ b.here = a.here.after w ∧ t.content.Reads w b.rest

/-- Where a token ends is reached from where it starts. -/
theorem Token.Covers.reaches {t : Token} {a b : Cursor} (h : t.Covers a b) : a.Reaches b := by
  obtain ⟨-, w, hrest, hhere, -⟩ := h
  exact Cursor.reaches_iff.2 ⟨w, hrest, hhere⟩

/-- A token covers the text passed on the way, if that reads as the token. -/
theorem Token.covers_of_reaches {k : TokenContent} {a b : Cursor} {w : Text} (h : a.Reaches b)
    (hw : a.rest = w ++ b.rest) (hk : k.Reads w b.rest) : (⟨k, a.spanTo b⟩ : Token).Covers a b := by
  obtain ⟨w', hrest, hhere⟩ := Cursor.reaches_iff.1 h
  obtain rfl : w' = w := List.append_cancel_right (hrest.symm.trans hw)
  exact ⟨rfl, w', hrest, hhere, hk⟩

/-- A token of a fixed length covers the text that is skipped. -/
theorem Token.covers_skip {k : TokenContent} {c : Cursor} {n : Nat}
    (h : k.Reads (c.rest.take n) (c.rest.drop n)) :
    (⟨k, c.spanTo (c.skip n)⟩ : Token).Covers c (c.skip n) :=
  covers_of_reaches (Cursor.reaches_skip c n) (List.take_append_drop n c.rest).symm h

/-- The tokens lie one after the other between two cursors.  There may be gaps,
for what is not kept as a token. -/
inductive Laid : Cursor → List Token → Cursor → Prop where
  | nil {c d : Cursor} (h : c.Reaches d) : Laid c [] d
  | cons {c a b d : Cursor} {t : Token} {ts : List Token} (gap : c.Reaches a) (ht : t.Covers a b)
      (rest : Laid b ts d) : Laid c (t :: ts) d

namespace Laid

variable {c c' d d' : Cursor} {t : Token} {ts us : List Token}

/-- The end of some tokens is reached from their start. -/
theorem reaches (h : Laid c ts d) : c.Reaches d := by
  induction h with
  | nil h => exact h
  | cons gap ht _ ih => exact (gap.trans ht.reaches).trans ih

theorem of_reaches (h : c'.Reaches c) (hts : Laid c ts d) : Laid c' ts d := by
  cases hts with
  | nil hd => exact .nil (h.trans hd)
  | cons gap ht rest => exact .cons (h.trans gap) ht rest

/-- Tokens up to where others start lie on one way with these. -/
theorem append (h : Laid c ts d) (h' : Laid d us d') : Laid c (ts ++ us) d' := by
  induction h with
  | nil h => exact h'.of_reaches h
  | cons gap ht _ ih => exact .cons gap ht (ih h')

/-- What is passed behind the last token is a gap. -/
theorem to_reaches (hts : Laid c ts d) (h : d.Reaches d') : Laid c ts d' := by
  have hend := hts.append (.nil h)
  rwa [List.append_nil] at hend

theorem single {a b : Cursor} (gap : c.Reaches a) (ht : t.Covers a b) : Laid c [t] b :=
  .cons gap ht (.nil (.refl b))

end Laid

/-! ## §4. Sound scans. -/

/-- Whether a problem is one that stops the reading.  The others are found by
the builder, which goes on. -/
def Problem.stops : Problem → Bool
  | .unterminated _ | .unexpected _ _ | .unterminatedReference _ | .unknownReference _ => true
  | _ => false

/-- A problem that stops the reading, between two cursors reached from `c`.  So
it lies behind all that was read. -/
def Diagnostic.MetFrom (d : Diagnostic) (c : Cursor) : Prop :=
  d.problem.stops = true ∧ ∃ a b, c.Reaches a ∧ a.Reaches b ∧ d.span = a.spanTo b

/-- The scan goes on from `c`: its tokens lie on the way to the place reached,
and so does the problem met, if any. -/
structure Scan.Sound (c : Cursor) (s : Scan) : Prop where
  laid : Laid c s.tokens s.cursor
  failure : ∀ d, s.failure = some d → d.MetFrom c

section Sound

variable {c d : Cursor} {ts : List Token} {s t : Scan}

/-- A problem met further on is met on the way there. -/
theorem Diagnostic.MetFrom.of_reaches {p : Diagnostic} (h : c.Reaches d) (hp : p.MetFrom d) :
    p.MetFrom c := by
  obtain ⟨hstops, a, b, ha, hb, hspan⟩ := hp
  exact ⟨hstops, a, b, h.trans ha, hb, hspan⟩

namespace Scan.Sound

theorem done (h : Laid c ts d) : ({ tokens := ts, cursor := d } : Scan).Sound c :=
  ⟨h, fun _ hd => by cases hd⟩

/-- A scan that stops at something it did not expect is sound: the problem is at
the cursor. -/
theorem unexpected (h : Laid c ts d) (e : Expectation) : (Scan.unexpected ts d e).Sound c := by
  refine ⟨h, ?_⟩
  intro p hp
  cases hp
  exact ⟨rfl, d, d, h.reaches, .refl d, rfl⟩

/-- A scan that stops with a problem is sound if the problem lies on the way. -/
theorem problem {start stop : Cursor} (h : Laid c ts stop) (hstart : c.Reaches start)
    (hstop : start.Reaches stop) {p : Problem} (hp : p.stops = true) :
    (Scan.problem ts start stop p).Sound c := by
  refine ⟨h, ?_⟩
  intro q hq
  cases hq
  exact ⟨hp, start, stop, hstart, hstop, rfl⟩

theorem of_reaches (h : c.Reaches d) (hs : s.Sound d) : s.Sound c :=
  ⟨hs.laid.of_reaches h, fun p hp => (hs.failure p hp).of_reaches h⟩

/-- A scan after some tokens. -/
theorem append (h : Laid c ts d) (ht : t.Sound d) :
    ({ t with tokens := ts ++ t.tokens } : Scan).Sound c :=
  ⟨h.append ht.laid, fun p hp => (ht.failure p hp).of_reaches h.reaches⟩

end Scan.Sound

/-! ## §5. Leaves. -/

/-- A problem with a reference stops the reading. -/
theorem stops_of_scanReference {p : Problem} (h : scanReference c = .error (p, d)) :
    p.stops = true := by
  simp only [scanReference] at h
  split at h
  · split at h
    · simp at h
    · simp only [Except.error.injEq, Prod.mk.injEq] at h
      rw [← h.1]
      rfl
  · simp only [Except.error.injEq, Prod.mk.injEq] at h
    rw [← h.1]
    rfl

/-- A value that cannot be read gives a problem on the way through it. -/
theorem failure_scanValue {stop : Char → Bool} {p : Diagnostic}
    (h : (scanValue stop c).failure = some p) : p.MetFrom c := by
  fun_induction scanValue stop c with
  | case1 => cases h
  | case2 => cases h
  | case3 c t q reached hr =>
    cases h
    exact ⟨stops_of_scanReference hr, c, reached, .refl c, reaches_of_scanReference_error hr, rfl⟩
  | case4 c t g next hg s hc hx hlt ih =>
    exact (ih h).of_reaches ((Cursor.reaches_skip c 1).trans (reaches_of_scanReference hg))
  | case5 c _ _ _ _ _ _ _ ih => exact (ih h).of_reaches (Cursor.reaches_skip c 1)

/-- The scan of markup between two marks is sound, whichever the marks are. -/
theorem sound_scanMarked {lead u : Text} {mark : String} {construct : Construct}
    {token : Text → TokenContent} (hc : c.rest = lead ++ u)
    (htoken : ∀ content r, (token content).Reads (lead ++ content ++ mark.toList) r) :
    (scanMarked c lead.length mark construct token).Sound c := by
  have hbody : c.Reaches (c.skip lead.length) := Cursor.reaches_skip ..
  simp only [scanMarked]
  split
  · exact .problem (.nil (hbody.skip _)) (.refl c) (hbody.skip _) rfl
  · next n hn =>
    rw [Cursor.rest_skip, hc, List.drop_left' rfl] at hn
    obtain ⟨content, r, rfl, rfl, -⟩ := exists_content_of_indexOf? hn
    refine .done (.single (.refl c) (Token.covers_of_reaches (hbody.skip _) ?_ (htoken _ _)))
    simp [hc, ← String.length_toList, List.drop_append]

/-- The scan of a CDATA section is sound; its token covers the content and the
marks. -/
theorem sound_scanCdata (c : Cursor) : (scanCdata c).Sound c := by
  have hbody : c.Reaches (c.skip 9) := Cursor.reaches_skip ..
  simp only [scanCdata]
  split
  · exact .problem (.nil (hbody.skip _)) hbody (Cursor.reaches_skip ..) rfl
  · next n hn =>
    -- the marks around the section belong to no token
    have hcovers := Token.covers_skip (k := .cdata ((c.skip 9).rest.take n)) (n := n) rfl
    refine .done ((Laid.single hbody hcovers).to_reaches ?_)
    rw [← Cursor.skip_skip]
    exact Cursor.reaches_skip ..

/-- The scan of a declaration is sound. -/
theorem sound_scanDoctype {u : Text} (hc : c.rest = declarationStart ++ u) :
    (scanDoctype c).Sound c := by
  have hbody : c.Reaches (c.skip 2) := Cursor.reaches_skip ..
  simp only [scanDoctype]
  split
  · exact .problem (.nil (hbody.skip _)) (.refl c) (hbody.skip _) rfl
  · next n hn =>
    rw [Cursor.rest_skip, hc] at hn
    obtain ⟨content, r, hu, rfl, -⟩ := exists_content_of_doctypeLength? hn
    obtain rfl : u = content ++ '>' :: r := hu
    refine .done (.single (.refl c) (Token.covers_of_reaches (hbody.skip _) ?_ rfl))
    simp [hc, declarationStart, tagEndMark, List.drop_append]

/-- The scan of a text is sound. -/
theorem sound_scanText (c : Cursor) : (scanText c).Sound c := by
  simp only [scanText]
  split
  · next p hp =>
    refine ⟨.nil (reaches_scanValue ..), ?_⟩
    intro q hq
    cases hq
    exact failure_scanValue hp
  · next hp =>
    obtain ⟨hrest, hdecodes⟩ := decodes_scanValue hp
    exact .done (.single (.refl c)
      (Token.covers_of_reaches (reaches_scanValue ..) hrest ⟨rfl, hdecodes⟩))

/-! ## §6. Tags. -/

/-- The scan of an attribute is sound, also if it stops in the value. -/
theorem sound_scanAttribute (c : Cursor) (n : Nat) : (scanAttribute c n).Sound c := by
  -- the name is a token whatever becomes of the value
  have hname : Laid c [⟨.attributeName (c.rest.take n), c.spanTo (c.skip n)⟩] (c.skip n) :=
    .single (.refl c) (Token.covers_skip rfl)
  have hsign : (c.skip n).Reaches ((c.skip n).skipWhile isBlank) :=
    (Cursor.Reaches.refl _).skipWhile _
  have hopening := (hsign.skip 1).skipWhile isBlank
  simp only [scanAttribute]
  split
  · split
    · next quote _ =>
      split
      · next hquote =>
        have hvalue := (hopening.skip 1).trans (reaches_scanValue (fun x => x == quote || x == '<') _)
        split
        · next p hp =>
          refine ⟨hname.to_reaches hvalue, ?_⟩
          intro q hq
          cases hq
          exact (failure_scanValue hp).of_reaches (hname.reaches.trans (hopening.skip 1))
        · next hp =>
          obtain ⟨hrest, hdecodes⟩ := decodes_scanValue hp
          split
          · next hlast =>
            have hcovers := Token.covers_of_reaches
              (k := .attributeValue quote (scanValue (fun x => x == quote || x == '<') _).value)
              (reaches_scanValue ..) hrest ⟨rfl, hdecodes, hquote, hlast⟩
            exact .done ((hname.append (.single (hopening.skip 1) hcovers)).to_reaches
              (Cursor.reaches_skip ..))
          · split
            · exact .problem (hname.to_reaches hvalue) (hname.reaches.trans (hopening.skip 1))
                (reaches_scanValue ..) rfl
            · exact .unexpected (hname.to_reaches hvalue) _
      · exact .unexpected (hname.to_reaches hopening) _
    · exact .unexpected (hname.to_reaches hopening) _
  · exact .unexpected (hname.to_reaches hsign) _

/-- The scan of the rest of a start tag is sound, by recursion over its
attributes. -/
theorem sound_scanTagRest (c : Cursor) : (scanTagRest c).Sound c := by
  fun_induction scanTagRest c with
  | case1 c d hd =>
    have hcd : c.Reaches d := (Cursor.Reaches.refl c).skipWhile _
    exact .done (.single hcd (Token.covers_skip (Cursor.take_of_startsWith hd)))
  | case2 c d _ hd =>
    have hcd : c.Reaches d := (Cursor.Reaches.refl c).skipWhile _
    exact .done (.single hcd (Token.covers_skip (Cursor.take_of_startsWith hd)))
  | case3 c d => exact .unexpected (.nil ((Cursor.Reaches.refl c).skipWhile _)) _
  | case4 c d _ _ n _ s =>
    exact (sound_scanAttribute d n).of_reaches ((Cursor.Reaches.refl c).skipWhile _)
  | case5 c d _ _ n _ s _ _ t ih =>
    have hattribute := (sound_scanAttribute d n).of_reaches ((Cursor.Reaches.refl c).skipWhile _)
    exact .append hattribute.laid ih

/-- The scan of a start tag is sound. -/
theorem sound_scanStartTag {u : Text} (hc : c.rest = '<' :: u) : (scanStartTag c).Sound c := by
  have hname : c.Reaches (c.skip 1) := Cursor.reaches_skip ..
  simp only [scanStartTag]
  split
  · exact .unexpected (.nil hname) _
  · next n hn =>
    have hcovers := Token.covers_of_reaches (k := .tagStart ((c.skip 1).rest.take n))
      (hname.skip n) (w := '<' :: (c.skip 1).rest.take n) (by simp [hc]) rfl
    exact .append (.single (.refl c) hcovers) (sound_scanTagRest _)

/-- The scan of a closing tag is sound. -/
theorem sound_scanClosingTag {u : Text} (hc : c.rest = closingStart ++ u) :
    (scanClosingTag c).Sound c := by
  obtain ⟨here, t⟩ := c
  obtain rfl : t = closingStart ++ u := hc
  have hskip : (⟨here, closingStart ++ u⟩ : Cursor).skip 2 = ⟨here.after closingStart, u⟩ :=
    skip_written here closingStart u
  have hstart : (⟨here, closingStart ++ u⟩ : Cursor).Reaches ⟨here.after closingStart, u⟩ :=
    ⟨2, hskip.symm⟩
  -- only a whole closing tag is a token; up to its `>` nothing is laid out
  simp only [scanClosingTag, hskip]
  split
  · exact .unexpected (.nil hstart) _
  · next n hn =>
    obtain ⟨name, v, rfl, rfl, -, -⟩ := exists_name_of_nameLength? hn
    obtain ⟨gap, w, rfl, hgap, hw⟩ := exists_run isBlank v
    have hend := (hstart.skip name.length).skipWhile isBlank
    simp only [skip_written, skipWhile_written _ hgap hw, List.take_left'] at hend ⊢
    split
    · next hp =>
      obtain ⟨r, rfl⟩ := List.head?_eq_some_iff.1 hp
      refine .done (.single (.refl _) (Token.covers_of_reaches (hend.skip 1) ?_ ⟨gap, hgap, rfl⟩))
      simp [writeClosing, tagEndMark]
    · exact .unexpected (.nil hend) _

/-! ## §7. Whole texts. -/

/-- Whatever construct starts at the cursor, its scan is sound. -/
theorem sound_scanConstruct (c : Cursor) : (scanConstruct c).Sound c := by
  have hword {word : String} (h : c.startsWith word = true) : ∃ r, c.rest = word.toList ++ r := by
    obtain ⟨r, hr⟩ := List.isPrefixOf_iff_prefix.1 h
    exact ⟨r, hr.symm⟩
  -- one case per kind of markup, in the order in which the scanner tries their first
  -- characters
  unfold scanConstruct
  split
  · next h =>
    obtain ⟨r, hr⟩ := hword h
    exact sound_scanMarked hr fun _ _ => rfl
  split
  · exact sound_scanCdata c
  split
  · next h =>
    obtain ⟨r, hr⟩ := hword h
    exact sound_scanDoctype hr
  split
  · next h =>
    obtain ⟨r, hr⟩ := hword h
    exact sound_scanMarked hr fun _ _ => rfl
  split
  · next h =>
    obtain ⟨r, hr⟩ := hword h
    exact sound_scanClosingTag hr
  split
  · next h =>
    obtain ⟨r, hr⟩ := hword h
    exact sound_scanStartTag hr
  · exact sound_scanText c

/-- The scan from a cursor to the end of the text is sound, construct by
construct. -/
theorem sound_scanFrom (c : Cursor) : (scanFrom c).Sound c := by
  fun_induction scanFrom c with
  | case1 c => exact .done (.nil (.refl c))
  | case2 c => exact sound_scanConstruct c
  | case3 c _ s _ _ t ih => exact .append (sound_scanConstruct c).laid ih

/-- **The tokens of a text lie one after the other on the way through it.**
This holds of every text, broken or not. -/
theorem laid_scan (content : Text) : ∃ d, Laid (.ofText content) (scan content).1 d := by
  have hsound := sound_scanFrom (.ofText content)
  have hend := Token.covers_of_reaches (k := .endOfText) (w := [])
    (.refl (scanFrom (.ofText content)).cursor) rfl rfl
  exact ⟨_, hsound.laid.append (.single (.refl _) hend)⟩

/-- **The problem that stops the reading** is met on that way, between two
cursors that the scan came to. -/
theorem failure_scan {content : Text} {d : Diagnostic} (h : (scan content).2 = some d) :
    d.MetFrom (.ofText content) :=
  (sound_scanFrom (.ofText content)).failure d h

end Sound

end QwebReceiver.Markup
