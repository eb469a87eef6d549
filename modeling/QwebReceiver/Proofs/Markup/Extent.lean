import Mathlib.Data.List.Induction
import QwebReceiver.Proofs.Markup.Layout
import QwebReceiver.Proofs.Markup.Respell

/-!
  QwebReceiver.Proofs.Markup.Extent — places and stretches of a source.

  A place is exact if its offset lies between two characters of the source and
  its line and column count what stands before it.  A stretch is exact if both
  of its places are; it is then the text that it covers.

  Main results:

    * `exact_of_reaches` — the cursor is always at an exact place;
    * `exists_stretch_of_scan` — each token is a stretch, with the text that its
      content asks for;
    * `inOrder_scan` — the tokens follow one another.
-/

namespace QwebReceiver

open QwebReceiver.Text QwebReceiver.Markup

/-! ## §1. Exact places. -/

/-- A place of a source whose offset is that of a character or of the end, and
whose line and column are those at which the character stands. -/
structure Location.Exact (content : Text) (l : Location) : Prop where
  inside : l.offset ≤ utf8Size content
  boundary : isBoundary content l.offset = true
  /-- The line feeds before the place. -/
  line : l.line = (content.takeBytes l.offset).count '\n'
  /-- The characters before the place, back to the last line feed. -/
  column : l.column = ((content.takeBytes l.offset).reverse.takeWhile (· ≠ '\n')).length

theorem Location.after_singleton (l : Location) (c : Char) : l.after [c] = l.step c := rfl

/-- Where one stands after a text, in terms of the text. -/
theorem Location.after_origin (t : Text) :
    Location.origin.after t =
      ⟨utf8Size t, t.count '\n', (t.reverse.takeWhile (· ≠ '\n')).length⟩ := by
  -- from the back: a line and a column are counted up to the last character
  induction t using List.reverseRecOn with
  | nil => rfl
  | append_singleton t c ih =>
    rw [Location.after_append, ih, Location.after_singleton, Location.step, utf8Size_append,
      List.count_append, List.reverse_append]
    by_cases hc : c = '\n' <;> simp [hc, utf8Size]

/-- The place behind an initial part of a source is exact. -/
theorem Location.exact_after (before after : Text) :
    (Location.origin.after before).Exact (before ++ after) := by
  have hsize : (Location.origin.after before).offset = utf8Size before := by
    rw [Location.after_origin]
  have htake : (before ++ after).takeBytes (utf8Size before) = before := takeBytes_written _ _
  refine ⟨?_, ?_, ?_, ?_⟩ <;> rw [hsize]
  · rw [utf8Size_append]
    exact Nat.le_add_right _ _
  · exact isBoundary_written _ _
  · rw [htake, Location.after_origin]
  · rw [htake, Location.after_origin]

/-- **A cursor that moved through a source is at an exact place**: its three
counts are those of the text it has passed. -/
theorem Location.exact_of_reaches {content : Text} {c : Cursor}
    (h : (Cursor.ofText content).Reaches c) : c.here.Exact content := by
  obtain ⟨before, hrest, hhere⟩ := Cursor.reaches_iff.1 h
  obtain rfl : content = before ++ c.rest := hrest
  rw [hhere]
  exact Location.exact_after _ _

/-- A cursor only moves forward. -/
theorem Cursor.Reaches.offset_le {c d : Cursor} (h : c.Reaches d) :
    c.here.offset ≤ d.here.offset := by
  obtain ⟨w, -, hhere⟩ := Cursor.reaches_iff.1 h
  rw [hhere, offset_after]
  exact Nat.le_add_right _ _

/-! ## §2. Stretches. -/

/-- The span from behind `before` to behind `w`, where `before` is all the text
in front.  Every span of a parse is of this form. -/
def Span.over (before w : Text) : Span :=
  ⟨Location.origin.after before, Location.origin.after (before ++ w)⟩

/-- The text of a stretch. -/
theorem Span.text_over (before w after url : Text) :
    (Span.over before w).text ⟨before ++ (w ++ after), url⟩ = w := by
  have hstart : (Location.origin.after before).offset = utf8Size before := by
    rw [Location.after_origin]
  have hstop : (Location.origin.after (before ++ w)).offset = utf8Size before + utf8Size w := by
    rw [Location.after_origin, utf8Size_append]
  show Text.slice (before ++ (w ++ after)) (Location.origin.after before).offset
    (Location.origin.after (before ++ w)).offset = w
  rw [hstart, hstop, slice_written]

/-- Spans that follow one another between two offsets, none reaching into the
next. -/
def Span.InOrder (start stop : Nat) : List Span → Prop
  | [] => start ≤ stop
  | s :: rest =>
    start ≤ s.start.offset ∧ s.start.offset ≤ s.stop.offset ∧ InOrder s.stop.offset stop rest

namespace Span.InOrder

variable {start middle stop : Nat} {l m : List Span}

/-- Spans in order stay so if they may start earlier. -/
theorem of_le {start' : Nat} (hle : start' ≤ start) (h : InOrder start stop l) :
    InOrder start' stop l := by
  cases l with
  | nil => exact hle.trans h
  | cons s l => exact ⟨hle.trans h.1, h.2⟩

/-- Spans in order, up to where others in order start, are in order with these. -/
theorem append (h : InOrder start middle l) (h' : InOrder middle stop m) :
    InOrder start stop (l ++ m) := by
  induction l generalizing start with
  | nil => exact h'.of_le h
  | cons s l ih => exact ⟨h.1, h.2.1, ih h.2.2⟩

/-- None of the spans starts before the first offset. -/
theorem start_le (h : InOrder start stop l) {s : Span} (hs : s ∈ l) : start ≤ s.start.offset := by
  induction l generalizing start with
  | nil => cases hs
  | cons t l ih =>
    rcases List.mem_cons.1 hs with rfl | hs
    · exact h.1
    · exact (h.1.trans h.2.1).trans (ih h.2.2 hs)

/-- Of two spans in order the first ends where the second starts, or before. -/
theorem pairwise (h : InOrder start stop l) :
    l.Pairwise fun s t => s.stop.offset ≤ t.start.offset := by
  induction l generalizing start with
  | nil => exact .nil
  | cons s l ih => exact List.pairwise_cons.2 ⟨fun t ht => h.2.2.start_le ht, ih h.2.2⟩

end Span.InOrder
end QwebReceiver

namespace QwebReceiver.Markup

open QwebReceiver.Text

/-! ## §3. The tokens of a text. -/

/-- Each of the tokens covers the text between two cursors that were passed. -/
theorem Laid.exists_covers {c d : Cursor} {ts : List Token} (h : Laid c ts d) {t : Token}
    (ht : t ∈ ts) : ∃ a b, c.Reaches a ∧ t.Covers a b := by
  induction h with
  | nil => cases ht
  | @cons c a b d u ts gap hu rest ih =>
    rcases List.mem_cons.1 ht with rfl | ht
    · exact ⟨a, b, gap, hu⟩
    · obtain ⟨a', b', hreach, hcovers⟩ := ih ht
      exact ⟨a', b', (gap.trans hu.reaches).trans hreach, hcovers⟩

/-- Tokens that lie one after the other do not overlap. -/
theorem Laid.inOrder {c d : Cursor} {ts : List Token} (h : Laid c ts d) :
    Span.InOrder c.here.offset d.here.offset (ts.map Token.span) := by
  induction h with
  | nil h => exact h.offset_le
  | cons gap ht rest ih =>
    rw [List.map_cons, ht.1]
    exact ⟨gap.offset_le, ht.reaches.offset_le, ih⟩

/-- **Each token is a stretch of the source**, and its text is what its content
asks for. -/
theorem exists_stretch_of_scan {content : Text} {t : Token} (ht : t ∈ (scan content).1) :
    ∃ before w after, content = before ++ (w ++ after) ∧ t.span = Span.over before w ∧
      t.content.Reads w after := by
  obtain ⟨d, hlaid⟩ := laid_scan content
  obtain ⟨a, b, ha, hspan, w, hrest, hhere, hreads⟩ := hlaid.exists_covers ht
  obtain ⟨before, hbefore, hahere⟩ := Cursor.reaches_iff.1 ha
  obtain rfl : content = before ++ a.rest := hbefore
  have hstart : a.here = Location.origin.after before := hahere
  refine ⟨before, w, b.rest, by rw [hrest], ?_, hreads⟩
  rw [hspan, Cursor.spanTo, hhere, hstart, Span.over, Location.after_append]

/-- **The tokens of a text follow one another.**  None ends before it starts,
and none starts before the one in front has ended. -/
theorem inOrder_scan (content : Text) :
    Span.InOrder 0 (utf8Size content) ((scan content).1.map Token.span) := by
  obtain ⟨d, hlaid⟩ := laid_scan content
  have hend := (Location.exact_of_reaches hlaid.reaches).inside
  have hrest := hlaid.inOrder.append (m := []) hend
  rwa [List.append_nil] at hrest

end QwebReceiver.Markup
