import QwebReceiver.Proofs.Markup.Derivation
import QwebReceiver.Proofs.Text.Utf8

/-!
  QwebReceiver.Proofs.Markup.Respell — writing an edited value so that it is
  read back.

  An encoded value is again a spelling: `respell` is that spelling, glyph by
  glyph, and `encode` is the text it writes (`raw_respell`).

    * `decoded_respell` — the value meant is the one that was to be written;
    * `valid_respell` — nothing in it ends the value or breaks a reference;
    * `respell_decoded` — a value that did not change keeps its spelling.

  The second part is about splicing: `Rewrites` says that a text arises from
  another one by keeping some parts and replacing others, and `Rewrites.splice`
  that the splice makes it.
-/

namespace QwebReceiver.Markup

open QwebReceiver.Text

/-! ## §1. Respelling a value. -/

namespace Spelling

/-- Text that is spelled character by character stands for itself. -/
theorem decoded_plain (t : Text) : decoded (plain t) = t := by
  rw [decoded, plain, List.map_map]
  exact List.map_id t

/-- The glyph that `escape` writes.  A quote is escaped only inside of its own
kind of quotes. -/
def escapeGlyph (quote : Option Char) (c : Char) : Glyph :=
  if c = '&' then .reference "&amp;".toList c
  else if c = '<' then .reference "&lt;".toList c
  else if c = '"' ∧ quote = some '"' then .reference "&quot;".toList c
  else if c = '\'' ∧ quote = some '\'' then .reference "&apos;".toList c
  else .plain c

/-- The glyph of a new character is written as `escape` writes it. -/
theorem raw_escapeGlyph (quote : Option Char) (c : Char) :
    (escapeGlyph quote c).raw = escape quote c := by
  unfold escapeGlyph escape
  split
  · rfl
  split
  · rfl
  split
  · rfl
  split <;> rfl

/-- The glyph of a new character stands for that character. -/
theorem char_escapeGlyph (quote : Option Char) (c : Char) : (escapeGlyph quote c).char = c := by
  unfold escapeGlyph
  split
  · rfl
  split
  · rfl
  split
  · rfl
  split <;> rfl

/-- The characters of the class are those that are escaped before the quote.  So
nothing that is written new can end the value. -/
def Escapes (quote : Option Char) (stop : Char → Bool) : Prop :=
  ∀ c, stop c = true → c = '<' ∨ (quote = some c ∧ (c = '"' ∨ c = '\''))

/-- In text, `<` and `&` are escaped. -/
theorem escapes_stopsText : Escapes none stopsText := by
  intro c hc
  exact Or.inl (by simpa [stopsText] using hc)

/-- In the value of an attribute its quote is escaped, too. -/
theorem escapes_stopsValue {quote : Char} (h : quote = '"' ∨ quote = '\'') :
    Escapes (some quote) (stopsValue quote) := by
  intro c hc
  simp only [stopsValue, Bool.or_eq_true, beq_iff_eq] at hc
  rcases hc with rfl | hc
  · exact Or.inr ⟨rfl, h⟩
  · exact Or.inl hc

/-- An escaped character neither ends the value nor starts a reference. -/
theorem valid_escapeGlyph {quote : Option Char} {stop : Char → Bool} (hs : Escapes quote stop)
    (c : Char) : (escapeGlyph quote c).Valid stop := by
  unfold escapeGlyph
  split
  · next h =>
    subst h
    exact ⟨"amp".toList, by decide, by decide⟩
  split
  · next h =>
    subst h
    exact ⟨"lt".toList, by decide, by decide⟩
  split
  · next h =>
    obtain ⟨rfl, -⟩ := h
    exact ⟨"quot".toList, by decide, by decide⟩
  split
  · next h =>
    obtain ⟨rfl, -⟩ := h
    exact ⟨"apos".toList, by decide, by decide⟩
  -- what is left as it is neither starts a reference nor ends the value
  · next hamp hlt hquot hapos =>
    refine ⟨hamp, ?_⟩
    cases hc : stop c with
    | false => rfl
    | true =>
      rcases hs c hc with rfl | ⟨hq, rfl | rfl⟩
      · exact absurd rfl hlt
      · exact absurd ⟨rfl, hq⟩ hquot
      · exact absurd ⟨rfl, hq⟩ hapos

/-- The spelling that `aligned` writes.  It makes the same choices, but keeps
the glyphs apart. -/
def respell? (quote : Option Char) : Spelling → Text → Option Spelling
  | [], [] => some []
  | _ :: _, [] => none
  | [], c :: r => (respell? quote [] r).map (escapeGlyph quote c :: ·)
  | g :: s, c :: r =>
    if g.char = c then (respell? quote s r).map (g :: ·)
    else (respell? quote (g :: s) r).map (escapeGlyph quote c :: ·)

/-- The spelling that `encode` writes: the aligned one, or all of the value anew
if it cannot be aligned. -/
def respell (s : Spelling) (value : Text) (quote : Option Char) : Spelling :=
  (respell? quote s value).getD (value.map (escapeGlyph quote))

/-- The alignment writes the text of a spelling, so that one may reason about
the spelling in its place. -/
theorem aligned_eq_respell? (quote : Option Char) (s : Spelling) (value : Text) :
    aligned quote s value = (respell? quote s value).map raw := by
  -- the alignment and the respelling make the same choice at every character
  fun_induction respell? quote s value with
  | case1 => rfl
  | case2 g s => rfl
  | case3 c r ih =>
    rw [aligned, ih, Option.map_map, Option.map_map]
    congr 1
    funext t
    show escape quote c ++ raw t = (escapeGlyph quote c).raw ++ raw t
    rw [raw_escapeGlyph]
  | case4 g s r ih =>
    rw [aligned, if_pos rfl, ih, Option.map_map, Option.map_map]
    rfl
  | case5 g s c r hc ih =>
    rw [aligned, if_neg hc, ih, Option.map_map, Option.map_map]
    congr 1
    funext t
    show escape quote c ++ raw t = (escapeGlyph quote c).raw ++ raw t
    rw [raw_escapeGlyph]

/-- What is written is the text of the new spelling. -/
theorem raw_respell (s : Spelling) (value : Text) (quote : Option Char) :
    (s.respell value quote).raw = s.encode value quote := by
  rw [encode, aligned_eq_respell?, respell]
  cases respell? quote s value with
  | some t => rfl
  | none =>
    show raw (value.map (escapeGlyph quote)) = value.flatMap (escape quote)
    rw [raw, List.flatMap_map]
    congr 1
    funext c
    exact raw_escapeGlyph quote c

/-- A spelling that an alignment finds means the value. -/
theorem decoded_of_respell? {quote : Option Char} {s t : Spelling} {value : Text}
    (h : respell? quote s value = some t) : t.decoded = value := by
  fun_induction respell? quote s value generalizing t with
  | case1 =>
    cases h
    rfl
  | case2 g s => cases h
  | case3 c r ih =>
    obtain ⟨u, hu, rfl⟩ := Option.map_eq_some_iff.1 h
    show (escapeGlyph quote c).char :: decoded u = c :: r
    rw [char_escapeGlyph, ih hu]
  -- a kept glyph stands for the character it is kept for
  | case4 g s r ih =>
    obtain ⟨u, hu, rfl⟩ := Option.map_eq_some_iff.1 h
    show g.char :: decoded u = g.char :: r
    rw [ih hu]
  | case5 g s c r hc ih =>
    obtain ⟨u, hu, rfl⟩ := Option.map_eq_some_iff.1 h
    show (escapeGlyph quote c).char :: decoded u = c :: r
    rw [char_escapeGlyph, ih hu]

/-- The new spelling means the value. -/
theorem decoded_respell (s : Spelling) (value : Text) (quote : Option Char) :
    (s.respell value quote).decoded = value := by
  rw [respell]
  cases h : respell? quote s value with
  | some t => exact decoded_of_respell? h
  | none =>
    show decoded (value.map (escapeGlyph quote)) = value
    rw [decoded, List.map_map]
    refine List.map_id'' ?_ value
    intro c
    exact char_escapeGlyph quote c

/-- A spelling that an alignment finds keeps the rules of the old one: a glyph
is either an old one or escaped. -/
theorem valid_of_respell? {quote : Option Char} {stop : Char → Bool} (hs : Escapes quote stop)
    {s t : Spelling} {value : Text} (hvalid : ∀ g ∈ s, g.Valid stop)
    (h : respell? quote s value = some t) : ∀ g ∈ t, g.Valid stop := by
  fun_induction respell? quote s value generalizing t with
  | case1 =>
    cases h
    exact hvalid
  | case2 g s => cases h
  | case3 c r ih =>
    obtain ⟨u, hu, rfl⟩ := Option.map_eq_some_iff.1 h
    exact List.forall_mem_cons.2 ⟨valid_escapeGlyph hs c, ih hvalid hu⟩
  | case4 g s r ih =>
    obtain ⟨u, hu, rfl⟩ := Option.map_eq_some_iff.1 h
    obtain ⟨hg, hrest⟩ := List.forall_mem_cons.1 hvalid
    exact List.forall_mem_cons.2 ⟨hg, ih hrest hu⟩
  | case5 g s c r hc ih =>
    obtain ⟨u, hu, rfl⟩ := Option.map_eq_some_iff.1 h
    exact List.forall_mem_cons.2 ⟨valid_escapeGlyph hs c, ih hvalid hu⟩

/-- The new spelling keeps the rules of the old one. -/
theorem valid_respell {quote : Option Char} {stop : Char → Bool} (hs : Escapes quote stop)
    {s : Spelling} (hvalid : ∀ g ∈ s, g.Valid stop) (value : Text) :
    ∀ g ∈ s.respell value quote, g.Valid stop := by
  rw [respell]
  cases h : respell? quote s value with
  | some t => exact valid_of_respell? hs hvalid h
  | none =>
    intro g hg
    obtain ⟨c, -, rfl⟩ := List.mem_map.1 hg
    exact valid_escapeGlyph hs c

/-- A value that did not change is aligned with all of its spelling. -/
theorem respell?_decoded (quote : Option Char) (s : Spelling) :
    respell? quote s s.decoded = some s := by
  induction s with
  | nil => rfl
  | cons g s ih =>
    show respell? quote (g :: s) (g.char :: decoded s) = some (g :: s)
    rw [respell?, if_pos rfl, ih]
    rfl

/-- A value that did not change keeps its spelling. -/
theorem respell_decoded (quote : Option Char) (s : Spelling) : s.respell s.decoded quote = s := by
  rw [respell, respell?_decoded]
  rfl

end Spelling

/-! ## §2. Splicing. -/

/-- Reading a text moves on by its bytes. -/
theorem offset_after (here : Location) (t : Text) :
    (here.after t).offset = here.offset + utf8Size t := by
  induction t generalizing here with
  | nil => rfl
  | cons c t ih =>
    have hstep : (here.step c).offset = here.offset + c.utf8Size := by
      unfold Location.step
      split <;> rfl
    show ((here.step c).after t).offset = here.offset + (c.utf8Size + utf8Size t)
    rw [ih, hstep]
    omega

/-- From byte `start` on, the second text arises from the first by making the
replacements. -/
inductive Rewrites : Nat → Text → Text → List Replacement → Prop where
  | nil (start : Nat) : Rewrites start [] [] []
  | keep {start : Nat} {old new : Text} {es : List Replacement} (w : Text)
      (h : Rewrites (start + utf8Size w) old new es) : Rewrites start (w ++ old) (w ++ new) es
  | change {start : Nat} {old new : Text} {es : List Replacement} (v w : Text)
      (h : Rewrites (start + utf8Size v) old new es) :
      Rewrites start (v ++ old) (w ++ new) (⟨start, start + utf8Size v, w⟩ :: es)

namespace Rewrites

variable {start : Nat} {old new old' new' : Text} {es es' : List Replacement}

theorem refl (start : Nat) (w : Text) : Rewrites start w w [] := by
  have h : Rewrites start (w ++ []) (w ++ []) [] := keep w (nil _)
  rwa [List.append_nil] at h

/-- One replacement of a whole stretch. -/
theorem single (start : Nat) (v w : Text) :
    Rewrites start v w [⟨start, start + utf8Size v, w⟩] := by
  have h : Rewrites start (v ++ []) (w ++ []) [⟨start, start + utf8Size v, w⟩] :=
    change v w (nil _)
  rwa [List.append_nil, List.append_nil] at h

/-- The replacements of two stretches, one after the other, are those of both. -/
theorem append (h : Rewrites start old new es)
    (h' : Rewrites (start + utf8Size old) old' new' es') :
    Rewrites start (old ++ old') (new ++ new') (es ++ es') := by
  induction h with
  | nil start => exact h'
  | keep w h ih =>
    rw [List.append_assoc, List.append_assoc]
    refine keep w (ih ?_)
    rwa [utf8Size_append, ← Nat.add_assoc] at h'
  | change v w h ih =>
    rw [List.append_assoc, List.append_assoc, List.cons_append]
    refine change v w (ih ?_)
    rwa [utf8Size_append, ← Nat.add_assoc] at h'

/-- The splice makes the replacements; `w` is kept text before the first. -/
theorem splice_from (h : Rewrites start old new es) {first : Nat} {w : Text}
    (hw : first + utf8Size w = start) : Replacement.splice first (w ++ old) es = w ++ new := by
  induction h generalizing first w with
  | nil start => rfl
  | @keep start old new es v h ih =>
    have hv : first + utf8Size (w ++ v) = start + utf8Size v := by
      rw [utf8Size_append, ← Nat.add_assoc, hw]
    have hsplice := ih hv
    rwa [List.append_assoc, List.append_assoc] at hsplice
  | @change start old new es v u h ih =>
    -- `w` is what stands unwritten in front of the span, so the splice writes it and
    -- then `u`
    have htake : start - first = utf8Size w := by omega
    have hdrop : start + utf8Size v - first = utf8Size (w ++ v) := by
      rw [utf8Size_append]
      omega
    have hrest : Replacement.splice (start + utf8Size v) ([] ++ old) es = [] ++ new := ih rfl
    rw [List.nil_append, List.nil_append] at hrest
    show takeBytes (start - first) (w ++ (v ++ old)) ++ u ++
      Replacement.splice (start + utf8Size v) (dropBytes (start + utf8Size v - first) (w ++ (v ++ old)))
        es = w ++ (u ++ new)
    rw [htake, hdrop, takeBytes_written, ← List.append_assoc w v old, dropBytes_written, hrest,
      List.append_assoc]

/-- The splice makes the replacements. -/
theorem splice (h : Rewrites 0 old new es) : Replacement.splice 0 old es = new :=
  h.splice_from (w := []) rfl

end Rewrites

end QwebReceiver.Markup
