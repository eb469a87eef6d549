import QwebReceiver.Proofs.Expr.Strand
import QwebReceiver.Proofs.Markup.Alignment
import QwebReceiver.Proofs.Template.Insertion

/-!
  QwebReceiver.Proofs.Template.Reference — whether the references of a value
  stay on their characters.

  Qualifying knows which characters it inserts, and the writer does not: it
  is given two texts and takes the first character that can be the next glyph
  for it.  The two accounts of the same text are lists of strokes.

    weave      the glyphs of the value where qualifying has left them, and its
               insertions as new characters
    strokes    the glyphs where the writer finds them

  The writer finds a glyph too early if the glyphs up to it are already found
  in the text before its place, and only then (`place_strokes_iff`).  For that
  its character must be one that can be inserted: a character of words, a
  period, a colon or a blank (`not_early_of_foreign`).  The characters that
  markup has references for are not among them, but `&#116;` is a `t`, and the
  writer sees it in `this.` (`reference_strays`).
-/

namespace QwebReceiver.Template

open QwebReceiver.Text QwebReceiver.Markup QwebReceiver.Expr

/-! ## §1. Strokes. -/

section Strokes

variable {u : List Stroke}

theorem decoded_append (s s' : Spelling) :
    Spelling.decoded (s ++ s') = s.decoded ++ s'.decoded := List.map_append

/-- The kept glyphs stand for a part of the text, in order. -/
theorem glyphs_sublist (u : List Stroke) :
    (Spelling.decoded (u.filterMap Stroke.glyph?)).Sublist (u.map Stroke.char) := by
  induction u with
  | nil => exact .slnil
  | cons s u ih =>
    cases s with
    | kept g => exact ih.cons_cons g.char
    | added c => exact ih.cons c

/-- A character that is not added is counted among the glyphs. -/
theorem count_char {c : Char} (h : ∀ d, Stroke.added d ∈ u → d ≠ c) :
    (u.map Stroke.char).count c = (Spelling.decoded (u.filterMap Stroke.glyph?)).count c := by
  induction u with
  | nil => rfl
  | cons s u ih =>
    have hrest := ih fun d hd => h d (List.mem_cons_of_mem s hd)
    cases s with
    | kept g =>
      show (g.char :: u.map Stroke.char).count c =
        (g.char :: Spelling.decoded (u.filterMap Stroke.glyph?)).count c
      rw [List.count_cons, List.count_cons, hrest]
    | added d =>
      show (d :: u.map Stroke.char).count c = _
      rw [List.count_cons_of_ne (h d List.mem_cons_self), hrest]
      rfl

/-- The glyphs up to the one at place `k` are found up to there. -/
theorem take_sublist_of_place {p : Spelling} {v : Text} (hp : u.filterMap Stroke.glyph? = p)
    (hv : u.map Stroke.char = v) {j k : Nat} (h : (Stroke.places u)[j]? = some k) :
    (Spelling.decoded (p.take (j + 1))).Sublist (v.take (k + 1)) := by
  obtain ⟨htake, g, hu, hg⟩ := Stroke.take_of_place h
  have hglyphs : (u.take (k + 1)).filterMap Stroke.glyph? = p.take (j + 1) := by
    rw [List.take_add_one, hu, List.filterMap_append, htake, List.take_add_one, ← hp, hg]
    rfl
  rw [← hglyphs, ← hv, ← List.map_take]
  exact glyphs_sublist _

/-- Whether the glyph is a reference of its author.  Only for these it matters
which of two equal characters is kept. -/
def isReference : Glyph → Bool
  | .plain _ => false
  | .reference _ _ => true

/-- The two accounts keep the same references in the same places. -/
def SameReferences (u u' : List Stroke) : Prop :=
  ∀ (k : Nat) (g : Glyph), isReference g = true → (u[k]? = some (.kept g) ↔ u'[k]? = some (.kept g))

/-- The glyphs up to the one with index `j` are found before place `k`.  A
greedy account puts the glyph before `k` in this case. -/
def Early (p : Spelling) (v : Text) (j k : Nat) : Prop :=
  (Spelling.decoded (p.take (j + 1))).Sublist (v.take k)

instance (p : Spelling) (v : Text) (j k : Nat) : Decidable (Early p v j k) :=
  inferInstanceAs (Decidable (List.Sublist _ _))

end Strokes

/-! ## §2. Two accounts of a text. -/

section Accounts

variable {p : Spelling} {v : Text} {u : List Stroke}

/-- A spelling of which some account of the text is made is found in the text. -/
theorem sublist_of_account (hp : u.filterMap Stroke.glyph? = p) (hv : u.map Stroke.char = v) :
    p.decoded.Sublist v := by
  rw [← hp, ← hv]
  exact glyphs_sublist u

/-- The writer finds a glyph in its place exactly if it does not find it too
early. -/
theorem place_strokes_iff (hp : u.filterMap Stroke.glyph? = p) (hv : u.map Stroke.char = v)
    {j k : Nat} (h : (Stroke.places u)[j]? = some k) :
    (Stroke.places (p.strokes v))[j]? = some k ↔ ¬ Early p v j k := by
  have hfound := sublist_of_account hp hv
  -- the writer finds the glyph, at some place `i`
  have hlength : j < p.length := by
    rw [← hp, ← Stroke.length_places]
    exact (List.getElem?_eq_some_iff.1 h).1
  obtain ⟨i, hi⟩ : ∃ i, (Stroke.places (p.strokes v))[j]? = some i := by
    rw [← Spelling.length_places_strokes hfound] at hlength
    exact ⟨_, List.getElem?_eq_getElem hlength⟩
  have hle : i < k + 1 := (Spelling.sublist_take_iff hi (k + 1)).1 (take_sublist_of_place hp hv h)
  have hearly : Early p v j k ↔ i < k := Spelling.sublist_take_iff hi k
  rw [hi, hearly, Option.some.injEq]
  omega

/-- A glyph that is not found early is kept where it is. -/
theorem strokes_of_not_early (hp : u.filterMap Stroke.glyph? = p) (hv : u.map Stroke.char = v)
    {j k : Nat} {g : Glyph} (h : (Stroke.places u)[j]? = some k) (hg : p[j]? = some g)
    (hearly : ¬ Early p v j k) : (p.strokes v)[k]? = some (.kept g) := by
  obtain ⟨-, g', hu, hg'⟩ := Stroke.take_of_place ((place_strokes_iff hp hv h).2 hearly)
  rw [Spelling.filterMap_glyph?_strokes (sublist_of_account hp hv), hg] at hg'
  cases hg'
  exact hu

/-- A character that is not inserted is not found early. -/
theorem not_early_of_foreign (hp : u.filterMap Stroke.glyph? = p) (hv : u.map Stroke.char = v)
    (hadded : ∀ c, Stroke.added c ∈ u → Insertable c) {j k : Nat} {g : Glyph}
    (hg : p[j]? = some g) (hforeign : ¬ Insertable g.char)
    (h : (Stroke.places u)[j]? = some k) : ¬ Early p v j k := by
  intro hearly
  -- before its place the text has the character as often as the glyphs before it
  have hbefore : (v.take k).count g.char = (Spelling.decoded (p.take j)).count g.char := by
    rw [← hv, ← List.map_take, count_char, (Stroke.take_of_place h).1, hp]
    rintro d hd rfl
    exact hforeign (hadded _ (List.mem_of_mem_take hd))
  have hcount := hearly.count_le g.char
  rw [hbefore, List.take_add_one, hg, decoded_append, List.count_append] at hcount
  have hone : (Spelling.decoded (some g).toList).count g.char = 1 := by
    show [g.char].count g.char = 1
    rw [List.count_singleton_self]
  omega

/-- If no reference is found early, the writer leaves all of them in place. -/
theorem sameReferences_of_not_early (hp : u.filterMap Stroke.glyph? = p)
    (hv : u.map Stroke.char = v)
    (h : ∀ j k g, (Stroke.places u)[j]? = some k → p[j]? = some g → isReference g = true →
      ¬ Early p v j k) : SameReferences (p.strokes v) u := by
  have hfound := sublist_of_account hp hv
  intro k g hreference
  constructor
  · intro hk
    obtain ⟨j, hj, hg⟩ := Stroke.exists_place hk
    rw [Spelling.filterMap_glyph?_strokes hfound] at hg
    -- the same reference has a place in the other account, which is this one
    have hlength : j < (Stroke.places u).length := by
      rw [Stroke.length_places, hp]
      exact (List.getElem?_eq_some_iff.1 hg).1
    have hi := List.getElem?_eq_getElem hlength
    have hsame := (place_strokes_iff hp hv hi).2 (h j _ g hi hg hreference)
    rw [hj] at hsame
    obtain ⟨-, g', hu, hg'⟩ := Stroke.take_of_place hi
    rw [hp, hg] at hg'
    cases hg'
    rw [Option.some.inj hsame]
    exact hu
  · intro hk
    obtain ⟨j, hj, hg⟩ := Stroke.exists_place hk
    rw [hp] at hg
    exact strokes_of_not_early hp hv hj hg (h j k g hj hg hreference)

/-- A glyph whose character is not inserted is kept where it is. -/
theorem strokes_of_foreign (hp : u.filterMap Stroke.glyph? = p) (hv : u.map Stroke.char = v)
    (hadded : ∀ c, Stroke.added c ∈ u → Insertable c) {k : Nat} {g : Glyph}
    (hforeign : ¬ Insertable g.char) (hk : u[k]? = some (.kept g)) :
    (p.strokes v)[k]? = some (.kept g) := by
  obtain ⟨j, hj, hg⟩ := Stroke.exists_place hk
  rw [hp] at hg
  exact strokes_of_not_early hp hv hj hg (not_early_of_foreign hp hv hadded hg hforeign hj)

/-- A character that can be inserted is written as itself, unless it is a
reference. -/
theorem write_of_insertable (quote : Option Char) {s : Stroke} (h : Insertable s.char)
    (hplain : ∀ g, isReference g = true → s ≠ .kept g) : s.write quote = [s.char] := by
  cases s with
  | kept g =>
    cases g with
    | plain c => rfl
    | reference raw c => exact absurd rfl (hplain _ rfl)
  | added c =>
    show Spelling.escape quote c = [c]
    rw [← Spelling.raw_escapeGlyph, escapeGlyph_of_insertable quote c h, Glyph.raw]

/-- If both accounts keep the same references, they write the same. -/
theorem flatMap_write_eq (quote : Option Char) (hp : u.filterMap Stroke.glyph? = p)
    (hv : u.map Stroke.char = v) (hadded : ∀ c, Stroke.added c ∈ u → Insertable c)
    (h : SameReferences (p.strokes v) u) :
    (p.strokes v).flatMap (Stroke.write quote) = u.flatMap (Stroke.write quote) := by
  suffices hmap : (p.strokes v).map (Stroke.write quote) = u.map (Stroke.write quote) by
    rw [List.flatMap_def, hmap, ← List.flatMap_def]
  refine List.ext_getElem? fun k => ?_
  have hchar : (p.strokes v)[k]?.map Stroke.char = u[k]?.map Stroke.char := by
    rw [← List.getElem?_map, ← List.getElem?_map, Spelling.map_char_strokes, hv]
  rw [List.getElem?_map, List.getElem?_map]
  cases hb : u[k]? with
  | none =>
    rw [hb] at hchar
    rw [Option.map_eq_none_iff.1 hchar]
  | some b =>
    rw [hb] at hchar
    obtain ⟨a, ha, hab⟩ := Option.map_eq_some_iff.1 hchar
    rw [ha]
    by_cases hinsertable : Insertable b.char
    · by_cases hreference : ∃ g, isReference g = true ∧ (a = .kept g ∨ b = .kept g)
      · -- a reference of the one account is a reference of the other
        obtain ⟨g, hg, rfl | rfl⟩ := hreference
        · rw [(h k g hg).1 ha] at hb
          rw [← Option.some.inj hb]
        · rw [(h k g hg).2 hb] at ha
          rw [← Option.some.inj ha]
      · show some (a.write quote) = some (b.write quote)
        rw [write_of_insertable quote (hab ▸ hinsertable)
            fun g hg heq => hreference ⟨g, hg, Or.inl heq⟩,
          write_of_insertable quote hinsertable fun g hg heq => hreference ⟨g, hg, Or.inr heq⟩, hab]
    · cases b with
      | added c => exact absurd (hadded c (List.mem_of_getElem? hb)) hinsertable
      | kept g =>
        rw [strokes_of_foreign hp hv hadded hinsertable hb] at ha
        rw [← Option.some.inj ha]

end Accounts

/-! ## §3. What qualifying knows. -/

/-- The glyphs of a value where its strands leave them, and the insertions of
the strands as new characters. -/
def weave : List Strand → Spelling → List Stroke
  | [], _ => []
  | s :: w, p =>
    s.leading.map .added ++ ((p.take s.own.length).map .kept ++
      (s.trailing.map .added ++ weave w (p.drop s.own.length)))

theorem map_char_added (t : Text) : (t.map Stroke.added).map Stroke.char = t := by
  rw [List.map_map]
  exact List.map_id t

theorem map_char_kept (p : Spelling) : (p.map Stroke.kept).map Stroke.char = p.decoded := by
  rw [List.map_map]
  rfl

theorem filterMap_glyph?_kept (p : Spelling) : (p.map Stroke.kept).filterMap Stroke.glyph? = p := by
  rw [List.filterMap_map]
  exact List.filterMap_some

/-- The first strand takes its characters off the value. -/
theorem decoded_of_old_cons {s : Strand} {w : List Strand} {p : Spelling}
    (h : Strand.old (s :: w) = p.decoded) :
    Spelling.decoded (p.take s.own.length) = s.own ∧
      Strand.old w = Spelling.decoded (p.drop s.own.length) := by
  rw [Strand.old_cons] at h
  constructor
  · rw [Spelling.decoded, List.map_take, ← Spelling.decoded, ← h, List.take_left]
  · rw [Spelling.decoded, List.map_drop, ← Spelling.decoded, ← h, List.drop_left]

/-- The woven strokes stand for the qualified text. -/
theorem map_char_weave {w : List Strand} {p : Spelling} (h : Strand.old w = p.decoded) :
    (weave w p).map Stroke.char = Strand.new w := by
  induction w generalizing p with
  | nil => rfl
  | cons s w ih =>
    obtain ⟨hown, hrest⟩ := decoded_of_old_cons h
    simp only [weave, List.map_append, map_char_added, map_char_kept, hown, ih hrest]
    rw [Strand.new_cons, Strand.render, List.append_assoc, List.append_assoc]

/-- The woven strokes keep every glyph of the value. -/
theorem filterMap_glyph?_weave {w : List Strand} {p : Spelling} (h : Strand.old w = p.decoded) :
    (weave w p).filterMap Stroke.glyph? = p := by
  induction w generalizing p with
  | nil => exact (List.map_eq_nil_iff.1 h.symm).symm
  | cons s w ih =>
    obtain ⟨-, hrest⟩ := decoded_of_old_cons h
    simp only [weave, List.filterMap_append, Stroke.filterMap_glyph?_added, filterMap_glyph?_kept,
      ih hrest, List.nil_append, List.take_append_drop]

/-- What is new among the woven strokes was inserted by a strand. -/
theorem mem_of_added_mem_weave {w : List Strand} {p : Spelling} {c : Char}
    (h : Stroke.added c ∈ weave w p) : ∃ s ∈ w, c ∈ s.leading ++ s.trailing := by
  induction w generalizing p with
  | nil => cases h
  | cons s w ih =>
    have hadded : ∀ t : Text, Stroke.added c ∈ t.map Stroke.added → c ∈ t := by
      intro t ht
      obtain ⟨d, hd, heq⟩ := List.mem_map.1 ht
      cases heq
      exact hd
    -- the receiver, the kept characters, what is appended, and the strands behind
    rcases List.mem_append.1 h with h | h
    · exact ⟨s, List.mem_cons_self, List.mem_append_left _ (hadded _ h)⟩
    rcases List.mem_append.1 h with h | h
    · obtain ⟨g, -, heq⟩ := List.mem_map.1 h
      cases heq
    rcases List.mem_append.1 h with h | h
    · exact ⟨s, List.mem_cons_self, List.mem_append_right _ (hadded _ h)⟩
    · obtain ⟨r, hr, hc⟩ := ih h
      exact ⟨r, List.mem_cons_of_mem s hr, hc⟩

/-- Words, a period, a colon and a blank are all that qualifying inserts. -/
theorem insertable_of_strands {bound : NameSet} {expr : Text} {w : List Strand}
    (h : strands bound expr = some w) :
    ∀ s ∈ w, ∀ c ∈ s.leading ++ s.trailing, Insertable c := by
  refine forall_of_strands (P := fun s => ∀ c ∈ s.leading ++ s.trailing, Insertable c) ?_ ?_ ?_ h
  · intro c d hd
    cases hd
  · intro t d hd
    cases hd
  · intro t v hspelled hkind
    cases v with
    | keep =>
      intro d hd
      cases hd
    | member =>
      intro d hd
      rcases List.mem_append.1 hd with hd | hd
      · exact insertable_receiverMark d hd
      · cases hd
    | property =>
      -- the name that is repeated is a word
      obtain ⟨c, v, htext, hc, hv, -⟩ := hspelled.symbol hkind
      have hname : ∀ d ∈ t.text, isIdentifierPart d = true := by
        rw [htext]
        exact List.forall_mem_cons.2 ⟨isIdentifierPart_of_isIdentifierStart hc, hv⟩
      show ∀ d ∈ ':' :: ' ' :: (receiverMark ++ t.text), Insertable d
      refine List.forall_mem_cons.2 ⟨Or.inr (Or.inr (Or.inl rfl)), ?_⟩
      refine List.forall_mem_cons.2 ⟨Or.inr (Or.inr (Or.inr rfl)), ?_⟩
      exact List.forall_mem_append.2 ⟨insertable_receiverMark, fun d hd => Or.inl (hname d hd)⟩

/-! ## §4. Values. -/

/-- **When the references of a qualified value stay on their characters.**  The
value is the text of its strands, and the writer leaves a glyph in the place
that they give it exactly if the glyphs up to it are not found in the text
before.  They never are if its character cannot be inserted.  If they are not
for any reference, then the references are kept where they are and nowhere
else, and the value is written as the strands say. -/
theorem references_stay {bound : NameSet} {p : Spelling} {v : Text} (quote : Option Char)
    (h : (qualify bound p.decoded).outcome = .ok v) :
    ∃ w, strands bound p.decoded = some w ∧
      (weave w p).map Stroke.char = v ∧ (weave w p).filterMap Stroke.glyph? = p ∧
      p.encode v quote = (p.strokes v).flatMap (Stroke.write quote) ∧
      (∀ j k, (Stroke.places (weave w p))[j]? = some k →
        ((Stroke.places (p.strokes v))[j]? = some k ↔ ¬ Early p v j k)) ∧
      (∀ j k g, (Stroke.places (weave w p))[j]? = some k → p[j]? = some g → ¬ Insertable g.char →
        ¬ Early p v j k) ∧
      ((∀ j k g, (Stroke.places (weave w p))[j]? = some k → p[j]? = some g → isReference g = true →
          ¬ Early p v j k) →
        SameReferences (p.strokes v) (weave w p) ∧
          p.encode v quote = (weave w p).flatMap (Stroke.write quote)) := by
  obtain ⟨w, hw, rfl⟩ := exists_strands h
  have hold := old_of_strands hw
  have hv := map_char_weave hold
  have hp := filterMap_glyph?_weave hold
  have hadded : ∀ c, Stroke.added c ∈ weave w p → Insertable c := by
    intro c hc
    obtain ⟨s, hs, hmem⟩ := mem_of_added_mem_weave hc
    exact insertable_of_strands hw s hs c hmem
  have hencode := Spelling.encode_of_sublist quote (sublist_of_account hp hv)
  refine ⟨w, hw, hv, hp, hencode, fun j k hk => place_strokes_iff hp hv hk,
    fun j k g hk hg hforeign => not_early_of_foreign hp hv hadded hg hforeign hk, fun hearly => ?_⟩
  -- with no early place the greedy account and the author's account keep the same
  -- references
  have hsame := sameReferences_of_not_early hp hv hearly
  exact ⟨hsame, hencode.trans (flatMap_write_eq quote hp hv hadded hsame)⟩

/-- References that stay: one of markup, and one to a character that is
inserted, but stands where the glyphs before it leave no room for it. -/
theorem references_stay_sample :
    let p : Spelling := [.plain 'x', .plain ' ', .reference "&lt;".toList '<', .plain ' ',
      .plain '\'', .reference "&#116;".toList 't', .plain '\'']
    let v : Text := "this.x < 't'".toList
    let w : List Strand := [.member ['x'], .kept ⟨.blank, [' ']⟩, .kept ⟨.operator, ['<']⟩,
      .kept ⟨.blank, [' ']⟩, .kept ⟨.value, ['\'', 't', '\'']⟩]
    (qualify ∅ p.decoded).outcome = .ok v ∧ strands ∅ p.decoded = some w ∧
      SameReferences (p.strokes v) (weave w p) ∧
      p.encode v (some '"') = "this.x &lt; '&#116;'".toList := by
  intro p v w
  have h : (qualify ∅ p.decoded).outcome = .ok v := by decide +kernel
  have hstrands : strands ∅ p.decoded = some w := by decide +kernel
  obtain ⟨w', hw', -, -, -, -, -, hstay⟩ := references_stay (some '"') h
  obtain rfl : w = w' := Option.some.inj (hstrands.symm.trans hw')
  -- what stands in front of the reference to `t` is found only behind the quote, where the
  -- inserted `t` has passed
  have hlate : ∀ j < 7, ∀ k ∈ (Stroke.places (weave w p))[j]?, ∀ g ∈ p[j]?, isReference g = true →
      ¬ Early p v j k := by
    decide
  obtain ⟨hsame, hencode⟩ := hstay fun j k g hk hg hreference =>
    hlate j (List.getElem?_eq_some_iff.1 hg).1 k hk g hg hreference
  exact ⟨h, hstrands, hsame, hencode.trans (by decide)⟩

/-- A reference to a letter of `this.` moves into the insertion. -/
theorem reference_strays :
    let p : Spelling := [.reference "&#116;".toList 't']
    (qualify ∅ p.decoded).outcome = .ok "this.t".toList ∧
    p.encode "this.t".toList (some '"') = "&#116;his.t".toList ∧
    ¬ ∀ (bound : NameSet) (p : Spelling) (v : Text) (w : List Strand),
      (qualify bound p.decoded).outcome = .ok v → strands bound p.decoded = some w →
        SameReferences (p.strokes v) (weave w p) := by
  intro p
  have h : (qualify ∅ p.decoded).outcome = .ok "this.t".toList := by decide +kernel
  have hw : strands ∅ p.decoded = some [.member ['t']] := by decide +kernel
  refine ⟨h, by decide, fun hall => ?_⟩
  have hfirst := (hall ∅ p _ _ h hw 0 (.reference "&#116;".toList 't') rfl).1 rfl
  exact absurd hfirst (by decide)

end QwebReceiver.Template
