import QwebReceiver.Proofs.Markup.Respell

/-!
  QwebReceiver.Proofs.Markup.Alignment — what the writer of an edited value
  keeps.

  The writer goes through the value once and never steps back.  Its decisions
  are the `strokes` of the value along the spelling: a character is the next
  glyph of the spelling, or it is new.

    * `filterMap_glyph?_strokes` — if there is any way to find the spelling in
      the value, the single pass finds one, and every glyph is kept once;
    * `aligned_of_sublist`, `aligned_of_not_sublist` — what is written then,
      and that else the spelling is given up;
    * `sublist_take_iff` — the pass finds each glyph as early as it can be
      found at all.

  Together: `encode_greedy`.
-/

namespace QwebReceiver.Markup

/-! ## §1. Strokes. -/

/-- A character of an edited value as it is written: with a glyph of the
spelling, or new. -/
inductive Stroke where
  | kept (g : Glyph)
  | added (c : Char)
  deriving Repr, DecidableEq

namespace Stroke

/-- The character meant. -/
def char : Stroke → Char
  | .kept g => g.char
  | .added c => c

/-- The glyph of the spelling, if it is one.  Left out of the list of strokes,
these give back the old spelling. -/
def glyph? : Stroke → Option Glyph
  | .kept g => some g
  | .added _ => none

/-- The new character, if it is one, which is written as it is escaped. -/
def added? : Stroke → Option Char
  | .kept _ => none
  | .added c => some c

/-- The characters written: a glyph as its author wrote it, a new character
escaped. -/
def write (quote : Option Char) : Stroke → Text
  | .kept g => g.raw
  | .added c => Spelling.escape quote c

/-- A stroke is a glyph of the spelling or a new character. -/
theorem length_glyphs_add_length_added (w : List Stroke) :
    (w.filterMap glyph?).length + (w.filterMap added?).length = w.length := by
  induction w with
  | nil => rfl
  | cons s w ih =>
    cases s with
    | kept g =>
      show (w.filterMap glyph?).length + 1 + (w.filterMap added?).length = w.length + 1
      omega
    | added c =>
      show (w.filterMap glyph?).length + ((w.filterMap added?).length + 1) = w.length + 1
      omega

theorem filterMap_glyph?_added (v : Text) : (v.map added).filterMap glyph? = [] := by
  rw [List.filterMap_map]
  exact List.filterMap_eq_nil_iff.2 fun _ _ => rfl

/-- The places of the kept glyphs among the strokes, that is in the value, in
their order. -/
def places : List Stroke → List Nat
  | [] => []
  | .kept _ :: w => 0 :: (places w).map (· + 1)
  | .added _ :: w => (places w).map (· + 1)

/-- There are as many places as glyphs that were kept. -/
theorem length_places (w : List Stroke) : (places w).length = (w.filterMap glyph?).length := by
  induction w with
  | nil => rfl
  | cons s w ih =>
    cases s with
    | kept g =>
      show ((places w).map (· + 1)).length + 1 = (w.filterMap glyph?).length + 1
      rw [List.length_map, ih]
    | added c =>
      show ((places w).map (· + 1)).length = (w.filterMap glyph?).length
      rw [List.length_map, ih]

theorem places_added (v : Text) : places (v.map added) = [] := by
  refine List.eq_nil_of_length_eq_zero ?_
  rw [length_places, filterMap_glyph?_added]
  rfl

/-- A number among some that were raised by one is one more than one of these. -/
theorem exists_of_shifted {ks : List Nat} {j k : Nat} (h : (ks.map (· + 1))[j]? = some k) :
    ∃ k', ks[j]? = some k' ∧ k' + 1 = k := by
  rw [List.getElem?_map] at h
  exact Option.map_eq_some_iff.1 h

/-- Before the place of a glyph stand the glyphs before it, and new characters. -/
theorem take_of_place {w : List Stroke} {j k : Nat} (h : (places w)[j]? = some k) :
    (w.take k).filterMap glyph? = (w.filterMap glyph?).take j ∧
      ∃ g, w[k]? = some (.kept g) ∧ (w.filterMap glyph?)[j]? = some g := by
  induction w generalizing j k with
  | nil => cases h
  | cons s w ih =>
    cases s with
    | kept g =>
      cases j with
      | zero =>
        obtain rfl : 0 = k := Option.some.inj h
        exact ⟨rfl, g, rfl, rfl⟩
      | succ j =>
        obtain ⟨k', hk, rfl⟩ := exists_of_shifted h
        obtain ⟨htake, g', hw, hg⟩ := ih hk
        exact ⟨congrArg (g :: ·) htake, g', hw, hg⟩
    -- an added character shifts the place of every glyph behind it by one
    | added c =>
      obtain ⟨k', hk, rfl⟩ := exists_of_shifted h
      exact ih hk

/-- Every kept glyph has a place. -/
theorem exists_place {w : List Stroke} {k : Nat} {g : Glyph} (h : w[k]? = some (.kept g)) :
    ∃ j : Nat, (places w)[j]? = some k ∧ (w.filterMap glyph?)[j]? = some g := by
  induction w generalizing k with
  | nil => cases h
  | cons s w ih =>
    cases k with
    | zero =>
      cases h
      exact ⟨0, rfl, rfl⟩
    | succ k =>
      obtain ⟨j, hk, hg⟩ := ih h
      -- whatever stands in front, what follows lies one place further
      have hshift : ((places w).map (· + 1))[j]? = some (k + 1) := by
        rw [List.getElem?_map, hk]
        rfl
      cases s with
      | kept _ => exact ⟨j + 1, hshift, hg⟩
      | added _ => exact ⟨j, hshift, hg⟩

end Stroke

namespace Spelling

/-- The strokes of a value along a spelling: the first character that can be the
next glyph is taken for it, and it is not asked whether that glyph will be
missed later. -/
def strokes : Spelling → Text → List Stroke
  | _, [] => []
  | [], c :: r => .added c :: strokes [] r
  | g :: s, c :: r =>
    if g.char = c then .kept g :: strokes s r else .added c :: strokes (g :: s) r

variable {s : Spelling} {v : Text} {quote : Option Char}

/-- Along an empty spelling every character is new. -/
theorem strokes_nil (v : Text) : strokes [] v = v.map .added := by
  induction v with
  | nil => rfl
  | cons c r ih =>
    rw [strokes, ih]
    rfl

/-- The strokes of a value stand for the value, whatever the spelling. -/
theorem map_char_strokes (s : Spelling) (v : Text) : (s.strokes v).map Stroke.char = v := by
  fun_induction strokes s v with
  | case1 => rfl
  | case2 c r ih =>
    show c :: (strokes [] r).map Stroke.char = c :: r
    rw [ih]
  | case3 g s r ih =>
    show g.char :: (strokes s r).map Stroke.char = g.char :: r
    rw [ih]
  | case4 g s c r _ ih =>
    show c :: (strokes (g :: s) r).map Stroke.char = c :: r
    rw [ih]

theorem decoded_cons (g : Glyph) (s : Spelling) : decoded (g :: s) = g.char :: decoded s := rfl

theorem length_decoded (s : Spelling) : s.decoded.length = s.length := List.length_map _

/-! ## §2. The pass finds the spelling wherever it can be found. -/

/-- A glyph is passed by at a character that it cannot be. -/
theorem cons_sublist_iff_of_ne {g : Glyph} {c : Char} {r : Text} (hne : g.char ≠ c) :
    (decoded (g :: s)).Sublist (c :: r) ↔ (decoded (g :: s)).Sublist r := by
  refine ⟨fun h => ?_, fun h => h.cons c⟩
  rcases List.sublist_cons_iff.1 h with h | ⟨t, ht, -⟩
  · exact h
  · exact absurd (List.cons.inj ht).1 hne

/-- Every glyph of the spelling is kept once and in its order, if the spelling
can be found at all. -/
theorem filterMap_glyph?_strokes (h : s.decoded.Sublist v) :
    (s.strokes v).filterMap Stroke.glyph? = s := by
  fun_induction strokes s v with
  | case1 s => exact (List.map_eq_nil_iff.1 (List.sublist_nil.1 h)).symm
  | case2 c r _ =>
    rw [strokes_nil]
    exact Stroke.filterMap_glyph?_added (c :: r)
  | case3 g s r ih =>
    -- if some alignment takes a later character for the glyph, this one may be
    -- taken instead: what follows the later one also follows this one
    have hrest : (decoded s).Sublist r := List.cons_sublist_cons.1 h
    show g :: (strokes s r).filterMap Stroke.glyph? = g :: s
    rw [ih hrest]
  | case4 g s c r hne ih => exact ih ((cons_sublist_iff_of_ne hne).1 h)

/-- A spelling that is found in the value is followed to its end. -/
theorem aligned_of_sublist (quote : Option Char) (h : s.decoded.Sublist v) :
    aligned quote s v = some ((s.strokes v).flatMap (Stroke.write quote)) := by
  fun_induction aligned quote s v with
  | case1 => rfl
  | case2 g s => cases h
  | case3 c r ih =>
    rw [ih (List.nil_sublist r)]
    rfl
  | case4 g s r ih =>
    rw [ih (List.cons_sublist_cons.1 h), strokes, if_pos rfl]
    rfl
  | case5 g s c r hne ih =>
    rw [ih ((cons_sublist_iff_of_ne hne).1 h), strokes, if_neg hne]
    rfl

/-- A spelling that is not found in the value is given up. -/
theorem aligned_of_not_sublist (quote : Option Char) (h : ¬ s.decoded.Sublist v) :
    aligned quote s v = none := by
  fun_induction aligned quote s v with
  | case1 => exact absurd (List.Sublist.refl []) h
  | case2 g s => rfl
  | case3 c r ih => exact absurd (List.nil_sublist (c :: r)) h
  | case4 g s r ih =>
    rw [ih fun hrest => h (List.cons_sublist_cons.2 hrest)]
    rfl
  | case5 g s c r hne ih =>
    rw [ih fun hrest => h ((cons_sublist_iff_of_ne hne).2 hrest)]
    rfl

/-- A spelling that is found in the value is followed, stroke by stroke. -/
theorem encode_of_sublist (quote : Option Char) (h : s.decoded.Sublist v) :
    s.encode v quote = (s.strokes v).flatMap (Stroke.write quote) := by
  rw [encode, aligned_of_sublist quote h]
  rfl

/-- Where the spelling is not found, no glyph of it is used: every character of
the value is escaped. -/
theorem encode_of_not_sublist (quote : Option Char) (h : ¬ s.decoded.Sublist v) :
    s.encode v quote = v.flatMap (escape quote) := by
  rw [encode, aligned_of_not_sublist quote h]
  rfl

/-- A value that did not change is written as it stood in the source. -/
theorem encode_decoded (s : Spelling) (quote : Option Char) : s.encode s.decoded quote = s.raw := by
  rw [← raw_respell, respell_decoded]

/-! ## §3. The pass finds every glyph as early as it can be found. -/

/-- A spelling that is found in the value has a place for each of its glyphs. -/
theorem length_places_strokes (h : s.decoded.Sublist v) :
    (Stroke.places (s.strokes v)).length = s.length := by
  rw [Stroke.length_places, filterMap_glyph?_strokes h]

/-- The glyphs up to the one kept at place `k` are found in the first `n`
characters exactly if these go past `k`. -/
theorem sublist_take_iff {j k : Nat} (h : (Stroke.places (s.strokes v))[j]? = some k) (n : Nat) :
    (decoded (s.take (j + 1))).Sublist (v.take n) ↔ k < n := by
  -- a glyph is aligned with the first character that it means, so a match of
  -- the glyphs up to `j` that ends earlier would have been taken
  fun_induction strokes s v generalizing j k n with
  | case1 s => cases h
  | case2 c r _ =>
    rw [strokes_nil, ← List.map_cons (f := Stroke.added), Stroke.places_added] at h
    cases h
  | case3 g s r ih =>
    rw [List.take_succ_cons, decoded_cons]
    cases n with
    | zero =>
      rw [List.take_zero, List.sublist_nil]
      exact iff_of_false (List.cons_ne_nil _ _) (Nat.not_lt_zero k)
    | succ n =>
      rw [List.take_succ_cons, List.cons_sublist_cons]
      cases j with
      | zero =>
        obtain rfl : 0 = k := Option.some.inj h
        exact iff_of_true (List.nil_sublist _) (Nat.succ_pos n)
      | succ j =>
        obtain ⟨k', hk, rfl⟩ := Stroke.exists_of_shifted h
        rw [ih hk n]
        omega
  | case4 g s c r hne ih =>
    obtain ⟨k', hk, rfl⟩ := Stroke.exists_of_shifted h
    rw [List.take_succ_cons]
    cases n with
    | zero =>
      rw [List.take_zero, List.sublist_nil]
      exact iff_of_false (List.cons_ne_nil _ _) (Nat.not_lt_zero _)
    | succ n =>
      have hrest := ih hk n
      rw [List.take_succ_cons] at hrest
      rw [List.take_succ_cons, cons_sublist_iff_of_ne hne, hrest]
      omega

/-! ## §4. Writing along a spelling. -/

/-- An edited value is written along the spelling if the spelling can be found
in it, in any way: then every glyph is written once, in order and as it stood,
and the other characters are escaped, as many as the value is longer.  Else
every character is escaped.  A value that did not change is written as it
stood. -/
theorem encode_greedy (s : Spelling) (v : Text) (quote : Option Char) :
    (s.decoded.Sublist v →
      (s.strokes v).map Stroke.char = v ∧
      (s.strokes v).filterMap Stroke.glyph? = s ∧
      ((s.strokes v).filterMap Stroke.added?).length = v.length - s.decoded.length ∧
      s.encode v quote = (s.strokes v).flatMap (Stroke.write quote)) ∧
    (¬ s.decoded.Sublist v → s.encode v quote = v.flatMap (escape quote)) ∧
    s.encode s.decoded quote = s.raw := by
  refine ⟨fun h => ?_, encode_of_not_sublist quote, encode_decoded s quote⟩
  have hglyphs := filterMap_glyph?_strokes h
  refine ⟨map_char_strokes s v, hglyphs, ?_, encode_of_sublist quote h⟩
  -- every stroke is a glyph of the old spelling or an added character, so the new ones
  -- are as many as the value is longer
  have hcount := Stroke.length_glyphs_add_length_added (s.strokes v)
  have hlength := congrArg List.length (map_char_strokes s v)
  rw [hglyphs] at hcount
  rw [List.length_map] at hlength
  rw [length_decoded]
  omega

/-- A spelling whose first glyph is taken at an inserted character, and one
that is not found. -/
theorem encode_greedy_sample :
    let s : Spelling := [.reference "&#116;".toList 't', .plain '<', .reference "&amp;".toList '&']
    let v : Text := "this.t<\"&&".toList
    (s.decoded.Sublist v ∧
      (s.strokes v).filterMap Stroke.glyph? = s ∧
      ((s.strokes v).filterMap Stroke.added?).length = 7 ∧
      s.encode v (some '"') = "&#116;his.t<&quot;&amp;&amp;".toList) ∧
    (¬ s.decoded.Sublist "t&".toList ∧ s.encode "t&".toList none = "t&amp;".toList) ∧
    s.encode s.decoded none = "&#116;<&amp;".toList := by
  intro s v
  have hfound : s.decoded.Sublist v := by decide
  have hlost : ¬ s.decoded.Sublist "t&".toList := by decide
  obtain ⟨hsome, -, hsame⟩ := encode_greedy s v (some '"')
  obtain ⟨-, hglyphs, hcount, hencode⟩ := hsome hfound
  refine ⟨⟨hfound, hglyphs, hcount, hencode⟩, ⟨hlost, ?_⟩, (encode_greedy s v none).2.2⟩
  exact (encode_greedy s "t&".toList none).2.1 hlost

end Spelling
end QwebReceiver.Markup
