import QwebReceiver.Proofs.Markup.Written

/-!
  QwebReceiver.Proofs.Markup.Lexeme — reading a text is writing it backwards.

  A text without nesting is a sequence of lexemes: leaves, start tags and
  closing tags.  The reader meets one lexeme at a time:

    * `scanConstruct_write` — before any text that may follow, the reader
      reads a lexeme exactly: its tokens, at its places, and no more;
    * `exists_lexeme_of_scanConstruct` — where the reader finds no problem,
      a lexeme was written;
    * `scanFrom_write`, `exists_lexemes_of_scanFrom` — the same of whole texts.
-/

namespace QwebReceiver.Markup

open QwebReceiver.Text

/-! ## §1. Lexemes. -/

/-- A leaf, a start tag or a closing tag.  A text is a list of these before it
is a tree. -/
inductive Lexeme where
  | leaf (l : Leaf)
  /-- A start tag; `empty` if it ends its element too. -/
  | opening (tag : TagForm) (empty : Bool)
  | closing (name gap : Text)
  deriving DecidableEq

/-- The tokens of a leaf at `here`.  A CDATA section is placed between its
marks, the others with them. -/
def Leaf.tokens (here : Location) : Leaf → List Token
  | .comment c => [⟨.comment c, ⟨here, here.after (commentStart ++ c ++ commentEnd)⟩⟩]
  | .cdata c => [⟨.cdata c, ⟨here.after cdataStart, (here.after cdataStart).after c⟩⟩]
  | .instruction c =>
    [⟨.instruction c, ⟨here, here.after (instructionStart ++ c ++ instructionEnd)⟩⟩]
  | .declaration c => [⟨.doctype c, ⟨here, here.after (declarationStart ++ c ++ tagEndMark)⟩⟩]
  | .text v => [⟨.text v, ⟨here, here.after v.raw⟩⟩]

namespace Lexeme

/-- The text of a lexeme. -/
def write : Lexeme → Text
  | .leaf l => l.write
  | .opening tag empty => tag.write ++ endMark empty
  | .closing name gap => writeClosing name gap

/-- The text of some lexemes. -/
def writeAll (xs : List Lexeme) : Text := xs.flatMap write

/-- The tokens of a lexeme at `here`.  A start tag gives one for its name, two
for each attribute, and one for its end. -/
def tokens (here : Location) : Lexeme → List Token
  | .leaf l => l.tokens here
  | .opening tag empty =>
    ⟨.tagStart tag.name, ⟨here, here.after ('<' :: tag.name)⟩⟩ ::
      (AttributeForm.tokensAt (here.after ('<' :: tag.name)) tag.attributes ++
        [⟨endContent empty, ⟨here.after tag.write, (here.after tag.write).after (endMark empty)⟩⟩])
  | .closing name gap => [⟨.closingTag name, ⟨here, here.after (writeClosing name gap)⟩⟩]

/-- The tokens of some lexemes from `here` on. -/
def tokensAt (here : Location) : List Lexeme → List Token
  | [] => []
  | x :: rest => x.tokens here ++ tokensAt (here.after x.write) rest

/-- The rules of a lexeme before the text `rest`.  Names of attributes may come
twice here, which only the builder reports. -/
def Valid (rest : Text) : Lexeme → Prop
  | .leaf l => l.Valid rest
  | .opening tag _ => tag.Valid
  | .closing name gap => IsName name ∧ IsBlank gap

/-- The rules of some lexemes before the text `rest`, each before what the later
ones write. -/
def ValidAll (rest : Text) : List Lexeme → Prop
  | [] => True
  | x :: more => x.Valid (writeAll more ++ rest) ∧ ValidAll rest more

end Lexeme

/-! ## §2. One lexeme. -/

/-- A word that does not hold the mark cannot reach beyond it. -/
theorem prefix_of_prefix_append_mark {w content r : Text} {mark : Char} (hw : mark ∉ w)
    (h : w <+: content ++ mark :: r) : w <+: content := by
  induction w generalizing content with
  | nil => exact List.nil_prefix
  | cons x w ih =>
    cases content with
    | nil =>
      rw [List.nil_append, List.cons_prefix_cons] at h
      exact absurd (h.1 ▸ List.mem_cons_self) hw
    | cons y content =>
      rw [List.cons_append, List.cons_prefix_cons] at h
      exact List.cons_prefix_cons.2 ⟨h.1, ih (fun hm => hw (List.mem_cons_of_mem _ hm)) h.2⟩

/-- Markup up to a mark is read as it was written. -/
theorem scanMarked_write (here : Location) {lead : Text} {mark : String} (hm : mark.toList ≠ [])
    {content : Text} (h : FirstEnd mark.toList content) (construct : Construct)
    (token : Text → TokenContent) (r : Text) :
    scanMarked ⟨here, lead ++ (content ++ (mark.toList ++ r))⟩ lead.length mark construct token =
      { tokens := [⟨token content, ⟨here, here.after (lead ++ content ++ mark.toList)⟩⟩],
        cursor := ⟨here.after (lead ++ content ++ mark.toList), r⟩, failure := none } := by
  have hlen : content.length + mark.length = (content ++ mark.toList).length := by
    rw [List.length_append, String.length_toList]
  have hstop : (⟨here.after lead, content ++ (mark.toList ++ r)⟩ : Cursor).skip
      (content.length + mark.length) = ⟨(here.after lead).after (content ++ mark.toList), r⟩ := by
    rw [hlen, ← List.append_assoc]
    exact skip_written _ (content ++ mark.toList) r
  simp only [scanMarked, skip_written, indexOf?_write hm h, hstop, List.take_left', Cursor.spanTo,
    Location.after_append]

/-- A CDATA section is read as it was written: its content ends at the first end
mark. -/
theorem scanCdata_write (here : Location) {content : Text} (h : FirstEnd cdataEnd content)
    (r : Text) :
    scanCdata ⟨here, cdataStart ++ (content ++ (cdataEnd ++ r))⟩ =
      { tokens := Leaf.tokens here (.cdata content),
        cursor := ⟨here.after (cdataStart ++ content ++ cdataEnd), r⟩, failure := none } := by
  have hbody : (⟨here, cdataStart ++ (content ++ (cdataEnd ++ r))⟩ : Cursor).skip 9 =
      ⟨here.after cdataStart, content ++ (cdataEnd ++ r)⟩ :=
    skip_written here cdataStart (content ++ (cdataEnd ++ r))
  -- the first end mark stands behind the content, as the content holds none before it
  have hindex : indexOf? "]]>" (content ++ (cdataEnd ++ r)) = some content.length :=
    indexOf?_write (by decide) h r
  have hstop : (⟨here.after cdataStart, content ++ (cdataEnd ++ r)⟩ : Cursor).skip
      (content.length + 3) = ⟨(here.after cdataStart).after (content ++ cdataEnd), r⟩ := by
    rw [show content.length + 3 = (content ++ cdataEnd).length from by simp [cdataEnd],
      ← List.append_assoc]
    exact skip_written _ (content ++ cdataEnd) r
  simp only [scanCdata, hbody, hindex, hstop, skip_written, List.take_left', Cursor.spanTo,
    Leaf.tokens, Location.after_append]

/-- A declaration is read as it was written: its end is the first `>` outside of
brackets. -/
theorem scanDoctype_write (here : Location) {content : Text} (h : ClosesAtDepthZero content)
    (r : Text) :
    scanDoctype ⟨here, declarationStart ++ (content ++ (tagEndMark ++ r))⟩ =
      { tokens := Leaf.tokens here (.declaration content),
        cursor := ⟨here.after (declarationStart ++ content ++ tagEndMark), r⟩,
        failure := none } := by
  have hbody : (⟨here, declarationStart ++ (content ++ (tagEndMark ++ r))⟩ : Cursor).skip 2 =
      ⟨here.after declarationStart, content ++ (tagEndMark ++ r)⟩ :=
    skip_written here declarationStart (content ++ (tagEndMark ++ r))
  -- the declaration ends at the first `>` outside brackets, which stands behind the
  -- content
  have hlength : doctypeLength? 0 (content ++ (tagEndMark ++ r)) = some content.length :=
    doctypeLength?_write 0 h.1 h.2 r
  have hstop : (⟨here.after declarationStart, content ++ (tagEndMark ++ r)⟩ : Cursor).skip
      (content.length + 1) = ⟨(here.after declarationStart).after (content ++ tagEndMark), r⟩ := by
    rw [show content.length + 1 = (content ++ tagEndMark).length from by simp [tagEndMark],
      ← List.append_assoc]
    exact skip_written _ (content ++ tagEndMark) r
  simp only [scanDoctype, hbody, hlength, hstop, List.take_left', Cursor.spanTo, Leaf.tokens,
    Location.after_append]

/-- A text is read as it was written, up to the markup that follows. -/
theorem scanText_write (here : Location) {value : Spelling} (hv : ∀ g ∈ value, g.Valid stopsText)
    {r : Text} (hr : StopsAt (fun c => !stopsText c) r) :
    scanText ⟨here, value.raw ++ r⟩ =
      { tokens := Leaf.tokens here (.text value), cursor := ⟨here.after value.raw, r⟩,
        failure := none } := by
  have hread : scanValue (· == '<') ⟨here, value.raw ++ r⟩ = _ :=
    scanValue_write (show stopsText '&' = false from by decide) here hv hr
  simp only [scanText, hread, Leaf.tokens, Cursor.spanTo]

/-- A start tag is read as it was written, with its attributes in order. -/
theorem scanStartTag_write (here : Location) {tag : TagForm} (h : tag.Valid) (empty : Bool)
    (r : Text) :
    scanStartTag ⟨here, tag.write ++ (endMark empty ++ r)⟩ =
      { tokens := Lexeme.tokens here (.opening tag empty),
        cursor := ⟨here.after (tag.write ++ endMark empty), r⟩, failure := none } := by
  have hsplit : tag.write ++ (endMark empty ++ r) = '<' :: (tag.name ++
      (AttributeForm.writeAll tag.attributes ++ (tag.trail ++ (endMark empty ++ r)))) := by
    simp [TagForm.write]
  have hskip : (⟨here, '<' :: (tag.name ++ (AttributeForm.writeAll tag.attributes ++ (tag.trail ++
      (endMark empty ++ r))))⟩ : Cursor).skip 1 = ⟨here.after ['<'], tag.name ++
      (AttributeForm.writeAll tag.attributes ++ (tag.trail ++ (endMark empty ++ r)))⟩ :=
    skip_written here ['<'] _
  -- neither end of a tag continues a name
  have hend : StopsAt isNamePart (endMark empty ++ r) := by
    cases empty
    · exact stopsAt_cons (c := '>') (by decide)
    · exact stopsAt_cons (c := '/') (by decide)
  have hstop : StopsAt isNamePart (AttributeForm.writeAll tag.attributes ++ (tag.trail ++
      (endMark empty ++ r))) := by
    rw [← List.append_assoc]
    exact h.maximal.append hend
  have hname := nameLength?_write (here.after ['<']) h.name hstop
  have hrest := scanTagRest_write ((here.after ['<']).after tag.name) h.attributes h.trail empty r
  rw [hsplit]
  simp only [scanStartTag, hskip, hname, skip_written, hrest, List.take_left', Cursor.spanTo,
    Lexeme.tokens, TagForm.write]
  simp only [← Location.after_append, List.cons_append, List.nil_append, List.append_assoc]

/-- A closing tag is read as it was written, with blanks behind the name. -/
theorem scanClosingTag_write (here : Location) {name gap : Text} (hn : IsName name)
    (hg : IsBlank gap) (r : Text) :
    scanClosingTag ⟨here, closingStart ++ (name ++ (gap ++ (tagEndMark ++ r)))⟩ =
      { tokens := Lexeme.tokens here (.closing name gap),
        cursor := ⟨here.after (writeClosing name gap), r⟩, failure := none } := by
  have hskip : (⟨here, closingStart ++ (name ++ (gap ++ (tagEndMark ++ r)))⟩ : Cursor).skip 2 =
      ⟨here.after closingStart, name ++ (gap ++ (tagEndMark ++ r))⟩ :=
    skip_written here closingStart (name ++ (gap ++ (tagEndMark ++ r)))
  have hend : StopsAt isNamePart (tagEndMark ++ r) := stopsAt_cons (c := '>') (by decide)
  -- the name stops at the blanks or, with none, at the `>`
  have hname := nameLength?_write (here.after closingStart) hn (hg.stopsAt.append hend)
  have hblank := skipWhile_written ((here.after closingStart).after name) hg
    (stopsAt_cons (c := '>') (r := r) (by decide))
  have hblank' : (⟨(here.after closingStart).after name, gap ++ (tagEndMark ++ r)⟩ :
      Cursor).skipWhile isBlank = _ := hblank
  have hlast : (⟨((here.after closingStart).after name).after gap, '>' :: r⟩ : Cursor).skip 1 =
      ⟨(((here.after closingStart).after name).after gap).after tagEndMark, r⟩ :=
    skip_written _ tagEndMark r
  simp only [scanClosingTag, hskip, hname, skip_written, hblank', hlast, Cursor.peek,
    List.head?_cons, if_true, List.take_left', Cursor.spanTo, Lexeme.tokens, writeClosing,
    Location.after_append]

/-- A word that starts with `<` does not stand where another character does. -/
theorem startsWith_of_ne {here : Location} {c : Char} {r : Text} (hc : c ≠ '<') (word : String)
    {ms : Text} (hw : word.toList = '<' :: ms) :
    (⟨here, c :: r⟩ : Cursor).startsWith word = false := by
  show word.toList.isPrefixOf (c :: r) = false
  rw [hw, List.isPrefixOf, beq_eq_false_iff_ne.2 (Ne.symm hc), Bool.false_and]

/-- A word that goes on after its `<` with a mark does not stand at a start tag. -/
theorem startsWith_startTag {here : Location} {name r : Text} (hn : IsName name) (word : String)
    {m : Char} {ms : Text} (hw : word.toList = '<' :: m :: ms) (hm : isNamePart m = false) :
    (⟨here, '<' :: (name ++ r)⟩ : Cursor).startsWith word = false := by
  obtain ⟨c, t, rfl, hne⟩ := hn.exists_cons_ne hm
  show word.toList.isPrefixOf ('<' :: c :: (t ++ r)) = false
  rw [hw, List.isPrefixOf, List.isPrefixOf, beq_eq_false_iff_ne.2 hne, Bool.false_and,
    Bool.and_false]

/-- The first character of a text is no `<`. -/
theorem exists_cons_of_text {value : Spelling} (hne : value ≠ [])
    (hv : ∀ g ∈ value, g.Valid stopsText) : ∃ c r, value.raw = c :: r ∧ c ≠ '<' := by
  obtain ⟨g, rest, rfl⟩ := List.exists_cons_of_ne_nil hne
  have hg := hv g List.mem_cons_self
  cases g with
  | plain c =>
    refine ⟨c, Spelling.raw rest, rfl, ?_⟩
    rintro rfl
    exact absurd hg.2 (by decide)
  | reference raw c =>
    obtain ⟨body, rfl, -⟩ := hg
    exact ⟨'&', body ++ [';'] ++ Spelling.raw rest, rfl, by decide⟩

/-- A leaf is read as it was written. -/
theorem scanConstruct_leaf (here : Location) {l : Leaf} {r : Text} (h : l.Valid r) :
    scanConstruct ⟨here, l.write ++ r⟩ =
      { tokens := l.tokens here, cursor := ⟨here.after l.write, r⟩, failure := none } := by
  cases l with
  | comment c =>
    have hsplit : Leaf.write (.comment c) ++ r = commentStart ++ (c ++ (commentEnd ++ r)) := by
      simp [Leaf.write]
    have h1 : (⟨here, commentStart ++ (c ++ (commentEnd ++ r))⟩ : Cursor).startsWith "<!--" =
        true := rfl
    rw [hsplit]
    simp only [scanConstruct, h1, if_true]
    exact scanMarked_write here (by decide) h .comment .comment r
  | cdata c =>
    have hsplit : Leaf.write (.cdata c) ++ r = cdataStart ++ (c ++ (cdataEnd ++ r)) := by
      simp [Leaf.write]
    have h1 : (⟨here, cdataStart ++ (c ++ (cdataEnd ++ r))⟩ : Cursor).startsWith "<!--" =
        false := rfl
    have h2 : (⟨here, cdataStart ++ (c ++ (cdataEnd ++ r))⟩ : Cursor).startsWith "<![CDATA[" =
        true := rfl
    rw [hsplit]
    simp only [scanConstruct, h1, h2, if_true, Bool.false_eq_true, if_false]
    exact scanCdata_write here h r
  | instruction c =>
    have hsplit : Leaf.write (.instruction c) ++ r =
        instructionStart ++ (c ++ (instructionEnd ++ r)) := by
      simp [Leaf.write]
    have hword : ∀ word, (⟨here, instructionStart ++ (c ++ (instructionEnd ++ r))⟩ :
        Cursor).startsWith word = word.toList.isPrefixOf ('<' :: '?' :: (c ++ (instructionEnd ++ r))) :=
      fun _ => rfl
    rw [hsplit]
    simp only [scanConstruct, hword, show "<!--".toList = ['<', '!', '-', '-'] from rfl,
      show "<![CDATA[".toList = ['<', '!', '[', 'C', 'D', 'A', 'T', 'A', '['] from rfl,
      show "<!".toList = ['<', '!'] from rfl, show "<?".toList = ['<', '?'] from rfl,
      List.isPrefixOf, show ('!' == '?') = false from rfl, beq_self_eq_true, Bool.true_and,
      Bool.false_and, if_true, Bool.false_eq_true, if_false]
    exact scanMarked_write here (by decide) h .instruction .instruction r
  | declaration c =>
    obtain ⟨hcomment, hcdata, hclose⟩ := h
    have hsplit : Leaf.write (.declaration c) ++ r =
        declarationStart ++ (c ++ (tagEndMark ++ r)) := by
      simp [Leaf.write]
    -- a word without `>` that starts the text starts the content
    have hnot : ∀ w : Text, '>' ∉ w → ¬ w <+: c →
        (declarationStart ++ w).isPrefixOf (declarationStart ++ (c ++ (tagEndMark ++ r))) = false := by
      intro w hw hpre
      apply Bool.eq_false_iff.2
      intro hp
      have hp' := (List.prefix_append_right_inj _).1 (List.isPrefixOf_iff_prefix.1 hp)
      exact hpre (prefix_of_prefix_append_mark hw hp')
    have h1 : (⟨here, declarationStart ++ (c ++ (tagEndMark ++ r))⟩ : Cursor).startsWith "<!--" =
        false := hnot "--".toList (by decide) hcomment
    have h2 : (⟨here, declarationStart ++ (c ++ (tagEndMark ++ r))⟩ : Cursor).startsWith
        "<![CDATA[" = false := hnot "[CDATA[".toList (by decide) hcdata
    have h3 : (⟨here, declarationStart ++ (c ++ (tagEndMark ++ r))⟩ : Cursor).startsWith "<!" =
        true := rfl
    rw [hsplit]
    simp only [scanConstruct, h1, h2, h3, if_true, Bool.false_eq_true, if_false]
    rw [scanDoctype_write here hclose r]
    rfl
  | text v =>
    obtain ⟨hne, hv, hr⟩ := h
    have hread := scanText_write here hv hr
    obtain ⟨c, t, ht, hc⟩ := exists_cons_of_text hne hv
    have hword := @startsWith_of_ne here c (t ++ r) hc
    show scanConstruct ⟨here, Spelling.raw v ++ r⟩ =
      { tokens := Leaf.tokens here (.text v), cursor := ⟨here.after (Spelling.raw v), r⟩,
        failure := none }
    rw [ht, List.cons_append] at hread ⊢
    simp only [scanConstruct, hword "<!--" rfl, hword "<![CDATA[" rfl, hword "<!" rfl,
      hword "<?" rfl, hword "</" rfl, hword "<" rfl, Bool.false_eq_true, if_false]
    exact hread

/-- A lexeme is read as it was written. -/
theorem scanConstruct_write (here : Location) {x : Lexeme} {r : Text} (h : x.Valid r) :
    scanConstruct ⟨here, x.write ++ r⟩ =
      { tokens := x.tokens here, cursor := ⟨here.after x.write, r⟩, failure := none } := by
  cases x with
  | leaf l => exact scanConstruct_leaf here h
  | opening tag empty =>
    have hread := scanStartTag_write here h empty r
    have hsplit : tag.write ++ (endMark empty ++ r) = '<' :: (tag.name ++
        (AttributeForm.writeAll tag.attributes ++ (tag.trail ++ (endMark empty ++ r)))) := by
      simp [TagForm.write]
    have hword := @startsWith_startTag here tag.name
      (AttributeForm.writeAll tag.attributes ++ (tag.trail ++ (endMark empty ++ r))) h.name
    have hlast : (⟨here, '<' :: (tag.name ++ (AttributeForm.writeAll tag.attributes ++
        (tag.trail ++ (endMark empty ++ r))))⟩ : Cursor).startsWith "<" = true := rfl
    show scanConstruct ⟨here, tag.write ++ endMark empty ++ r⟩ = _
    rw [List.append_assoc]
    rw [hsplit] at hread ⊢
    -- a name does not start with `!`, `?` or `/`, so no longer mark matches
    simp only [scanConstruct, hword "<!--" rfl (by decide), hword "<![CDATA[" rfl (by decide),
      hword "<!" rfl (by decide), hword "<?" rfl (by decide), hword "</" rfl (by decide), hlast,
      if_true, Bool.false_eq_true, if_false]
    exact hread
  | closing name gap =>
    have hsplit : Lexeme.write (.closing name gap) ++ r =
        closingStart ++ (name ++ (gap ++ (tagEndMark ++ r))) := by
      simp [Lexeme.write, writeClosing]
    have hword : ∀ word, (⟨here, closingStart ++ (name ++ (gap ++ (tagEndMark ++ r)))⟩ :
        Cursor).startsWith word =
        word.toList.isPrefixOf ('<' :: '/' :: (name ++ (gap ++ (tagEndMark ++ r)))) := fun _ => rfl
    rw [hsplit]
    -- `</` is not the start of any mark that is tried before it
    simp only [scanConstruct, hword, show "<!--".toList = ['<', '!', '-', '-'] from rfl,
      show "<![CDATA[".toList = ['<', '!', '[', 'C', 'D', 'A', 'T', 'A', '['] from rfl,
      show "<!".toList = ['<', '!'] from rfl, show "<?".toList = ['<', '?'] from rfl,
      show "</".toList = ['<', '/'] from rfl, List.isPrefixOf, show ('!' == '/') = false from rfl,
      show ('?' == '/') = false from rfl, beq_self_eq_true, Bool.true_and, Bool.false_and, if_true,
      Bool.false_eq_true, if_false]
    exact scanClosingTag_write here h.1 h.2 r

/-- Where a mark is found behind a start, markup of that kind was written. -/
theorem exists_content_of_scanMarked {here : Location} {lead t : Text} {mark : String}
    {construct : Construct} {token : Text → TokenContent}
    (h : (scanMarked ⟨here, lead ++ t⟩ lead.length mark construct token).failure = none) :
    ∃ content r, t = content ++ (mark.toList ++ r) ∧ FirstEnd mark.toList content := by
  simp only [scanMarked, skip_written] at h
  split at h
  · simp [Scan.problem] at h
  · next n hn =>
    obtain ⟨content, r, ht, -, hfirst⟩ := exists_content_of_indexOf? hn
    exact ⟨content, r, ht, hfirst⟩

/-- Where a CDATA section is read, one was written. -/
theorem exists_content_of_scanCdata {here : Location} {t : Text}
    (h : (scanCdata ⟨here, cdataStart ++ t⟩).failure = none) :
    ∃ content r, t = content ++ (cdataEnd ++ r) ∧ FirstEnd cdataEnd content := by
  have hbody : (⟨here, cdataStart ++ t⟩ : Cursor).skip 9 = ⟨here.after cdataStart, t⟩ :=
    skip_written here cdataStart t
  simp only [scanCdata, hbody] at h
  split at h
  · simp [Scan.problem] at h
  · next n hn =>
    obtain ⟨content, r, ht, -, hfirst⟩ := exists_content_of_indexOf? hn
    exact ⟨content, r, ht, hfirst⟩

/-- Where a declaration is read, one was written, and its brackets match. -/
theorem exists_content_of_scanDoctype {here : Location} {t : Text}
    (h : (scanDoctype ⟨here, declarationStart ++ t⟩).failure = none) :
    ∃ content r, t = content ++ (tagEndMark ++ r) ∧ ClosesAtDepthZero content := by
  have hbody : (⟨here, declarationStart ++ t⟩ : Cursor).skip 2 =
      ⟨here.after declarationStart, t⟩ := skip_written here declarationStart t
  simp only [scanDoctype, hbody] at h
  split at h
  · simp [Scan.problem] at h
  · next n hn =>
    obtain ⟨content, r, ht, -, hend, hin⟩ := exists_content_of_doctypeLength? hn
    exact ⟨content, r, ht, hend, hin⟩

/-- Where a start tag is read, one was written that keeps the rules. -/
theorem exists_tag_of_scanStartTag {here : Location} {t : Text}
    (h : (scanStartTag ⟨here, '<' :: t⟩).failure = none) :
    ∃ (tag : TagForm) (empty : Bool) (r : Text),
      '<' :: t = tag.write ++ (endMark empty ++ r) ∧ tag.Valid := by
  have hskip : (⟨here, '<' :: t⟩ : Cursor).skip 1 = ⟨here.after ['<'], t⟩ :=
    skip_written here ['<'] t
  simp only [scanStartTag, hskip] at h
  split at h
  · simp [Scan.unexpected] at h
  · next n hn =>
    obtain ⟨name, u, rfl, rfl, hname, hu⟩ := exists_name_of_nameLength? hn
    simp only [skip_written] at h
    obtain ⟨attributes, trail, empty, r, hattributes, htrail, hr⟩ :=
      exists_attributes_of_scanTagRest h
    obtain rfl : u = _ := hr
    refine ⟨⟨name, attributes, trail⟩, empty, r, by simp [TagForm.write], hname, ?_, hattributes,
      htrail⟩
    -- the name the scanner took was the longest one, so what follows does not continue
    -- it
    intro c hc
    apply hu c
    rw [← List.append_assoc, List.head?_append, hc]
    rfl

/-- Where a closing tag is read, one was written. -/
theorem exists_name_of_scanClosingTag {here : Location} {t : Text}
    (h : (scanClosingTag ⟨here, closingStart ++ t⟩).failure = none) :
    ∃ name gap r, t = name ++ (gap ++ (tagEndMark ++ r)) ∧ IsName name ∧ IsBlank gap := by
  have hskip : (⟨here, closingStart ++ t⟩ : Cursor).skip 2 = ⟨here.after closingStart, t⟩ :=
    skip_written here closingStart t
  simp only [scanClosingTag, hskip] at h
  split at h
  · simp [Scan.unexpected] at h
  · next n hn =>
    obtain ⟨name, u, rfl, rfl, hname, -⟩ := exists_name_of_nameLength? hn
    -- behind the name only blanks may stand before the `>`
    obtain ⟨gap, v, rfl, hgap, hv⟩ := exists_run isBlank u
    simp only [skip_written, skipWhile_written _ hgap hv] at h
    split at h
    · next hp =>
      obtain ⟨r, rfl⟩ := List.head?_eq_some_iff.1 hp
      exact ⟨name, gap, r, rfl, hname, hgap⟩
    · simp [Scan.unexpected] at h

/-- A word at the cursor splits the text. -/
theorem exists_rest_of_startsWith {here : Location} {t : Text} {word : String}
    (h : (⟨here, t⟩ : Cursor).startsWith word = true) : ∃ r, t = word.toList ++ r := by
  obtain ⟨r, hr⟩ := List.isPrefixOf_iff_prefix.1 h
  exact ⟨r, hr.symm⟩

/-- The rest of a word that does not stand at the cursor does not stand behind
its beginning. -/
theorem not_prefix_of_startsWith {here : Location} {lead w t : Text} {word : String}
    (hw : word.toList = lead ++ w) (h : ¬ (⟨here, lead ++ t⟩ : Cursor).startsWith word = true) :
    ¬ w <+: t := by
  intro hp
  apply h
  refine List.isPrefixOf_iff_prefix.2 ?_
  rw [hw]
  exact (List.prefix_append_right_inj lead).2 hp

/-- Where the reader finds no problem, a lexeme was written. -/
theorem exists_lexeme_of_scanConstruct {c : Cursor} (hc : c.rest ≠ [])
    (h : (scanConstruct c).failure = none) :
    ∃ (x : Lexeme) (r : Text), c.rest = x.write ++ r ∧ x.Valid r := by
  obtain ⟨here, t⟩ := c
  unfold scanConstruct at h
  by_cases h1 : (⟨here, t⟩ : Cursor).startsWith "<!--" = true
  · rw [if_pos h1] at h
    obtain ⟨u, rfl⟩ := exists_rest_of_startsWith h1
    obtain ⟨content, r, rfl, hfirst⟩ := exists_content_of_scanMarked h
    exact ⟨.leaf (.comment content), r, by simp [Lexeme.write, Leaf.write]; rfl, hfirst⟩
  rw [if_neg h1] at h
  by_cases h2 : (⟨here, t⟩ : Cursor).startsWith "<![CDATA[" = true
  · rw [if_pos h2] at h
    obtain ⟨u, rfl⟩ := exists_rest_of_startsWith h2
    obtain ⟨content, r, rfl, hfirst⟩ := exists_content_of_scanCdata h
    exact ⟨.leaf (.cdata content), r, by simp [Lexeme.write, Leaf.write]; rfl, hfirst⟩
  rw [if_neg h2] at h
  by_cases h3 : (⟨here, t⟩ : Cursor).startsWith "<!" = true
  · rw [if_pos h3] at h
    obtain ⟨u, rfl⟩ := exists_rest_of_startsWith h3
    have hcomment : ¬ "--".toList <+: u := not_prefix_of_startsWith rfl h1
    have hcdata : ¬ "[CDATA[".toList <+: u := not_prefix_of_startsWith rfl h2
    obtain ⟨content, r, rfl, hclose⟩ := exists_content_of_scanDoctype h
    refine ⟨.leaf (.declaration content), r, by simp [Lexeme.write, Leaf.write]; rfl, ?_, ?_, hclose⟩
    · exact fun hp => hcomment (hp.trans (List.prefix_append _ _))
    · exact fun hp => hcdata (hp.trans (List.prefix_append _ _))
  rw [if_neg h3] at h
  by_cases h4 : (⟨here, t⟩ : Cursor).startsWith "<?" = true
  · rw [if_pos h4] at h
    obtain ⟨u, rfl⟩ := exists_rest_of_startsWith h4
    obtain ⟨content, r, rfl, hfirst⟩ := exists_content_of_scanMarked h
    exact ⟨.leaf (.instruction content), r, by simp [Lexeme.write, Leaf.write]; rfl, hfirst⟩
  rw [if_neg h4] at h
  by_cases h5 : (⟨here, t⟩ : Cursor).startsWith "</" = true
  · rw [if_pos h5] at h
    obtain ⟨u, rfl⟩ := exists_rest_of_startsWith h5
    obtain ⟨name, gap, r, rfl, hname, hgap⟩ := exists_name_of_scanClosingTag h
    exact ⟨.closing name gap, r, by simp [Lexeme.write, writeClosing]; rfl, hname, hgap⟩
  rw [if_neg h5] at h
  by_cases h6 : (⟨here, t⟩ : Cursor).startsWith "<" = true
  · rw [if_pos h6] at h
    obtain ⟨u, rfl⟩ := exists_rest_of_startsWith h6
    obtain ⟨tag, empty, r, heq, htag⟩ := exists_tag_of_scanStartTag h
    exact ⟨.opening tag empty, r, by rw [Lexeme.write, List.append_assoc]; exact heq, htag⟩
  rw [if_neg h6] at h
  -- text: it is not empty, because no `<` stands at the cursor
  obtain ⟨value, r, rfl, hv, hr⟩ := exists_value_of_scanValue (failure_of_scanText h).1
  refine ⟨.leaf (.text value), r, rfl, ?_, hv, hr⟩
  rintro rfl
  obtain ⟨x, u, rfl⟩ := List.exists_cons_of_ne_nil (show r ≠ [] from hc)
  have hx : x = '<' := by simpa using hr x rfl
  subst hx
  exact h6 rfl

/-! ## §3. Whole texts. -/

/-- A lexeme is not empty. -/
theorem Lexeme.write_ne_nil {x : Lexeme} {r : Text} (h : x.Valid r) : x.write ≠ [] := by
  cases x with
  | leaf l =>
    cases l with
    | comment c => exact List.cons_ne_nil '<' _
    | cdata c => exact List.cons_ne_nil '<' _
    | instruction c => exact List.cons_ne_nil '<' _
    | declaration c => exact List.cons_ne_nil '<' _
    | text v =>
      obtain ⟨c, t, ht, -⟩ := exists_cons_of_text h.1 h.2.1
      show Spelling.raw v ≠ []
      rw [ht]
      exact List.cons_ne_nil c t
  | opening tag empty => exact List.cons_ne_nil '<' _
  | closing name gap => exact List.cons_ne_nil '<' _

/-- Past a lexeme, reading goes on. -/
theorem scanFrom_lexeme (here : Location) {x : Lexeme} {r : Text} (h : x.Valid r) :
    scanFrom ⟨here, x.write ++ r⟩ =
      { scanFrom ⟨here.after x.write, r⟩ with
        tokens := x.tokens here ++ (scanFrom ⟨here.after x.write, r⟩).tokens } := by
  have hread := scanConstruct_write here h
  have hne : x.write ++ r ≠ [] := by
    intro hnil
    exact Lexeme.write_ne_nil h (List.append_eq_nil_iff.1 hnil).1
  rw [scanFrom, dif_neg hne]
  simp only
  split
  · next hf => rw [hread] at hf; cases hf
  · simp only [hread]

/-- A text is read lexeme by lexeme. -/
theorem scanFrom_write (here : Location) {xs : List Lexeme} (h : Lexeme.ValidAll [] xs) :
    scanFrom ⟨here, Lexeme.writeAll xs⟩ =
      { tokens := Lexeme.tokensAt here xs, cursor := ⟨here.after (Lexeme.writeAll xs), []⟩,
        failure := none } := by
  induction xs generalizing here with
  | nil =>
    rw [scanFrom]
    rfl
  | cons x xs ih =>
    have hx : x.Valid (Lexeme.writeAll xs) := by
      have hx := h.1
      rwa [List.append_nil] at hx
    show scanFrom ⟨here, x.write ++ Lexeme.writeAll xs⟩ = _
    rw [scanFrom_lexeme here hx, ih (here.after x.write) h.2]
    simp only [Lexeme.tokensAt, Lexeme.writeAll, List.flatMap_cons, Location.after_append]

/-- Where the reader finds no problem, lexemes were written. -/
theorem exists_lexemes_of_scanFrom {c : Cursor} (h : (scanFrom c).failure = none) :
    ∃ xs : List Lexeme, c.rest = Lexeme.writeAll xs ∧ Lexeme.ValidAll [] xs := by
  fun_induction scanFrom c with
  | case1 c hc => exact ⟨[], hc, trivial⟩
  | case2 c hc s d hd => rw [hd] at h; cases h
  | case3 c hc s hs hlt t ih =>
    obtain ⟨x, r, hr, hx⟩ := exists_lexeme_of_scanConstruct hc hs
    have hread := scanConstruct_write c.here hx
    rw [← hr] at hread
    have hcur : s.cursor.rest = r := by
      show (scanConstruct ⟨c.here, c.rest⟩).cursor.rest = r
      rw [hread]
    obtain ⟨xs, hxs, hvalid⟩ := ih h
    rw [hcur] at hxs
    subst hxs
    exact ⟨x :: xs, hr, by rwa [List.append_nil], hvalid⟩

/-! ## §4. One text, one sequence of lexemes. -/

/-- A text starts with one run of a class: the longest one, up to a character
that is not of the class. -/
theorem run_unique {p : Char → Bool} {w w' r r' : Text} (hw : ∀ c ∈ w, p c = true)
    (hw' : ∀ c ∈ w', p c = true) (hr : StopsAt p r) (hr' : StopsAt p r') (h : w ++ r = w' ++ r') :
    w = w' ∧ r = r' := by
  have heq : w = w' := by rw [← takeWhile_run hw hr, h, takeWhile_run hw' hr']
  subst heq
  exact ⟨rfl, List.append_cancel_left h⟩

theorem AttributeForm.writeAll_cons (a : AttributeForm) (rest : List AttributeForm) :
    writeAll (a :: rest) = a.write ++ writeAll rest := rfl

/-- An attribute is spelled in one way. -/
theorem AttributeForm.write_unique {a b : AttributeForm} {r s : Text} (ha : a.Valid) (hb : b.Valid)
    (h : a.write ++ r = b.write ++ s) : a = b ∧ r = s := by
  have hsplit : ∀ (x : AttributeForm) (t : Text), x.write ++ t = x.lead ++ (x.name ++ (x.beforeSign ++
      '=' :: (x.afterSign ++ x.quote :: (x.value.raw ++ x.quote :: t)))) := by
    intro x t
    simp [AttributeForm.write, AttributeForm.opening]
  have hquote : ∀ {x : AttributeForm}, x.Valid → isBlank x.quote = false := by
    intro x hx
    rcases hx.quote with hq | hq <;> rw [hq] <;> decide
  have hsign : ∀ t : Text, StopsAt isBlank ('=' :: t) := fun t => stopsAt_cons (by decide)
  rw [hsplit, hsplit] at h
  obtain ⟨hlead, h⟩ := run_unique ha.lead hb.lead (ha.name.stopsAt _) (hb.name.stopsAt _) h
  obtain ⟨hname, h⟩ := run_unique ha.name.all hb.name.all
    (ha.beforeSign.stopsAt.append (stopsAt_cons (by decide)))
    (hb.beforeSign.stopsAt.append (stopsAt_cons (by decide))) h
  obtain ⟨hbefore, h⟩ := run_unique ha.beforeSign hb.beforeSign (hsign _) (hsign _) h
  obtain ⟨hafter, h⟩ := run_unique ha.afterSign hb.afterSign (stopsAt_cons (hquote ha))
    (stopsAt_cons (hquote hb)) (List.cons.inj h).2
  obtain ⟨hq, h⟩ := List.cons.inj h
  -- the value is what the reader reads there
  have hamp : stopsValue a.quote '&' = false := by
    rcases ha.quote with hq | hq <;> rw [hq] <;> decide
  have hread := scanValue_write hamp .origin ha.value
    (show StopsAt (fun c => !stopsValue a.quote c) (a.quote :: r) from
      stopsAt_cons (by simp [stopsValue]))
  have hread' := scanValue_write (by rw [← hq]; exact hamp) .origin hb.value
    (show StopsAt (fun c => !stopsValue b.quote c) (b.quote :: s) from
      stopsAt_cons (by simp [stopsValue]))
  rw [h, hq, hread'] at hread
  simp only [ValueScan.mk.injEq, Cursor.mk.injEq, List.cons.injEq] at hread
  obtain ⟨hvalue, ⟨-, -, hrest⟩, -⟩ := hread
  refine ⟨?_, hrest.symm⟩
  cases a
  cases b
  simp_all

/-- What ends a start tag stands at no attribute. -/
theorem not_attribute_of_end {a : AttributeForm} (ha : a.Valid) {trail r s : Text}
    (ht : IsBlank trail) (empty : Bool) : trail ++ (endMark empty ++ r) ≠ a.write ++ s := by
  intro h
  have hsplit : a.write ++ s = a.lead ++ (a.name ++ (a.beforeSign ++
      '=' :: (a.afterSign ++ a.quote :: (a.value.raw ++ a.quote :: s)))) := by
    simp [AttributeForm.write, AttributeForm.opening]
  have hend : ∃ m ms, endMark empty ++ r = m :: ms ∧ isBlank m = false ∧ isNamePart m = false := by
    cases empty
    · exact ⟨'>', r, rfl, by decide, by decide⟩
    · exact ⟨'/', '>' :: r, rfl, by decide, by decide⟩
  -- behind the same blanks one text has a mark and the other the first letter of a name
  obtain ⟨m, ms, hm, hblank, hpart⟩ := hend
  rw [hsplit, hm] at h
  obtain ⟨-, h⟩ := run_unique ht ha.lead (stopsAt_cons hblank) (ha.name.stopsAt _) h
  have hall := ha.name.all
  obtain ⟨c, t, hct, -, -⟩ := ha.name
  rw [hct, List.cons_append] at h
  rw [(List.cons.inj h).1, hall c (by rw [hct]; exact List.mem_cons_self)] at hpart
  cases hpart

/-- The rest of a start tag is spelled in one way. -/
theorem attributes_unique {as bs : List AttributeForm} (ha : ∀ a ∈ as, a.Valid)
    (hb : ∀ b ∈ bs, b.Valid) {trail trail' : Text} (ht : IsBlank trail) (ht' : IsBlank trail')
    {empty empty' : Bool} {r r' : Text}
    (h : AttributeForm.writeAll as ++ (trail ++ (endMark empty ++ r)) =
      AttributeForm.writeAll bs ++ (trail' ++ (endMark empty' ++ r'))) :
    as = bs ∧ trail = trail' ∧ empty = empty' := by
  induction as generalizing bs with
  | nil =>
    -- an attribute on one side only would start where the other side ends the tag
    cases bs with
    | nil =>
      have hstop : ∀ (e : Bool) (t : Text), StopsAt isBlank (endMark e ++ t) := by
        intro e t
        cases e
        · exact stopsAt_cons (c := '>') (by decide)
        · exact stopsAt_cons (c := '/') (by decide)
      obtain ⟨htrail, hend⟩ := run_unique ht ht' (hstop empty r) (hstop empty' r') h
      refine ⟨rfl, htrail, ?_⟩
      cases empty <;> cases empty' <;> first | rfl | (cases hend)
    | cons b bs =>
      rw [AttributeForm.writeAll_cons, List.append_assoc] at h
      exact absurd h (not_attribute_of_end (hb b List.mem_cons_self) ht empty)
  | cons a as ih =>
    cases bs with
    | nil =>
      rw [AttributeForm.writeAll_cons, List.append_assoc] at h
      exact absurd h.symm (not_attribute_of_end (ha a List.mem_cons_self) ht' empty')
    | cons b bs =>
      rw [AttributeForm.writeAll_cons, AttributeForm.writeAll_cons, List.append_assoc,
        List.append_assoc] at h
      obtain ⟨rfl, hrest⟩ := AttributeForm.write_unique (ha a List.mem_cons_self)
        (hb b List.mem_cons_self) h
      obtain ⟨rfl, hend⟩ := ih (fun x hx => ha x (List.mem_cons_of_mem _ hx))
        (fun x hx => hb x (List.mem_cons_of_mem _ hx)) hrest
      exact ⟨rfl, hend⟩

/-- A lexeme is spelled in one way. -/
theorem Lexeme.write_unique {x y : Lexeme} {r s : Text} (hx : x.Valid r) (hy : y.Valid s)
    (h : x.write ++ r = y.write ++ s) : x = y ∧ r = s := by
  have hread := scanConstruct_write .origin hx
  rw [h, scanConstruct_write .origin hy] at hread
  simp only [Scan.mk.injEq, Cursor.mk.injEq] at hread
  obtain ⟨htokens, ⟨-, rfl⟩, -⟩ := hread
  refine ⟨?_, rfl⟩
  have hwrite := List.append_cancel_right h
  -- the first token tells the kind, and for a leaf all there is
  cases x with
  | leaf l =>
    cases y with
    | leaf k =>
      cases l <;> cases k <;> simp_all [Lexeme.tokens, Leaf.tokens]
    | opening tag empty => cases l <;> simp [Lexeme.tokens, Leaf.tokens] at htokens
    | closing name gap => cases l <;> simp [Lexeme.tokens, Leaf.tokens] at htokens
  | opening tag empty =>
    cases y with
    | leaf k => cases k <;> simp [Lexeme.tokens, Leaf.tokens] at htokens
    | opening tag' empty' =>
      have hname : tag'.name = tag.name := by
        simp only [Lexeme.tokens, List.cons.injEq, Token.mk.injEq, TokenContent.tagStart.injEq]
          at htokens
        exact htokens.1.1
      have hrest : AttributeForm.writeAll tag.attributes ++ (tag.trail ++ (endMark empty ++ [])) =
          AttributeForm.writeAll tag'.attributes ++ (tag'.trail ++ (endMark empty' ++ [])) := by
        simpa [Lexeme.write, TagForm.write, hname] using hwrite
      obtain ⟨hattributes, htrail, hempty⟩ :=
        attributes_unique hx.attributes hy.attributes hx.trail hy.trail hrest
      cases tag
      cases tag'
      simp_all
    | closing name gap => simp [Lexeme.tokens] at htokens
  | closing name gap =>
    cases y with
    | leaf k => cases k <;> simp [Lexeme.tokens, Leaf.tokens] at htokens
    | opening tag empty => simp [Lexeme.tokens] at htokens
    | closing name' gap' =>
      simp only [Lexeme.tokens, List.cons.injEq, Token.mk.injEq, TokenContent.closingTag.injEq]
        at htokens
      obtain rfl := htokens.1.1
      have hgap := hwrite
      simp only [Lexeme.write, writeClosing, List.append_assoc, List.append_cancel_left_eq,
        List.append_cancel_right_eq] at hgap
      rw [hgap]

/-- A text is spelled by one sequence of lexemes, as each lexeme is told by the
text from its start on. -/
theorem Lexeme.writeAll_unique {xs ys : List Lexeme} (hx : ValidAll [] xs) (hy : ValidAll [] ys)
    (h : writeAll xs = writeAll ys) : xs = ys := by
  induction xs generalizing ys with
  | nil =>
    cases ys with
    | nil => rfl
    | cons y ys =>
      have hnil := (List.append_eq_nil_iff.1 h.symm).1
      exact absurd hnil (write_ne_nil hy.1)
  | cons x xs ih =>
    cases ys with
    | nil =>
      have hnil := (List.append_eq_nil_iff.1 h).1
      exact absurd hnil (write_ne_nil hx.1)
    | cons y ys =>
      -- the first lexemes agree by their own unique reading, the rest by the induction
      have hsplit : x.write ++ (writeAll xs ++ []) = y.write ++ (writeAll ys ++ []) := by
        rw [List.append_nil, List.append_nil]
        exact h
      obtain ⟨rfl, hrest⟩ := write_unique hx.1 hy.1 hsplit
      rw [List.append_nil, List.append_nil] at hrest
      rw [ih hx.2 hy.2 hrest]

end QwebReceiver.Markup
