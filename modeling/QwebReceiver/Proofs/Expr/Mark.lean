import QwebReceiver.Proofs.Text.CharClass
import QwebReceiver.Selector

/-!
  QwebReceiver.Proofs.Expr.Mark — the marks that qualifying leaves in a text.

  Qualifying an expression only ever inserts text, and always before an
  identifier: `this.` before a member, `x: this.` before a shorthand property
  `x`.  Such an insertion is a mark.  One text is read by several scanners (an
  expression, the interpolations in it, the clauses of a selector), and a mark
  that one of them made must not mislead the others.  Therefore a mark is
  described by the characters around it and by nothing else:

    * it does not break a word, follow a backslash, or stand in the name of a
      clause (`Clear`);
    * a shorthand property stands between `{` or `,` and `}` or `,`, as far as
      the text goes on both sides (`AtProperty`).

  A text with marks is a list of characters, each with what was inserted
  before it (`MarkedText`); `old` is the text without the insertions, `new`
  the text with them.
-/

namespace QwebReceiver.Expr

open QwebReceiver.Text

/-! ## §1. Marks. -/

/-- What is inserted before a member: the receiver and a period. -/
def receiverMark : Text := receiver ++ ['.']

/-- The word at the start of a text, which is empty if the text starts with
anything else. -/
def word (t : Text) : Text := t.takeWhile isIdentifierPart

/-- What follows the word at the start of a text. -/
def pastWord (t : Text) : Text := t.dropWhile isIdentifierPart

/-- The text read so far, nearest character first, ends where a mark can stand:
in front of a word, save the digits of a number. -/
structure Clear (before : Text) : Prop where
  digits : ∀ c ∈ before.takeWhile isIdentifierPart, isAsciiDigit c = true
  escape : before.head? ≠ some '\\'
  clause : (before.dropWhile SelectorPart.isClauseNameChar).head? ≠ some '@'

/-- The word at the start of the text is a symbol that could be a shorthand
property: no other character than a brace or a comma is its neighbour. -/
structure AtProperty (before text : Text) : Prop where
  symbol : identifierKind (word text) = .symbol
  keyword : word text ++ [' '] ∈ operators → (pastWord text).head? ≠ some ' '
  opens : ∀ c, (before.dropWhile isBlank).head? = some c → c = '{' ∨ c = ','
  closes : ∀ c, ((pastWord text).dropWhile isBlank).head? = some c → c = '}' ∨ c = ','

/-- The marks that may stand between the text read so far and the text to come:
the receiver, or the key of a shorthand property with the receiver behind it. -/
inductive IsMark (before text : Text) : Text → Prop where
  | member (h : Clear before) : IsMark before text receiverMark
  | property (h : Clear before) (hp : AtProperty before text) :
      IsMark before text (word text ++ ':' :: ' ' :: receiverMark)

/-- The characters of marks.  None of them is a quote, a bracket or markup,
which is why marks leave every delimiter where it was. -/
def Insertable (c : Char) : Prop := isIdentifierPart c = true ∨ c = '.' ∨ c = ':' ∨ c = ' '

/-- The receiver and its period are characters of marks. -/
theorem insertable_receiverMark : ∀ c ∈ receiverMark, Insertable c := by
  have hall : ∀ c ∈ receiverMark, isIdentifierPart c = true ∨ c = '.' := by decide
  intro c hc
  rcases hall c hc with h | h
  · exact Or.inl h
  · exact Or.inr (Or.inl h)

theorem mem_word {t : Text} {c : Char} (h : c ∈ word t) : isIdentifierPart c = true :=
  List.mem_takeWhile_imp h

namespace IsMark

variable {before text ins : Text}

theorem clear (h : IsMark before text ins) : Clear before := by
  cases h with
  | member h => exact h
  | property h _ => exact h

/-- A mark holds words, a period, a colon and a blank. -/
theorem insertable (h : IsMark before text ins) : ∀ c ∈ ins, Insertable c := by
  cases h with
  | member _ => exact insertable_receiverMark
  | property _ _ =>
    intro c hc
    rcases List.mem_append.1 hc with hc | hc
    · exact Or.inl (mem_word hc)
    · rcases List.mem_cons.1 hc with rfl | hc
      · exact Or.inr (Or.inr (Or.inl rfl))
      · rcases List.mem_cons.1 hc with rfl | hc
        · exact Or.inr (Or.inr (Or.inr rfl))
        · exact insertable_receiverMark c hc

/-- A mark ends with a period. -/
theorem exists_init (h : IsMark before text ins) : ∃ init, ins = init ++ ['.'] := by
  cases h with
  | member _ => exact ⟨receiver, rfl⟩
  | property _ _ => exact ⟨word text ++ ':' :: ' ' :: receiver, by simp [receiverMark]⟩

/-- A mark starts like a word. -/
theorem exists_cons {c : Char} {r : Text} (hc : isIdentifierStart c = true)
    (h : IsMark before (c :: r) ins) : ∃ d s, ins = d :: s ∧ isIdentifierStart d = true := by
  cases h with
  | member _ => exact ⟨'t', "his.".toList, rfl, by decide⟩
  | property _ _ =>
    have hword : word (c :: r) = c :: word r :=
      List.takeWhile_cons_of_pos (isIdentifierPart_of_isIdentifierStart hc)
    exact ⟨c, word r ++ ':' :: ' ' :: receiverMark, by rw [hword]; rfl, hc⟩

end IsMark

/-! ## §2. Part of a text. -/

/-- The first character behind a run is the same if more follows. -/
theorem head_dropWhile_append {p : Char → Bool} {s : Text} {c : Char}
    (h : (s.dropWhile p).head? = some c) (r : Text) : ((s ++ r).dropWhile p).head? = some c := by
  induction s with
  | nil => cases h
  | cons d s ih =>
    by_cases hd : p d = true
    · rw [List.dropWhile_cons_of_pos hd] at h
      rw [List.cons_append, List.dropWhile_cons_of_pos hd]
      exact ih h
    · rw [List.dropWhile_cons_of_neg hd] at h
      rw [List.cons_append, List.dropWhile_cons_of_neg hd]
      exact h

/-- A run is at least as long if more follows. -/
theorem mem_takeWhile_append {p : Char → Bool} {s : Text} {c : Char} (h : c ∈ s.takeWhile p)
    (r : Text) : c ∈ (s ++ r).takeWhile p := by
  induction s with
  | nil => cases h
  | cons d s ih =>
    by_cases hd : p d = true
    · rw [List.takeWhile_cons_of_pos hd] at h
      rw [List.cons_append, List.takeWhile_cons_of_pos hd]
      rcases List.mem_cons.1 h with rfl | h
      · exact List.mem_cons_self
      · exact List.mem_cons_of_mem d (ih h)
    · rw [List.takeWhile_cons_of_neg hd] at h
      cases h

/-- What is clear stays so if less is known of the text before. -/
theorem Clear.of_append {before more : Text} (h : Clear (before ++ more)) : Clear before where
  digits c hc := h.digits c (mem_takeWhile_append hc more)
  escape hhead := h.escape (by rw [List.head?_append, hhead]; rfl)
  clause hhead := h.clause (head_dropWhile_append hhead more)

/-- The last word of a text does not go on in what follows it.  Where this
holds, the two parts are read one after the other. -/
def EndsWord (s r : Text) : Prop :=
  StopsAt isIdentifierPart r ∨ ∃ c ∈ s, isIdentifierPart c = false

/-- A word that has ended is the same in front of more text. -/
theorem word_append {s r : Text} (h : EndsWord s r) : word (s ++ r) = word s := by
  -- the word ends inside of the first text, or the second one goes on with no part of
  -- it
  induction s with
  | nil =>
    rcases h with hr | ⟨c, hc, -⟩
    · cases r with
      | nil => rfl
      | cons c r =>
        have hc : ¬ isIdentifierPart c = true := by rw [hr c rfl]; decide
        exact List.takeWhile_cons_of_neg hc
    · cases hc
  | cons d s ih =>
    by_cases hd : isIdentifierPart d = true
    · show (d :: (s ++ r)).takeWhile _ = (d :: s).takeWhile _
      rw [List.takeWhile_cons_of_pos hd, List.takeWhile_cons_of_pos hd]
      refine congrArg (d :: ·) (ih ?_)
      rcases h with hr | ⟨c, hc, hpart⟩
      · exact Or.inl hr
      · rcases List.mem_cons.1 hc with rfl | hc
        · rw [hd] at hpart
          cases hpart
        · exact Or.inr ⟨c, hc, hpart⟩
    · show (d :: (s ++ r)).takeWhile _ = (d :: s).takeWhile _
      rw [List.takeWhile_cons_of_neg hd, List.takeWhile_cons_of_neg hd]

/-- Behind a word that has ended comes the rest and what follows it. -/
theorem pastWord_append {s r : Text} (h : EndsWord s r) : pastWord (s ++ r) = pastWord s ++ r := by
  have h1 : word (s ++ r) ++ pastWord (s ++ r) = s ++ r := List.takeWhile_append_dropWhile
  have h2 : word s ++ pastWord s = s := List.takeWhile_append_dropWhile
  rw [word_append h] at h1
  refine List.append_cancel_left (?_ : word s ++ _ = word s ++ _)
  rw [h1, ← List.append_assoc, h2]

/-- A property stays so if less is known of the text around it. -/
theorem AtProperty.of_append {before more text after : Text}
    (h : AtProperty (before ++ more) (text ++ after)) (hafter : EndsWord text after) :
    AtProperty before text where
  symbol := by
    have hsymbol := h.symbol
    rwa [word_append hafter] at hsymbol
  keyword hmem hhead := by
    have hkeyword := h.keyword
    rw [word_append hafter, pastWord_append hafter] at hkeyword
    exact hkeyword hmem (by rw [List.head?_append, hhead]; rfl)
  opens c hc := h.opens c (head_dropWhile_append hc more)
  closes c hc := by
    have hcloses := h.closes c
    rw [pastWord_append hafter] at hcloses
    exact hcloses (head_dropWhile_append hc after)

/-! ## §3. Texts with marks. -/

/-- The characters of a text, each with what was inserted before it.  Both the
text before and the text after a pass are read off it. -/
abbrev MarkedText := List (Text × Char)

namespace MarkedText

/-- The text without the insertions, which is the text before qualifying. -/
def old (A : MarkedText) : Text := A.map Prod.snd

/-- The text with the insertions, which is the qualified text. -/
def new (A : MarkedText) : Text := A.flatMap fun p => p.1 ++ [p.2]

/-- The text without a mark. -/
def plain (t : Text) : MarkedText := t.map fun c => ([], c)

/-- Every insertion is a mark between `before` and `after`.  The text read so
far is kept with its last character first, as the scanners see it. -/
def Valid (after : Text) : Text → MarkedText → Prop
  | _, [] => True
  | before, (ins, c) :: A =>
    (ins = [] ∨ isIdentifierStart c = true ∧ IsMark before (c :: (old A ++ after)) ins) ∧
      Valid after (c :: before) A

/-- The second text has the marks of the first one, and possibly more: where the
first one has a mark, the second one has the same. -/
def Covers : MarkedText → MarkedText → Prop
  | [], A => A = []
  | (ins, c) :: A₁, A => ∃ ins' A', A = (ins', c) :: A' ∧ (ins = [] ∨ ins' = ins) ∧ Covers A₁ A'

@[simp] theorem old_nil : old [] = [] := rfl

@[simp] theorem new_nil : new [] = [] := rfl

@[simp] theorem old_cons (p : Text × Char) (A : MarkedText) : old (p :: A) = p.2 :: old A := rfl

@[simp] theorem new_cons (p : Text × Char) (A : MarkedText) :
    new (p :: A) = p.1 ++ p.2 :: new A := by
  simp [new]

@[simp] theorem old_append (A B : MarkedText) : old (A ++ B) = old A ++ old B := List.map_append

@[simp] theorem new_append (A B : MarkedText) : new (A ++ B) = new A ++ new B := List.flatMap_append

@[simp] theorem old_plain (t : Text) : old (plain t) = t := by
  rw [old, plain, List.map_map]
  exact List.map_id t

@[simp] theorem new_plain (t : Text) : new (plain t) = t := by
  induction t with
  | nil => rfl
  | cons c t ih =>
    show new (([], c) :: plain t) = c :: t
    rw [new_cons, ih]
    rfl

@[simp] theorem plain_append (s t : Text) : plain (s ++ t) = plain s ++ plain t := List.map_append

/-- A marked text splits where its old text does. -/
theorem exists_append {A : MarkedText} {s t : Text} (h : old A = s ++ t) :
    ∃ X Y, A = X ++ Y ∧ old X = s ∧ old Y = t := List.map_eq_append_iff.1 h

theorem exists_cons {A : MarkedText} {c : Char} {t : Text} (h : old A = c :: t) :
    ∃ ins X, A = (ins, c) :: X ∧ old X = t := by
  obtain ⟨⟨ins, d⟩, X, rfl, rfl, hX⟩ := List.map_eq_cons_iff.1 h
  exact ⟨ins, X, rfl, hX⟩

theorem eq_nil_of_old {A : MarkedText} (h : old A = []) : A = [] := List.map_eq_nil_iff.1 h

/-- Marks only add characters. -/
theorem length_old_le (A : MarkedText) : (old A).length ≤ (new A).length := by
  induction A with
  | nil => exact Nat.le_refl 0
  | cons p A ih =>
    rw [old_cons, new_cons, List.length_append, List.length_cons, List.length_cons]
    omega

/-- A text that is not changed has no marks. -/
theorem eq_plain_of_new {A : MarkedText} {t : Text} (hold : old A = t) (hnew : new A = t) :
    A = plain t := by
  induction A generalizing t with
  | nil =>
    subst hold
    rfl
  | cons p A ih =>
    obtain ⟨ins, c⟩ := p
    subst hold
    have hle := length_old_le A
    have hlen := congrArg List.length hnew
    simp only [old_cons, new_cons, List.length_append, List.length_cons] at hlen
    obtain rfl : ins = [] := List.eq_nil_of_length_eq_zero (by omega)
    simp only [old_cons, new_cons, List.nil_append, List.cons.injEq, true_and] at hnew
    show _ = ([], c) :: plain (old A)
    rw [← ih rfl hnew]

/-! ## §4. Validity. -/

/-- The marks of a text are those of its parts, each judged by the text around
it: the first part has the second one behind it, and the second one the first
before it. -/
theorem valid_append {after before : Text} (X Y : MarkedText) :
    Valid after before (X ++ Y) ↔
      Valid (old Y ++ after) before X ∧ Valid after ((old X).reverse ++ before) Y := by
  induction X generalizing before with
  | nil => simp [Valid]
  | cons p X ih =>
    obtain ⟨ins, c⟩ := p
    simp only [List.cons_append, Valid, ih, old_append, old_cons, List.append_assoc,
      List.reverse_cons, List.nil_append, and_assoc]

theorem valid_plain (after before t : Text) : Valid after before (plain t) := by
  induction t generalizing before with
  | nil => trivial
  | cons c t ih => exact ⟨Or.inl rfl, ih (c :: before)⟩

/-- Where no identifier starts, nothing is inserted. -/
theorem ins_eq_nil {after before : Text} {ins : Text} {c : Char} {A : MarkedText}
    (h : Valid after before ((ins, c) :: A)) (hc : isIdentifierStart c = false) : ins = [] := by
  rcases h.1 with h | ⟨hstart, -⟩
  · exact h
  · rw [hc] at hstart
    cases hstart

/-- Marks do not put a character in front that starts no identifier. -/
theorem head?_new_append {after before : Text} {A : MarkedText} (hv : Valid after before A)
    {d : Char} (hd : isIdentifierStart d = false) (s : Text) :
    (new A ++ s).head? = some d ↔ (old A ++ s).head? = some d := by
  cases A with
  | nil => exact Iff.rfl
  | cons p A =>
    obtain ⟨ins, c⟩ := p
    rcases hv.1 with rfl | ⟨hstart, hmark⟩
    · simp
    · obtain ⟨x, r, rfl, hx⟩ := hmark.exists_cons hstart
      have hne : ∀ y, isIdentifierStart y = true → y ≠ d := by
        rintro y hy rfl
        rw [hd] at hy
        cases hy
      simp [hne x hx, hne c hstart]

/-- A character that starts no identifier comes first in the marked text if and
only if it comes first in the text. -/
theorem head?_new {after before : Text} {A : MarkedText} (hv : Valid after before A) {d : Char}
    (hd : isIdentifierStart d = false) : (new A).head? = some d ↔ (old A).head? = some d := by
  have h := head?_new_append hv hd []
  rwa [List.append_nil, List.append_nil] at h

/-- Text in which no identifier starts stays as it is. -/
theorem eq_plain_of_valid {after before t : Text} {A : MarkedText} (h : Valid after before A)
    (hold : old A = t) (ht : ∀ c ∈ t, isIdentifierStart c = false) : A = plain t := by
  induction A generalizing before t with
  | nil =>
    subst hold
    rfl
  | cons p A ih =>
    obtain ⟨ins, c⟩ := p
    subst hold
    obtain rfl := ins_eq_nil h (ht c List.mem_cons_self)
    have htail := ih h.2 rfl fun x hx => ht x (List.mem_cons_of_mem _ hx)
    show ([], c) :: A = ([], c) :: plain (old A)
    rw [← htail]

/-- The text read so far ends inside a word.  Nothing is inserted there, since a
mark stands before a whole word. -/
def InWord (before : Text) : Prop :=
  ∃ c ∈ before.takeWhile isIdentifierPart, isAsciiDigit c = false

/-- Inside of a word no mark can stand. -/
theorem not_clear_of_inWord {before : Text} (h : InWord before) : ¬ Clear before := by
  intro hclear
  obtain ⟨c, hc, hdigit⟩ := h
  rw [hclear.digits c hc] at hdigit
  cases hdigit

/-- A character of words does not leave the word. -/
theorem InWord.cons {before : Text} (h : InWord before) {c : Char}
    (hc : isIdentifierPart c = true) : InWord (c :: before) := by
  obtain ⟨d, hd, hdigit⟩ := h
  refine ⟨d, ?_, hdigit⟩
  rw [List.takeWhile_cons_of_pos hc]
  exact List.mem_cons_of_mem c hd

/-- The first character of an identifier enters a word. -/
theorem inWord_cons {before : Text} {c : Char} (hc : isIdentifierStart c = true) :
    InWord (c :: before) := by
  refine ⟨c, ?_, isAsciiDigit_of_isIdentifierStart hc⟩
  rw [List.takeWhile_cons_of_pos (isIdentifierPart_of_isIdentifierStart hc)]
  exact List.mem_cons_self

/-- Marks stay marks if less is known of the text around them. -/
theorem Valid.of_append {before more keep after : Text} {A : MarkedText}
    (h : Valid (keep ++ after) (before ++ more) A) (hafter : EndsWord keep after) :
    Valid keep before A := by
  induction A generalizing before with
  | nil => trivial
  | cons p A ih =>
    obtain ⟨ins, c⟩ := p
    refine ⟨?_, ih h.2⟩
    rcases h.1 with h | ⟨hstart, hmark⟩
    · exact Or.inl h
    · refine Or.inr ⟨hstart, ?_⟩
      -- behind the mark the text still ends its last word
      have hends : EndsWord (c :: (old A ++ keep)) after := by
        rcases hafter with hstop | ⟨d, hd, hpart⟩
        · exact Or.inl hstop
        · exact Or.inr ⟨d, List.mem_cons_of_mem c (List.mem_append_right (old A) hd), hpart⟩
      have hassoc : c :: (old A ++ (keep ++ after)) = (c :: (old A ++ keep)) ++ after := by simp
      rw [hassoc] at hmark
      -- a receiver asks for the text before only, a property for both sides
      cases hmark with
      | member hclear => exact .member hclear.of_append
      | property hclear hp =>
        rw [word_append hends]
        exact .property hclear.of_append (hp.of_append hends)

/-- Marks stay marks if nothing is known of the text around them. -/
theorem Valid.alone {before after : Text} {A : MarkedText} (h : Valid after before A)
    (hafter : StopsAt isIdentifierPart after) : Valid [] [] A := by
  have hempty : Valid ([] ++ after) ([] ++ before) A := h
  exact hempty.of_append (Or.inl hafter)

/-- So do the marks of a text that does not end with a word. -/
theorem Valid.alone_concat {before after : Text} {A : MarkedText} {c : Char}
    (h : Valid after before (A ++ [([], c)])) (hc : isIdentifierPart c = false) :
    Valid [] [] (A ++ [([], c)]) := by
  have hA : Valid ([c] ++ after) ([] ++ before) A := ((valid_append A [([], c)]).1 h).1
  have hkeep : Valid [c] [] A := hA.of_append (Or.inr ⟨c, List.mem_singleton_self c, hc⟩)
  exact (valid_append A [([], c)]).2 ⟨hkeep, Or.inl rfl, trivial⟩

/-! ## §5. Coverings. -/

/-- Marks that cover those of two parts cover each part by itself. -/
theorem covers_append {X Y A : MarkedText} (h : Covers (X ++ Y) A) :
    ∃ X' Y', A = X' ++ Y' ∧ Covers X X' ∧ Covers Y Y' := by
  induction X generalizing A with
  | nil => exact ⟨[], A, rfl, rfl, h⟩
  | cons p X ih =>
    obtain ⟨ins, A', rfl, hins, hA⟩ := h
    obtain ⟨X', Y', rfl, hX, hY⟩ := ih hA
    exact ⟨(ins, p.2) :: X', Y', rfl, ⟨ins, X', rfl, hins, hX⟩, hY⟩

/-- Parts of one old text cover each other. -/
theorem Covers.of_append {X Y X' Y' : MarkedText} (h : Covers (X ++ Y) (X' ++ Y'))
    (hold : MarkedText.old X = MarkedText.old X') : Covers X X' ∧ Covers Y Y' := by
  induction X generalizing X' with
  | nil =>
    obtain rfl := eq_nil_of_old hold.symm
    exact ⟨rfl, h⟩
  | cons p X ih =>
    obtain ⟨ins, Z, rfl, hZ⟩ := MarkedText.exists_cons hold.symm
    obtain ⟨ins', A', hA, hins, hmore⟩ := h
    cases hA
    obtain ⟨hX, hY⟩ := ih hmore hZ.symm
    exact ⟨⟨ins, Z, rfl, hins, hX⟩, hY⟩

/-- A covering has marks in the same text. -/
theorem Covers.old {A₁ A : MarkedText} (h : Covers A₁ A) : MarkedText.old A = MarkedText.old A₁ := by
  induction A₁ generalizing A with
  | nil =>
    obtain rfl : A = [] := h
    rfl
  | cons p A₁ ih =>
    obtain ⟨ins, A', rfl, -, hA⟩ := h
    show p.2 :: MarkedText.old A' = p.2 :: MarkedText.old A₁
    rw [ih hA]

theorem Covers.refl (A : MarkedText) : Covers A A := by
  induction A with
  | nil => rfl
  | cons p A ih => exact ⟨p.1, A, rfl, Or.inr rfl, ih⟩

/-- Anything covers a text without a mark. -/
theorem covers_plain (A : MarkedText) : Covers (plain (old A)) A := by
  induction A with
  | nil => rfl
  | cons p A ih => exact ⟨p.1, A, rfl, Or.inl rfl, ih⟩

end MarkedText

open MarkedText in
/-- The second text is the first one with marks: only what the qualifier inserts
was inserted, and only where it inserts. -/
def Marks (s t : Text) : Prop := ∃ A, Valid [] [] A ∧ old A = s ∧ new A = t

end QwebReceiver.Expr
