import QwebReceiver.Proofs.Expr.Settle

/-!
  QwebReceiver.Proofs.Expr.Reading — how tokens are read and written.

  `Reads` lists the ways in which a token is read, with the guards of each;
  `nextToken` reads a token exactly in one of them (`nextToken_eq_ok_iff`).
  How the tokens of each kind are written follows from it (`Spelled`), and so
  does what the text before a token ends with: where an identifier starts, a
  mark can stand (`Open.clear`).
-/

namespace QwebReceiver.Expr

open QwebReceiver.Text

/-! ## §1. Classes of first characters. -/

theorem isQuote_iff {c : Char} : isQuote c = true ↔ c = '\'' ∨ c = '"' ∨ c = '`' := by
  simp [isQuote, or_assoc]

theorem isBlank_of_isQuote {c : Char} (h : isQuote c = true) : isBlank c = false := by
  rcases isQuote_iff.1 h with rfl | rfl | rfl <;> decide

theorem isIdentifierPart_of_isQuote {c : Char} (h : isQuote c = true) :
    isIdentifierPart c = false := by
  rcases isQuote_iff.1 h with rfl | rfl | rfl <;> decide

/-- A character of words is no quote. -/
theorem isQuote_of_isIdentifierPart {c : Char} (h : isIdentifierPart c = true) :
    isQuote c = false := by
  cases hq : isQuote c with
  | false => rfl
  | true =>
    rw [isIdentifierPart_of_isQuote hq] at h
    cases h

/-- What is no part of a word starts none. -/
theorem isIdentifierStart_eq_false {c : Char} (h : isIdentifierPart c = false) :
    isIdentifierStart c = false := by
  cases hs : isIdentifierStart c with
  | false => rfl
  | true =>
    rw [isIdentifierPart_of_isIdentifierStart hs] at h
    cases h

/-! ## §2. Reading one token. -/

/-- The operator at the start of a text.  In the table an operator stands behind
those that it is a prefix of, so it is the longest one. -/
def operatorAt (t : Text) : Option Text := operators.find? fun op => op.isPrefixOf t

/-- The ways in which a token is read off `c :: cs`, with what is left.  Which
one applies is decided by the first character, in the order of the lexer. -/
inductive Reads (c : Char) (cs : Text) : Token → Text → Prop where
  | blank (h : isBlank c = true) :
      Reads c cs ⟨.blank, c :: cs.takeWhile isBlank⟩ (cs.dropWhile isBlank)
  | string {content rest : Text} (h : isQuote c = true)
      (hclose : closingQuote c cs = some (content, rest)) :
      Reads c cs ⟨if c = '`' then .templateString else .value, c :: (content ++ [c])⟩ rest
  | number (h : isAsciiDigit c = true) :
      Reads c cs ⟨.value, (scanNumber (c :: cs)).1⟩ (scanNumber (c :: cs)).2
  | operator {op : Text} (hblank : isBlank c = false) (hquote : isQuote c = false)
      (hdigit : isAsciiDigit c = false) (h : operatorAt (c :: cs) = some op) :
      Reads c cs ⟨.operator, op⟩ ((c :: cs).drop op.length)
  | identifier (h : isIdentifierStart c = true) (hop : operatorAt (c :: cs) = none) :
      Reads c cs ⟨identifierKind (c :: word cs), c :: word cs⟩ (pastWord cs)
  | punctuation {kind : TokenKind} (hop : operatorAt (c :: cs) = none)
      (h : TokenKind.ofPunctuation? c = some kind) : Reads c cs ⟨kind, [c]⟩ cs

/-- The characters that are tokens of their own. -/
theorem mem_of_ofPunctuation? {c : Char} {kind : TokenKind}
    (h : TokenKind.ofPunctuation? c = some kind) : c ∈ "{}[](),:".toList := by
  unfold TokenKind.ofPunctuation? at h
  repeat' split at h
  all_goals first | (subst_vars; decide) | cases h

/-- The lexer reads a token off a text exactly in the ways of `Reads`.  Proofs
about tokens go by these cases, and none of them opens the lexer again. -/
theorem nextToken_eq_ok_iff {c : Char} {cs : Text} {t : Token} {rest : Text} :
    nextToken c cs = .ok (t, rest) ↔ Reads c cs t rest := by
  constructor
  · -- a rule applies where no rule before it did
    intro h
    unfold nextToken at h
    split at h
    · next hblank =>
      cases h
      exact .blank hblank
    next hblank =>
    split at h
    · next hquote =>
      split at h
      · cases h
      · next content r hclose =>
        cases h
        exact .string hquote hclose
    next hquote =>
    split at h
    · next hdigit =>
      cases h
      exact .number hdigit
    next hdigit =>
    rw [Bool.not_eq_true] at hblank hquote hdigit
    split at h
    · next op hop =>
      cases h
      exact .operator hblank hquote hdigit hop
    next hop =>
    split at h
    · next hstart =>
      cases h
      exact .identifier hstart hop
    split at h
    · next kind hkind =>
      cases h
      exact .punctuation hop hkind
    · cases h
  · -- and none does, as no character is of the class of two rules
    intro h
    unfold nextToken
    cases h with
    | blank hblank => rw [if_pos hblank]
    | string hquote hclose =>
      rw [if_neg (by rw [isBlank_of_isQuote hquote]; decide), if_pos hquote, hclose]
    | number hdigit =>
      have hpart := isIdentifierPart_of_isAsciiDigit hdigit
      rw [if_neg (by rw [isBlank_of_isIdentifierPart hpart]; decide),
        if_neg (by rw [isQuote_of_isIdentifierPart hpart]; decide), if_pos hdigit]
    | operator hblank hquote hdigit hop =>
      rw [if_neg (by rw [hblank]; decide), if_neg (by rw [hquote]; decide),
        if_neg (by rw [hdigit]; decide)]
      rw [operatorAt] at hop
      rw [hop]
    | identifier hstart hop =>
      have hpart := isIdentifierPart_of_isIdentifierStart hstart
      rw [if_neg (by rw [isBlank_of_isIdentifierPart hpart]; decide),
        if_neg (by rw [isQuote_of_isIdentifierPart hpart]; decide),
        if_neg (by rw [isAsciiDigit_of_isIdentifierStart hstart]; decide)]
      rw [operatorAt] at hop
      rw [hop, if_pos hstart]
      rfl
    | punctuation hop hkind =>
      have hall : ∀ x ∈ "{}[](),:".toList, isBlank x = false ∧ isQuote x = false ∧
          isAsciiDigit x = false ∧ isIdentifierStart x = false := by decide
      obtain ⟨hblank, hquote, hdigit, hstart⟩ := hall c (mem_of_ofPunctuation? hkind)
      rw [if_neg (by rw [hblank]; decide), if_neg (by rw [hquote]; decide),
        if_neg (by rw [hdigit]; decide)]
      rw [operatorAt] at hop
      rw [hop, if_neg (by rw [hstart]; decide), hkind]

/-! ## §3. Numbers. -/

/-- A number with a fraction. -/
theorem scanNumber_fraction {t r : Text} (h : t.dropWhile isAsciiDigit = '.' :: r)
    (hr : r.takeWhile isAsciiDigit ≠ []) :
    scanNumber t = (t.takeWhile isAsciiDigit ++ '.' :: r.takeWhile isAsciiDigit,
      r.dropWhile isAsciiDigit) := by
  unfold scanNumber
  simp only [h]
  rw [if_neg (by rwa [List.isEmpty_iff])]

/-- A number without one. -/
theorem scanNumber_whole {t : Text}
    (h : ∀ r, t.dropWhile isAsciiDigit = '.' :: r → r.takeWhile isAsciiDigit = []) :
    scanNumber t = (t.takeWhile isAsciiDigit, t.dropWhile isAsciiDigit) := by
  unfold scanNumber
  split
  · next r hr =>
    rw [if_pos (by rw [h r hr]; rfl), hr]
  · rfl

/-- Every text starts with a number of one of the two forms. -/
theorem scanNumber_cases (t : Text) :
    (∃ r, t.dropWhile isAsciiDigit = '.' :: r ∧ r.takeWhile isAsciiDigit ≠ []) ∨
      ∀ r, t.dropWhile isAsciiDigit = '.' :: r → r.takeWhile isAsciiDigit = [] := by
  by_cases h : ∃ r, t.dropWhile isAsciiDigit = '.' :: r ∧ r.takeWhile isAsciiDigit ≠ []
  · exact Or.inl h
  · refine Or.inr ?_
    intro r hr
    by_contra hne
    exact h ⟨r, hr, hne⟩

/-- A number and what follows it make up the text. -/
theorem scanNumber_append (t : Text) : (scanNumber t).1 ++ (scanNumber t).2 = t := by
  have hsplit : t.takeWhile isAsciiDigit ++ t.dropWhile isAsciiDigit = t :=
    List.takeWhile_append_dropWhile
  rcases scanNumber_cases t with ⟨r, hr, hne⟩ | h
  · rw [scanNumber_fraction hr hne]
    rw [hr] at hsplit
    simp only [List.append_assoc, List.cons_append, List.takeWhile_append_dropWhile]
    exact hsplit
  · rw [scanNumber_whole h]
    exact hsplit

/-- A number consists of digits and at most a period. -/
theorem mem_scanNumber {t : Text} {c : Char} (h : c ∈ (scanNumber t).1) :
    isAsciiDigit c = true ∨ c = '.' := by
  rcases scanNumber_cases t with ⟨r, hr, hne⟩ | hwhole
  · rw [scanNumber_fraction hr hne] at h
    rcases List.mem_append.1 h with h | h
    · exact Or.inl (List.mem_takeWhile_imp h)
    · rcases List.mem_cons.1 h with h | h
      · exact Or.inr h
      · exact Or.inl (List.mem_takeWhile_imp h)
  · rw [scanNumber_whole hwhole] at h
    exact Or.inl (List.mem_takeWhile_imp h)

/-- A number that starts with a digit is not empty. -/
theorem scanNumber_ne_nil {c : Char} {cs : Text} (h : isAsciiDigit c = true) :
    (scanNumber (c :: cs)).1 ≠ [] := by
  intro hnil
  have happend := congrArg List.length (scanNumber_append (c :: cs))
  have hle := @length_scanNumber c cs h
  rw [hnil] at happend
  simp only [List.nil_append, List.length_cons] at happend
  omega

/-! ## §4. How tokens are written. -/

/-- How the tokens of each kind are written.  Later proofs use this and no
longer open the lexer. -/
inductive Token.Spelled : Token → Prop where
  | blank {w : Text} (hne : w ≠ []) (h : ∀ c ∈ w, Text.isBlank c = true) : Spelled ⟨.blank, w⟩
  | string {q : Char} {content : Text} {kind : TokenKind}
      (hkind : kind = .templateString ∨ kind = .value) (h : isQuote q = true) :
      Spelled ⟨kind, q :: (content ++ [q])⟩
  | number {w : Text} (hne : w ≠ []) (h : ∀ c ∈ w, isAsciiDigit c = true ∨ c = '.') :
      Spelled ⟨.value, w⟩
  | operator {op : Text} (h : op ∈ operators) : Spelled ⟨.operator, op⟩
  | identifier {c : Char} {w : Text} (h : isIdentifierStart c = true)
      (hw : ∀ d ∈ w, isIdentifierPart d = true) : Spelled ⟨identifierKind (c :: w), c :: w⟩
  | punctuation {c : Char} {kind : TokenKind} (h : TokenKind.ofPunctuation? c = some kind) :
      Spelled ⟨kind, [c]⟩

/-- A property of the tokens that are one character. -/
theorem ofPunctuation?_forall {P : Char → TokenKind → Prop}
    (h : ∀ c ∈ "{}[](),:".toList, ∀ kind ∈ TokenKind.ofPunctuation? c, P c kind) {c : Char}
    {kind : TokenKind} (hkind : TokenKind.ofPunctuation? c = some kind) : P c kind :=
  h c (mem_of_ofPunctuation? hkind) kind hkind

/-- Symbols are words. -/
theorem Token.Spelled.symbol {t : Token} (h : t.Spelled) (hkind : t.kind = .symbol) :
    ∃ c w, t.text = c :: w ∧ isIdentifierStart c = true ∧
      (∀ d ∈ w, isIdentifierPart d = true) ∧ identifierKind (c :: w) = .symbol := by
  cases h with
  | blank _ _ => cases hkind
  | string hk _ =>
    rcases hk with rfl | rfl
    · cases hkind
    · cases hkind
  | number _ _ => cases hkind
  | operator _ => cases hkind
  | identifier hc hw => exact ⟨_, _, rfl, hc, hw, hkind⟩
  | punctuation hk =>
    have hne := ofPunctuation?_forall (P := fun _ k => k ≠ .symbol) (by decide) hk
    exact absurd hkind hne

theorem isPrefixOf_of_operatorAt {t op : Text} (h : operatorAt t = some op) : op <+: t := by
  have hp : List.isPrefixOf op t = true :=
    List.find?_some (p := fun op : Text => op.isPrefixOf t) h
  exact List.isPrefixOf_iff_prefix.1 hp

theorem mem_of_operatorAt {t op : Text} (h : operatorAt t = some op) : op ∈ operators :=
  List.mem_of_find?_eq_some h

namespace Reads

variable {c : Char} {cs : Text} {t : Token} {rest : Text}

/-- A token that was read is spelled as its kind demands. -/
theorem spelled (h : Reads c cs t rest) : t.Spelled := by
  -- each rule reads what its kind is spelled with
  cases h with
  | blank hblank =>
    refine .blank (List.cons_ne_nil _ _) ?_
    intro d hd
    rcases List.mem_cons.1 hd with rfl | hd
    · exact hblank
    · exact List.mem_takeWhile_imp hd
  | string hquote hclose =>
    refine .string ?_ hquote
    split
    · exact Or.inl rfl
    · exact Or.inr rfl
  | number hdigit => exact .number (scanNumber_ne_nil hdigit) fun d hd => mem_scanNumber hd
  | operator _ _ _ hop => exact .operator (mem_of_operatorAt hop)
  | identifier hstart _ => exact .identifier hstart fun d hd => mem_word hd
  | punctuation _ hkind => exact .punctuation hkind

/-- No character is lost: the token and what is left of the text make it up. -/
theorem append (h : Reads c cs t rest) : t.text ++ rest = c :: cs := by
  -- each rule splits the text that it is given
  cases h with
  | blank _ =>
    show c :: (cs.takeWhile isBlank ++ cs.dropWhile isBlank) = c :: cs
    rw [List.takeWhile_append_dropWhile]
  | string hquote hclose =>
    rw [eq_append_of_closing rfl hclose]
    show c :: (_ ++ [c]) ++ rest = c :: (_ ++ c :: rest)
    simp
  | number _ => exact scanNumber_append _
  | operator _ _ _ hop =>
    obtain ⟨r, hr⟩ := isPrefixOf_of_operatorAt hop
    rw [← hr, List.drop_left]
  | identifier _ _ =>
    show c :: (word cs ++ pastWord cs) = c :: cs
    rw [word, pastWord, List.takeWhile_append_dropWhile]
  | punctuation _ _ => rfl

end Reads

/-! ## §5. The text before a token. -/

/-- The text before `rest` ends where a mark can stand, unless `rest` goes on
with a word. -/
structure Open (before rest : Text) : Prop where
  escape : before.head? ≠ some '\\'
  clause : (before.dropWhile SelectorPart.isClauseNameChar).head? ≠ some '@'
  digits : (∀ c ∈ before.takeWhile isIdentifierPart, isAsciiDigit c = true) ∨
    StopsAt isIdentifierPart rest

/-- Where a word follows, the word before is one of digits. -/
theorem Open.digits_of_cons {before : Text} {c : Char} {cs : Text} (h : Open before (c :: cs))
    (hc : isIdentifierPart c = true) :
    ∀ d ∈ before.takeWhile isIdentifierPart, isAsciiDigit d = true := by
  rcases h.digits with hdigits | hstops
  · exact hdigits
  · rw [hstops c rfl] at hc
    cases hc

/-- In front of an identifier a mark can stand. -/
theorem Open.clear {before : Text} {c : Char} {cs : Text} (h : Open before (c :: cs))
    (hc : isIdentifierStart c = true) : Clear before where
  digits := h.digits_of_cons (isIdentifierPart_of_isIdentifierStart hc)
  escape := h.escape
  clause := h.clause

/-- Text without `@` does not start a clause. -/
theorem clause_append {s before : Text} (hs : '@' ∉ s)
    (h : (before.dropWhile SelectorPart.isClauseNameChar).head? ≠ some '@') :
    ((s ++ before).dropWhile SelectorPart.isClauseNameChar).head? ≠ some '@' := by
  induction s with
  | nil => exact h
  | cons c s ih =>
    rw [List.mem_cons, not_or] at hs
    by_cases hc : SelectorPart.isClauseNameChar c = true
    · rw [List.cons_append, List.dropWhile_cons_of_pos hc]
      exact ih hs.2
    · rw [List.cons_append, List.dropWhile_cons_of_neg hc]
      intro hhead
      exact hs.1 (Option.some.inj hhead).symm

/-- A run through two texts has its characters from either of them. -/
theorem mem_takeWhile_append_imp {p : Char → Bool} {s r : Text} {c : Char}
    (h : c ∈ (s ++ r).takeWhile p) : c ∈ s ∨ c ∈ r.takeWhile p := by
  induction s with
  | nil => exact Or.inr h
  | cons d s ih =>
    by_cases hd : p d = true
    · rw [List.cons_append, List.takeWhile_cons_of_pos hd] at h
      rcases List.mem_cons.1 h with rfl | h
      · exact Or.inl List.mem_cons_self
      · rcases ih h with h | h
        · exact Or.inl (List.mem_cons_of_mem d h)
        · exact Or.inr h
    · rw [List.cons_append, List.takeWhile_cons_of_neg hd] at h
      cases h

theorem exists_concat {s : Text} (hne : s ≠ []) : ∃ init c, s = init ++ [c] :=
  ⟨_, _, (List.dropLast_concat_getLast hne).symm⟩

/-- Text goes on open if it starts no clause and no escape. -/
theorem open_append {s before rest : Text} (hne : s ≠ []) (hat : '@' ∉ s) (hescape : '\\' ∉ s)
    (h : (before.dropWhile SelectorPart.isClauseNameChar).head? ≠ some '@')
    (hdigits : (∀ c ∈ (s.reverse ++ before).takeWhile isIdentifierPart, isAsciiDigit c = true) ∨
      StopsAt isIdentifierPart rest) : Open (s.reverse ++ before) rest where
  escape hhead := by
    obtain ⟨init, c, rfl⟩ := exists_concat hne
    rw [List.reverse_append] at hhead
    exact hescape (by rw [← Option.some.inj hhead]; simp)
  clause := clause_append (by rwa [List.mem_reverse]) h
  digits := hdigits

/-- No word ends with a character that is not one of words. -/
theorem digits_append {s : Text} (hne : s ≠ [])
    (hlast : ∀ c, s.getLast? = some c → isIdentifierPart c = false) (before : Text) :
    ∀ c ∈ (s.reverse ++ before).takeWhile isIdentifierPart, isAsciiDigit c = true := by
  obtain ⟨init, c, rfl⟩ := exists_concat hne
  have hc : isIdentifierPart c = false := hlast c (by simp)
  rw [List.reverse_append, List.append_assoc]
  show ∀ d ∈ (c :: (init.reverse ++ before)).takeWhile isIdentifierPart, _
  rw [List.takeWhile_cons_of_neg (by rw [hc]; decide)]
  intro d hd
  cases hd

/-- What an operator is made of. -/
theorem operators_chars : ∀ op ∈ operators, '@' ∉ op ∧ '\\' ∉ op ∧
    ∀ c, op.getLast? = some c → isIdentifierPart c = false := by
  have hall : ∀ op ∈ operators, '@' ∉ op ∧ '\\' ∉ op ∧
      op.getLast?.all (fun c => !isIdentifierPart c) = true := by decide +kernel
  intro op hop
  obtain ⟨hat, hescape, hlast⟩ := hall op hop
  refine ⟨hat, hescape, ?_⟩
  intro c hc
  rw [hc] at hlast
  simpa using hlast

/-- Text without characters of a class has none of them. -/
theorem not_mem_of_all {p : Char → Bool} {s : Text} {c : Char} (hs : ∀ d ∈ s, p d = true)
    (hc : p c = false) : c ∉ s := by
  intro hmem
  rw [hs c hmem] at hc
  cases hc

/-- Every token leaves the text before the next one open. -/
theorem Open.read {before : Text} {c : Char} {cs : Text} {t : Token} {rest : Text}
    (h : Open before (c :: cs)) (hread : Reads c cs t rest) :
    Open (t.text.reverse ++ before) rest := by
  cases hread with
  | blank hblank =>
    have hall : ∀ d ∈ c :: cs.takeWhile isBlank, isBlank d = true := by
      intro d hd
      rcases List.mem_cons.1 hd with rfl | hd
      · exact hblank
      · exact List.mem_takeWhile_imp hd
    refine open_append (List.cons_ne_nil _ _) (not_mem_of_all hall (by decide))
      (not_mem_of_all hall (by decide)) h.clause (Or.inl (digits_append (List.cons_ne_nil _ _) ?_ _))
    intro d hd
    exact isIdentifierPart_of_isBlank (hall d (List.mem_of_getLast? hd))
  | @string content _ hquote hclose =>
    -- the closing quote hides what the literal holds
    have hno : SelectorPart.isClauseNameChar c = false ∧ c ≠ '\\' ∧ c ≠ '@' := by
      rcases isQuote_iff.1 hquote with rfl | rfl | rfl <;> decide
    have hreverse : (c :: (content ++ [c])).reverse ++ before =
        c :: (content.reverse ++ c :: before) := by simp
    rw [hreverse]
    constructor
    · intro hhead
      exact hno.2.1 (Option.some.inj hhead)
    · rw [List.dropWhile_cons_of_neg (by rw [hno.1]; decide)]
      intro hhead
      exact hno.2.2 (Option.some.inj hhead)
    · refine Or.inl ?_
      rw [List.takeWhile_cons_of_neg (by rw [isIdentifierPart_of_isQuote hquote]; decide)]
      intro d hd
      cases hd
  | number hdigit =>
    have hall : ∀ d ∈ (scanNumber (c :: cs)).1, (isAsciiDigit d || d == '.') = true := by
      intro d hd
      rcases mem_scanNumber hd with h | h
      · rw [h]
        rfl
      · rw [h]
        rfl
    refine open_append (scanNumber_ne_nil hdigit) (not_mem_of_all hall (by decide))
      (not_mem_of_all hall (by decide)) h.clause (Or.inl ?_)
    intro x hx
    rcases mem_takeWhile_append_imp hx with hmem | hmem
    · rcases mem_scanNumber (List.mem_reverse.1 hmem) with hdig | rfl
      · exact hdig
      · exact absurd (List.mem_takeWhile_imp hx) (by decide)
    · exact h.digits_of_cons (isIdentifierPart_of_isAsciiDigit hdigit) x hmem
  | operator _ _ _ hop =>
    have hmem := mem_of_operatorAt hop
    have hne := List.ne_nil_of_length_pos (length_pos_of_mem_operators _ hmem)
    obtain ⟨hat, hescape, hlast⟩ := operators_chars _ hmem
    exact open_append hne hat hescape h.clause (Or.inl (digits_append hne hlast _))
  | identifier hstart _ =>
    have hall : ∀ d ∈ c :: word cs, isIdentifierPart d = true := by
      intro d hd
      rcases List.mem_cons.1 hd with rfl | hd
      · exact isIdentifierPart_of_isIdentifierStart hstart
      · exact mem_word hd
    exact open_append (List.cons_ne_nil _ _) (not_mem_of_all hall (by decide))
      (not_mem_of_all hall (by decide)) h.clause (Or.inr fun d hd => head_dropWhile hd)
  | punctuation _ hkind =>
    have hall : ∀ x ∈ "{}[](),:".toList, x ≠ '@' ∧ x ≠ '\\' ∧ isIdentifierPart x = false := by
      decide
    obtain ⟨hat, hescape, hpart⟩ := hall c (mem_of_ofPunctuation? hkind)
    refine open_append (List.cons_ne_nil _ _) (by simpa using hat.symm) (by simpa using hescape.symm)
      h.clause (Or.inl (digits_append (List.cons_ne_nil _ _) ?_ _))
    intro d hd
    rw [← Option.some.inj hd]
    exact hpart

end QwebReceiver.Expr
