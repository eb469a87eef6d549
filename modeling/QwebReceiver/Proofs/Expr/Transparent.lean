import QwebReceiver.Proofs.Expr.Mark

/-!
  QwebReceiver.Proofs.Expr.Transparent — marks do not move the end of a
  literal or of an interpolation.

  The scanner for ends is a stack machine.  A text keeps it `Inside` if it
  never closes the last frame, and `closing` finds the first character after
  such a text that does (`closing_append`, `exists_of_closing`).  A mark holds
  no quote, brace or backslash and never stands right behind a backslash or a
  `$`, so the machine is after the mark where it was before it (`inside_mark`),
  and a marked text takes it where the text without marks does (`inside_new`).
-/

namespace QwebReceiver.Expr

open QwebReceiver.Text

/-! ## §1. Texts inside of a literal. -/

/-- The text closes some frames, but never the last one.  A scan that started in
that frame is still in it behind the text. -/
def Inside : List Frame → Text → Prop
  | stack, [] => stack ≠ []
  | stack, c :: t => stack ≠ [] ∧ Inside (step c stack) t

/-- Inside of frames at least one is open. -/
theorem Inside.ne_nil {stack : List Frame} {t : Text} (h : Inside stack t) : stack ≠ [] := by
  cases t with
  | nil => exact h
  | cons c t => exact h.1

/-- The end is found after a text that is inside. -/
theorem closing_append {stack : List Frame} {s : Text} (h : Inside stack s) {c : Char}
    (hc : step c (s.foldl (fun st x => step x st) stack) = []) (r : Text) :
    closing stack (s ++ c :: r) = some (s, r) := by
  induction s generalizing stack with
  | nil =>
    have hstep : step c stack = [] := hc
    rw [List.nil_append, closing, hstep]
  | cons d s ih =>
    have hrest := ih h.2 hc
    obtain ⟨f, below, hf⟩ := List.exists_cons_of_ne_nil h.2.ne_nil
    rw [List.cons_append, closing, hf]
    rw [hf] at hrest
    simp only [hrest, Option.map_some]

/-- Where an end is found, the text before it is inside. -/
theorem exists_of_closing {stack : List Frame} {t content rest : Text} (hs : stack ≠ [])
    (h : closing stack t = some (content, rest)) :
    ∃ c, t = content ++ c :: rest ∧ Inside stack content ∧
      step c (content.foldl (fun st x => step x st) stack) = [] := by
  induction t generalizing stack content with
  | nil => simp [closing] at h
  | cons d t ih =>
    rw [closing] at h
    -- the end is here, or some frame is open still
    split at h
    · next hstep =>
      simp only [Option.some.injEq, Prod.mk.injEq] at h
      obtain ⟨rfl, rfl⟩ := h
      exact ⟨d, rfl, hs, hstep⟩
    · next f below hstep =>
      obtain ⟨⟨u, v⟩, huv, heq⟩ := Option.map_eq_some_iff.1 h
      simp only [Prod.mk.injEq] at heq
      obtain ⟨rfl, rfl⟩ := heq
      obtain ⟨c, rfl, hin, hc⟩ := ih (by simp) huv
      rw [← hstep] at hin hc
      exact ⟨c, rfl, ⟨hs, hin⟩, hc⟩

/-- No end is found exactly in a text that is inside. -/
theorem closing_eq_none_iff {stack : List Frame} (hs : stack ≠ []) (t : Text) :
    closing stack t = none ↔ Inside stack t := by
  induction t generalizing stack with
  | nil => exact ⟨fun _ => hs, fun _ => rfl⟩
  | cons d t ih =>
    rw [closing]
    split
    · next hstep =>
      constructor
      · intro h
        cases h
      · intro h
        exact absurd hstep h.2.ne_nil
    · next f below hstep =>
      rw [Option.map_eq_none_iff, ih (by simp), ← hstep]
      exact ⟨fun h => ⟨hs, h⟩, fun h => h.2⟩

/-- The character that closes a frame. -/
def Frame.closer : Frame → Char
  | .braces _ => '}'
  | .literal q _ => q

/-- A frame on top of others does not count. -/
theorem closer_cons_cons (f g : Frame) (below : List Frame) :
    (f :: g :: below).getLast?.map Frame.closer = (g :: below).getLast?.map Frame.closer := by
  rw [List.getLast?_cons_cons]

/-- Of the top frame only the closer counts. -/
theorem closer_congr {f g : Frame} {d : Char} {below : List Frame}
    (h : (f :: below).getLast?.map Frame.closer = some d) (hfg : g.closer = f.closer) :
    (g :: below).getLast?.map Frame.closer = some d := by
  cases below with
  | nil => exact (congrArg some hfg).trans h
  | cons k below =>
    rw [closer_cons_cons] at h ⊢
    exact h

/-- A stack after the character `c`, if `d` was the closer of its last frame:
that frame is closed by `d` only, and the last one while it is open. -/
def Guards (d c : Char) (stack : List Frame) : Prop :=
  (stack = [] → c = d) ∧ (stack ≠ [] → stack.getLast?.map Frame.closer = some d)

/-- A stack on which frames are left guards the end if its last frame does. -/
theorem guards_cons {d c : Char} {f : Frame} {below : List Frame}
    (h : (f :: below).getLast?.map Frame.closer = some d) : Guards d c (f :: below) :=
  ⟨fun hnil => absurd hnil (List.cons_ne_nil _ _), fun _ => h⟩

/-- The closer of the top frame takes it off the stack. -/
theorem guards_below {d : Char} {f : Frame} {below : List Frame}
    (h : (f :: below).getLast?.map Frame.closer = some d) : Guards d f.closer below := by
  cases below with
  | nil => exact ⟨fun _ => Option.some.inj h, fun hne => absurd rfl hne⟩
  | cons g below =>
    rw [closer_cons_cons] at h
    exact guards_cons h

/-- A character in a literal closes the last frame only if it is the closer. -/
theorem guards_stepLiteral {d q c : Char} {m : LiteralMode} {below : List Frame}
    (h : (Frame.literal q m :: below).getLast?.map Frame.closer = some d) :
    Guards d c (stepLiteral q c below) := by
  have hmode : ∀ m', Guards d c (.literal q m' :: below) := by
    intro m'
    exact guards_cons (closer_congr h rfl)
  unfold stepLiteral
  split
  · exact hmode .escaped
  split
  · next hq =>
    rw [hq]
    exact guards_below h
  split
  · exact hmode .dollar
  · exact hmode .plain

/-- A character closes the last frame if it is the closer of that frame, and
keeps the closer of the last frame otherwise. -/
theorem guards_step {stack : List Frame} {d : Char}
    (h : stack.getLast?.map Frame.closer = some d) (c : Char) : Guards d c (step c stack) := by
  cases stack with
  | nil => cases h
  | cons f below =>
    -- only the last frame has `d` for its closer; frames above it are opened and closed
    -- freely
    cases f with
    | braces depth =>
      have hdepth : ∀ k, Guards d c (.braces k :: below) := by
        intro k
        exact guards_cons (closer_congr h rfl)
      simp only [step]
      split
      · exact guards_cons ((closer_cons_cons _ _ _).trans h)
      split
      · exact hdepth (depth + 1)
      split
      · next hc =>
        split
        · rw [hc]
          exact guards_below h
        · exact hdepth _
      · exact hdepth depth
    | literal q m =>
      have hplain : (Frame.literal q .plain :: below).getLast?.map Frame.closer = some d :=
        closer_congr h rfl
      cases m with
      | escaped => exact guards_cons hplain
      | plain => exact guards_stepLiteral h
      | dollar =>
        simp only [step]
        split
        · exact guards_cons ((closer_cons_cons _ _ _).trans hplain)
        · exact guards_stepLiteral h

/-- The end that is found is the closer of the last frame. -/
theorem eq_append_of_closing {stack : List Frame} {d : Char}
    (hd : stack.getLast?.map Frame.closer = some d) {t content rest : Text}
    (h : closing stack t = some (content, rest)) : t = content ++ d :: rest := by
  induction t generalizing stack content with
  | nil => simp [closing] at h
  | cons c t ih =>
    rw [closing] at h
    split at h
    -- the stack is empty: this character has closed the last frame
    · next hstep =>
      cases h
      rw [(guards_step hd c).1 hstep]
      rfl
    · next f below hstep =>
      obtain ⟨⟨u, v⟩, huv, heq⟩ := Option.map_eq_some_iff.1 h
      simp only [Prod.mk.injEq] at heq
      obtain ⟨rfl, rfl⟩ := heq
      have hlast := (guards_step hd c).2 (by rw [hstep]; exact List.cons_ne_nil _ _)
      rw [hstep] at hlast
      rw [ih hlast huv]
      rfl

/-! ## §2. Marks and the stack. -/

/-- A frame in which the next character is taken as it stands.  Behind a
backslash or an opener it is not. -/
def Frame.isCalm : Frame → Bool
  | .literal _ .plain => true
  | .braces _ => true
  | _ => false

/-- The literals of a stack are opened by quotes.  The scanners open no others,
so this holds of every stack they reach. -/
def Quoted (stack : List Frame) : Prop :=
  ∀ q m, Frame.literal q m ∈ stack → isQuote q = true

/-- The stack is that of a text that ends with `before`: the innermost frame
waits only for what has just been read, the others do not wait. -/
structure Agrees (stack : List Frame) (before : Text) : Prop where
  quoted : Quoted stack
  escaped : ∀ q below, stack = .literal q .escaped :: below → before.head? = some '\\'
  dollar : ∀ q below, stack = .literal q .dollar :: below → before.head? = some '$'
  below : ∀ f below, stack = f :: below → ∀ g ∈ below, g.isCalm = true

/-- A calm stack agrees with any text. -/
theorem agrees_of_calm {stack : List Frame} (hq : Quoted stack)
    (hcalm : ∀ f ∈ stack, f.isCalm = true) (before : Text) : Agrees stack before where
  quoted := hq
  escaped q below h := by
    have := hcalm (.literal q .escaped) (by rw [h]; exact List.mem_cons_self)
    cases this
  dollar q below h := by
    have := hcalm (.literal q .dollar) (by rw [h]; exact List.mem_cons_self)
    cases this
  below f below h g hg := hcalm g (by rw [h]; exact List.mem_cons_of_mem f hg)

theorem Quoted.tail {f : Frame} {below : List Frame} (h : Quoted (f :: below)) : Quoted below :=
  fun q m hm => h q m (List.mem_cons_of_mem f hm)

/-- A frame on quoted ones, opened by a quote if it is a literal. -/
theorem Quoted.cons {f : Frame} {below : List Frame} (h : Quoted below)
    (hf : ∀ q m, f = .literal q m → isQuote q = true) : Quoted (f :: below) := by
  intro q m hm
  rcases List.mem_cons.1 hm with rfl | hm
  · exact hf q m rfl
  · exact h q m hm

/-- A frame that waits for nothing, on frames that do not wait. -/
theorem Agrees.push {f : Frame} {below : List Frame} (hq : Quoted (f :: below))
    (hcalm : ∀ g ∈ below, g.isCalm = true) (before : Text)
    (hesc : ∀ q, f = .literal q .escaped → before.head? = some '\\')
    (hdol : ∀ q, f = .literal q .dollar → before.head? = some '$') :
    Agrees (f :: below) before where
  quoted := hq
  escaped q b h := hesc q (List.cons.inj h).1
  dollar q b h := hdol q (List.cons.inj h).1
  below g b h := by
    rw [← (List.cons.inj h).2]
    exact hcalm

/-- A character in a literal leaves a stack that agrees with the text: it waits
for nothing but what has just been read. -/
theorem agrees_stepLiteral {q c : Char} {below : List Frame} {before : Text}
    (hq : isQuote q = true) (hbelow : Quoted below) (hcalm : ∀ g ∈ below, g.isCalm = true) :
    Agrees (stepLiteral q c below) (c :: before) := by
  -- whatever mode the literal goes to, its quote stays the same
  have hquoted : ∀ m, Quoted (.literal q m :: below) := by
    intro m
    refine hbelow.cons ?_
    intro q' m' h
    cases h
    exact hq
  unfold stepLiteral
  split
  · next hc => exact .push (hquoted _) hcalm _ (fun _ _ => by rw [hc]; rfl) (fun _ h => by cases h)
  split
  · exact agrees_of_calm hbelow hcalm _
  split
  · next hc =>
    exact .push (hquoted _) hcalm _ (fun _ h => by cases h) (fun _ _ => by rw [hc.2]; rfl)
  · exact .push (hquoted _) hcalm _ (fun _ h => by cases h) (fun _ h => by cases h)

/-- Stack and text go on together. -/
theorem agrees_step {stack : List Frame} {before : Text} (h : Agrees stack before) (c : Char) :
    Agrees (step c stack) (c :: before) := by
  cases stack with
  | nil => exact agrees_of_calm h.quoted (by simp) _
  | cons f below =>
    have hcalm := h.below f below rfl
    have hbelow := h.quoted.tail
    -- only a backslash or a `$` leaves a literal waiting, and it has just been read
    cases f with
    | braces depth =>
      have hbraces : ∀ d, Quoted (.braces d :: below) := fun d => hbelow.cons (fun _ _ h => by cases h)
      have hcalm' : ∀ d, ∀ g ∈ Frame.braces d :: below, g.isCalm = true :=
        fun d => List.forall_mem_cons.2 ⟨rfl, hcalm⟩
      simp only [step]
      split
      · next hq =>
        refine agrees_of_calm ((hbraces depth).cons ?_)
          (List.forall_mem_cons.2 ⟨rfl, hcalm' depth⟩) _
        intro q m hqm
        cases hqm
        exact hq
      split
      · exact agrees_of_calm (hbraces _) (hcalm' _) _
      split
      · split
        · exact agrees_of_calm hbelow hcalm _
        · exact agrees_of_calm (hbraces _) (hcalm' _) _
      · exact agrees_of_calm (hbraces _) (hcalm' _) _
    | literal q m =>
      have hq : isQuote q = true := h.quoted q m List.mem_cons_self
      have hliteral : Quoted (.literal q .plain :: below) := by
        refine hbelow.cons ?_
        intro q' m' hqm
        cases hqm
        exact hq
      have hcalm' : ∀ g ∈ Frame.literal q .plain :: below, g.isCalm = true :=
        List.forall_mem_cons.2 ⟨rfl, hcalm⟩
      cases m with
      | escaped => exact agrees_of_calm hliteral hcalm' _
      | plain => exact agrees_stepLiteral hq hbelow hcalm
      | dollar =>
        rw [step]
        split
        · refine agrees_of_calm (hliteral.cons ?_) (List.forall_mem_cons.2 ⟨rfl, hcalm'⟩) _
          intro q' m' hqm
          cases hqm
        · exact agrees_stepLiteral hq hbelow hcalm

/-- Where a mark can stand, the innermost frame does not wait. -/
theorem isCalm_of_clear {f : Frame} {below : List Frame} {before : Text}
    (h : Agrees (f :: below) before) (hclear : Clear before) : f.isCalm = true := by
  cases f with
  | braces d => rfl
  | literal q m =>
    cases m with
    | plain => rfl
    | escaped => exact absurd (h.escaped q below rfl) hclear.escape
    | dollar =>
      obtain ⟨t, rfl⟩ := List.head?_eq_some_iff.1 (h.dollar q below rfl)
      have hdigit := hclear.digits '$' (by
        rw [List.takeWhile_cons_of_pos (by decide)]
        exact List.mem_cons_self)
      exact absurd hdigit (by decide)

/-- A character of a mark is no quote, backslash or brace. -/
theorem Insertable.ne {c d : Char} (hc : Insertable c) (hd : isIdentifierPart d = false)
    (hne : d ≠ '.' ∧ d ≠ ':' ∧ d ≠ ' ') : c ≠ d := by
  rintro rfl
  rcases hc with hc | hc | hc | hc
  · rw [hd] at hc
    cases hc
  · exact hne.1 hc
  · exact hne.2.1 hc
  · exact hne.2.2 hc

/-- A character of a mark is no quote. -/
theorem Insertable.not_isQuote {c : Char} (hc : Insertable c) : isQuote c = false := by
  have h1 := hc.ne (d := '\'') (by decide) (by decide)
  have h2 := hc.ne (d := '"') (by decide) (by decide)
  have h3 := hc.ne (d := '`') (by decide) (by decide)
  simp [isQuote, h1, h2, h3]

/-- The frame with its literal mode, if it is a literal. -/
def Frame.withMode (m : LiteralMode) : Frame → Frame
  | .literal q _ => .literal q m
  | f => f

/-- A character of a mark leaves the innermost frame open and calm, or after a
`$` waiting for a brace that does not come. -/
theorem step_insertable {f : Frame} {below : List Frame} {m : LiteralMode} {c : Char}
    (hf : f.isCalm = true) (hq : Quoted (f :: below)) (hm : m = .plain ∨ m = .dollar)
    (hc : Insertable c) :
    ∃ m', (m' = .plain ∨ m' = .dollar) ∧ (c ≠ '$' → m' = .plain) ∧
      step c (f.withMode m :: below) = f.withMode m' :: below := by
  have hquote := hc.not_isQuote
  have hopen : c ≠ '{' := hc.ne (by decide) (by decide)
  have hclose : c ≠ '}' := hc.ne (by decide) (by decide)
  have hescape : c ≠ '\\' := hc.ne (by decide) (by decide)
  cases f with
  | braces d =>
    refine ⟨.plain, Or.inl rfl, fun _ => rfl, ?_⟩
    show step c (.braces d :: below) = _
    simp [step, hquote, hopen, hclose, Frame.withMode]
  | literal q k =>
    have hne : c ≠ q := by
      rintro rfl
      rw [hq c k List.mem_cons_self] at hquote
      cases hquote
    -- in a literal only a `$` between backticks changes the mode
    have hliteral : ∃ m', (m' = .plain ∨ m' = .dollar) ∧ (c ≠ '$' → m' = .plain) ∧
        stepLiteral q c below = .literal q m' :: below := by
      unfold stepLiteral
      rw [if_neg hescape, if_neg hne]
      by_cases hd : q = '`' ∧ c = '$'
      · rw [if_pos hd]
        exact ⟨.dollar, Or.inr rfl, fun h => absurd hd.2 h, rfl⟩
      · rw [if_neg hd]
        exact ⟨.plain, Or.inl rfl, fun _ => rfl, rfl⟩
    obtain ⟨m', hm', hplain, hstep⟩ := hliteral
    refine ⟨m', hm', hplain, ?_⟩
    rcases hm with rfl | rfl
    · exact hstep
    · show step c (.literal q .dollar :: below) = _
      rw [step, if_neg hopen]
      exact hstep

/-- After a mark the stack is what it was before it. -/
theorem inside_mark {f : Frame} {below : List Frame} {ins : Text} (hf : f.isCalm = true)
    (hq : Quoted (f :: below)) (hins : ∀ c ∈ ins, Insertable c) (hlast : ∃ init, ins = init ++ ['.']) :
    Inside (f :: below) ins ∧ ins.foldl (fun st x => step x st) (f :: below) = f :: below := by
  have hplain : f.withMode .plain = f := by
    cases f with
    | braces d => rfl
    | literal q m =>
      cases m with
      | plain => rfl
      | escaped => cases hf
      | dollar => cases hf
  -- up to its last character the mark may leave a `$` waiting
  have hrun : ∀ (s : Text) (m : LiteralMode), (∀ c ∈ s, Insertable c) → (m = .plain ∨ m = .dollar) →
      ∃ m', (m' = .plain ∨ m' = .dollar) ∧ Inside (f.withMode m :: below) s ∧
        s.foldl (fun st x => step x st) (f.withMode m :: below) = f.withMode m' :: below := by
    intro s
    induction s with
    | nil =>
      intro m _ hm
      exact ⟨m, hm, List.cons_ne_nil _ _, rfl⟩
    | cons c s ih =>
      intro m hs hm
      obtain ⟨m₁, hm₁, -, hstep⟩ := step_insertable hf hq hm (hs c List.mem_cons_self)
      obtain ⟨m', hm', hin, hfold⟩ := ih m₁ (fun x hx => hs x (List.mem_cons_of_mem c hx)) hm₁
      refine ⟨m', hm', ⟨List.cons_ne_nil _ _, ?_⟩, ?_⟩
      · rw [hstep]
        exact hin
      · rw [List.foldl_cons, hstep]
        exact hfold
  obtain ⟨init, rfl⟩ := hlast
  have hdot : Insertable '.' := hins '.' (by simp)
  obtain ⟨m, hm, hin, hfold⟩ := hrun init .plain (fun c hc => hins c (List.mem_append_left _ hc))
    (Or.inl rfl)
  obtain ⟨m', -, hm', hstep⟩ := step_insertable hf hq hm hdot
  obtain rfl := hm' (by decide)
  rw [hplain] at hin hfold hstep
  constructor
  · obtain ⟨m₂, -, hin₂, -⟩ := hrun (init ++ ['.']) .plain hins (Or.inl rfl)
    rwa [hplain] at hin₂
  · rw [List.foldl_append, hfold]
    exact hstep

/-- A text is inside of frames if each of its parts is, one after the other. -/
theorem inside_append {stack : List Frame} {s t : Text} (hs : Inside stack s)
    (ht : Inside (s.foldl (fun st x => step x st) stack) t) : Inside stack (s ++ t) := by
  induction s generalizing stack with
  | nil => exact ht
  | cons c s ih => exact ⟨hs.1, ih hs.2 ht⟩

/-! ## §3. Marked texts. -/

open MarkedText

/-- Marks do not change where a text takes the stack. -/
theorem inside_new {stack : List Frame} {after before : Text} {A : MarkedText}
    (hv : Valid after before A) (ha : Agrees stack before) (h : Inside stack (old A)) :
    Inside stack (new A) ∧
      (new A).foldl (fun st x => step x st) stack = (old A).foldl (fun st x => step x st) stack := by
  induction A generalizing stack before with
  | nil => exact ⟨h, rfl⟩
  | cons p A ih =>
    obtain ⟨ins, c⟩ := p
    rw [old_cons] at h
    rw [new_cons]
    -- behind the mark and its character the text goes on as without the mark
    obtain ⟨hin, hfold⟩ := ih hv.2 (agrees_step ha c) h.2
    rcases hv.1 with rfl | ⟨-, hmark⟩
    · exact ⟨⟨h.1, hin⟩, hfold⟩
    · obtain ⟨f, below, rfl⟩ := List.exists_cons_of_ne_nil h.1
      obtain ⟨hin', hfold'⟩ := inside_mark (isCalm_of_clear ha hmark.clear) ha.quoted
        hmark.insertable hmark.exists_init
      refine ⟨inside_append hin' ?_, ?_⟩
      · rw [hfold']
        exact ⟨h.1, hin⟩
      · rw [List.foldl_append, hfold']
        exact hfold

/-- The end of a literal is found behind its marked content. -/
theorem closing_new {stack : List Frame} (hs : stack ≠ []) {after before : Text} {A : MarkedText}
    (hv : Valid after before A) (ha : Agrees stack before) {c : Char} {r : Text}
    (h : closing stack (old A ++ c :: r) = some (old A, r)) (r' : Text) :
    closing stack (new A ++ c :: r') = some (new A, r') := by
  obtain ⟨d, heq, hin, hd⟩ := exists_of_closing hs h
  obtain rfl : c = d := (List.cons.inj (List.append_cancel_left heq)).1
  obtain ⟨hin', hfold⟩ := inside_new hv ha hin
  rw [← hfold] at hd
  exact closing_append hin' hd r'

/-- Where no end was found, marks make none. -/
theorem closing_new_none {stack : List Frame} (hs : stack ≠ []) {after before : Text}
    {A : MarkedText} (hv : Valid after before A) (ha : Agrees stack before)
    (h : closing stack (old A) = none) : closing stack (new A) = none := by
  rw [closing_eq_none_iff hs] at h ⊢
  exact (inside_new hv ha h).1

/-- At the start of a literal nothing is waited for. -/
theorem agrees_literal {q : Char} (hq : isQuote q = true) (before : Text) :
    Agrees [.literal q .plain] before := by
  refine agrees_of_calm ?_ (by simp [Frame.isCalm]) before
  intro q' m h
  simp only [List.mem_singleton, Frame.literal.injEq] at h
  rw [h.1]
  exact hq

theorem agrees_braces (d : Nat) (before : Text) : Agrees [.braces d] before := by
  refine agrees_of_calm ?_ (by simp [Frame.isCalm]) before
  intro q m h
  simp at h

/-! ## §4. Double braces. -/

/-- The open inner braces and the literals after one character that does not
end the group. -/
def doubleStep (depth : Nat) (inner : List Frame) (c : Char) : Nat × List Frame :=
  match inner with
  | f :: below => (depth, step c (f :: below))
  | [] =>
    if isQuote c then (depth, [.literal c .plain])
    else if c = '{' then (depth + 1, [])
    else if c = '}' then (depth - 1, [])
    else (depth, [])

/-- One step of the scan for two closing braces. -/
theorem closingDoubleFrom_cons (depth : Nat) (inner : List Frame) (c : Char) (r : Text) :
    closingDoubleFrom depth inner (c :: r) =
      if inner = [] ∧ depth = 0 ∧ c = '}' ∧ r.head? = some '}' then some ([], r.tail)
      else (closingDoubleFrom (doubleStep depth inner c).1 (doubleStep depth inner c).2 r).map
        fun p => (c :: p.1, p.2) := by
  cases inner with
  | cons f below =>
    rw [closingDoubleFrom, if_neg (by simp)]
    rfl
  | nil =>
    rw [closingDoubleFrom]
    -- two braces end the group only at depth zero, outside of literals
    by_cases hend : depth = 0 ∧ c = '}' ∧ r.head? = some '}'
    · rw [if_pos hend, if_pos ⟨rfl, hend⟩]
    · have hend' : ¬ (([] : List Frame) = [] ∧ depth = 0 ∧ c = '}' ∧ r.head? = some '}') :=
        fun h => hend h.2
      rw [if_neg hend, if_neg hend']
      unfold doubleStep
      by_cases hq : isQuote c = true
      · simp only [hq, if_true]
      · simp only [hq, Bool.false_eq_true, if_false]
        by_cases ho : c = '{'
        · simp only [ho, if_true]
        · simp only [ho, if_false]
          by_cases hc : c = '}'
          · simp only [hc, if_true]
          · simp only [hc, if_false]

/-- A mark leaves braces and literals as they are. -/
theorem closingDoubleFrom_mark {depth : Nat} {inner : List Frame} {ins : Text}
    (hcalm : ∀ f ∈ inner.head?, f.isCalm = true) (hq : Quoted inner)
    (hins : ∀ c ∈ ins, Insertable c) (hlast : ∃ init, ins = init ++ ['.']) (t : Text) :
    closingDoubleFrom depth inner (ins ++ t) =
      (closingDoubleFrom depth inner t).map fun p => (ins ++ p.1, p.2) := by
  cases inner with
  | nil =>
    clear hlast
    induction ins with
    | nil => simp
    | cons c ins ih =>
      have hc := hins c List.mem_cons_self
      have hopen : c ≠ '{' := hc.ne (by decide) (by decide)
      have hclose : c ≠ '}' := hc.ne (by decide) (by decide)
      have hstep : doubleStep depth [] c = (depth, []) := by
        simp [doubleStep, hc.not_isQuote, hopen, hclose]
      rw [List.cons_append, closingDoubleFrom_cons, if_neg (fun h => hclose h.2.2.1), hstep,
        ih fun x hx => hins x (List.mem_cons_of_mem c hx), Option.map_map]
      rfl
  | cons f below =>
    obtain ⟨hin, hfold⟩ := inside_mark (hcalm f rfl) hq hins hlast
    -- inside a literal the braces do not count
    have hrun : ∀ (s : Text) (stack : List Frame), Inside stack s →
        closingDoubleFrom depth stack (s ++ t) =
          (closingDoubleFrom depth (s.foldl (fun st x => step x st) stack) t).map
            fun p => (s ++ p.1, p.2) := by
      intro s
      induction s with
      | nil => simp
      | cons c s ih =>
        intro stack hs
        obtain ⟨g, rest, rfl⟩ := List.exists_cons_of_ne_nil hs.1
        rw [List.cons_append, closingDoubleFrom_cons, if_neg (by simp), List.foldl_cons]
        show (closingDoubleFrom depth (step c (g :: rest)) (s ++ t)).map _ = _
        rw [ih _ hs.2, Option.map_map]
        rfl
    rw [hrun ins (f :: below) hin, hfold]

/-- The inner stack agrees with the text before and waits only for it. -/
theorem agrees_doubleStep {depth : Nat} {inner : List Frame} {before : Text}
    (ha : Agrees inner before) (c : Char) : Agrees (doubleStep depth inner c).2 (c :: before) := by
  cases inner with
  | cons f below => exact agrees_step ha c
  | nil =>
    unfold doubleStep
    simp only
    split
    · next hq => exact agrees_literal hq _
    split
    · exact agrees_step ha c
    split <;> exact agrees_step ha c

/-- Marks in front of a character of a double-brace group. -/
theorem closingDoubleFrom_ins {depth : Nat} {inner : List Frame} {after before ins : Text} {c : Char}
    {A : MarkedText} (hv : Valid after before ((ins, c) :: A)) (ha : Agrees inner before) (t : Text) :
    closingDoubleFrom depth inner (ins ++ t) =
      (closingDoubleFrom depth inner t).map fun p => (ins ++ p.1, p.2) := by
  rcases hv.1 with rfl | ⟨-, hmark⟩
  · simp
  · refine closingDoubleFrom_mark ?_ ha.quoted hmark.insertable hmark.exists_init t
    intro f hf
    obtain ⟨below, rfl⟩ := List.head?_eq_some_iff.1 hf
    exact isCalm_of_clear ha hmark.clear

/-- The end of a double-brace group is found behind its marked content. -/
theorem closingDoubleFrom_new {depth : Nat} {inner : List Frame} {after before : Text}
    {A : MarkedText} (hv : Valid after before A) (ha : Agrees inner before) {r : Text}
    (h : closingDoubleFrom depth inner (old A ++ '}' :: '}' :: r) = some (old A, r)) (r' : Text) :
    closingDoubleFrom depth inner (new A ++ '}' :: '}' :: r') = some (new A, r') := by
  induction A generalizing depth inner before with
  | nil =>
    rw [old_nil, List.nil_append, closingDoubleFrom_cons] at h
    rw [new_nil, List.nil_append, closingDoubleFrom_cons]
    split at h
    · next hend => rw [if_pos ⟨hend.1, hend.2.1, rfl, rfl⟩]; rfl
    · obtain ⟨p, -, hp⟩ := Option.map_eq_some_iff.1 h
      cases hp
  | cons p A ih =>
    obtain ⟨ins, c⟩ := p
    rw [old_cons, List.cons_append, closingDoubleFrom_cons] at h
    rw [new_cons, List.append_assoc, closingDoubleFrom_ins hv ha, List.cons_append,
      closingDoubleFrom_cons]
    split at h
    · cases h
    · next hend =>
      obtain ⟨⟨u, v⟩, huv, heq⟩ := Option.map_eq_some_iff.1 h
      simp only [Prod.mk.injEq, List.cons.injEq, true_and] at heq
      obtain ⟨rfl, rfl⟩ := heq
      have hnew := ih hv.2 (agrees_doubleStep ha c) huv
      -- marks do not bring a second brace behind this one
      have hend' : ¬ (inner = [] ∧ depth = 0 ∧ c = '}' ∧
          (new A ++ '}' :: '}' :: r').head? = some '}') := by
        intro hx
        apply hend
        refine ⟨hx.1, hx.2.1, hx.2.2.1, ?_⟩
        have hold := (head?_new_append hv.2 (by decide) _).1 hx.2.2.2
        cases A with
        | nil => rfl
        | cons q A => exact hold
      rw [if_neg hend', hnew]
      rfl

/-- Where no end of a double-brace group was found, marks make none. -/
theorem closingDoubleFrom_new_none {depth : Nat} {inner : List Frame} {after before : Text}
    {A : MarkedText} (hv : Valid after before A) (ha : Agrees inner before)
    (h : closingDoubleFrom depth inner (old A) = none) :
    closingDoubleFrom depth inner (new A) = none := by
  induction A generalizing depth inner before with
  | nil => exact h
  | cons p A ih =>
    obtain ⟨ins, c⟩ := p
    rw [old_cons, closingDoubleFrom_cons] at h
    rw [new_cons, closingDoubleFrom_ins hv ha, closingDoubleFrom_cons]
    split at h
    · cases h
    · next hend =>
      have hnone := Option.map_eq_none_iff.1 h
      -- a brace comes next in the marked text only if one did
      have hhead := head?_new hv.2 (d := '}') (by decide)
      rw [if_neg (fun hx => hend ⟨hx.1, hx.2.1, hx.2.2.1, hhead.1 hx.2.2.2⟩),
        ih hv.2 (agrees_doubleStep ha c) hnone]
      rfl

/-- Where a double-brace group ends, two closing braces stand. -/
theorem exists_of_closingDoubleFrom {depth : Nat} {inner : List Frame} {t content rest : Text}
    (h : closingDoubleFrom depth inner t = some (content, rest)) :
    t = content ++ '}' :: '}' :: rest := by
  induction t generalizing depth inner content with
  | nil => cases inner <;> cases h
  | cons c t ih =>
    rw [closingDoubleFrom_cons] at h
    split at h
    -- the two braces are here
    · next hend =>
      cases h
      obtain ⟨u, rfl⟩ := List.head?_eq_some_iff.1 hend.2.2.2
      rw [hend.2.2.1]
      rfl
    · obtain ⟨⟨u, v⟩, huv, heq⟩ := Option.map_eq_some_iff.1 h
      simp only [Prod.mk.injEq] at heq
      obtain ⟨rfl, rfl⟩ := heq
      rw [ih huv]
      rfl

/-! ## §5. Ends of holes. -/

section Holes

variable {after before : Text} {A : MarkedText}

/-- The brace that closes a text closes the marked text. -/
theorem closingBrace_new (hv : Valid after before A) {r : Text}
    (h : closingBrace (old A ++ '}' :: r) = some (old A, r)) (r' : Text) :
    closingBrace (new A ++ '}' :: r') = some (new A, r') :=
  closing_new (List.cons_ne_nil _ _) hv (agrees_braces 0 _) h r'

/-- Marks close no interpolation. -/
theorem closingBrace_new_none (hv : Valid after before A) (h : closingBrace (old A) = none) :
    closingBrace (new A) = none :=
  closing_new_none (List.cons_ne_nil _ _) hv (agrees_braces 0 _) h

/-- Where no literal is open, nothing is waited for. -/
theorem agrees_nil (before : Text) : Agrees [] before :=
  agrees_of_calm (fun _ _ h => absurd h List.not_mem_nil) (fun _ h => absurd h List.not_mem_nil) _

theorem closingDoubleBrace_new (hv : Valid after before A) {r : Text}
    (h : closingDoubleBrace (old A ++ '}' :: '}' :: r) = some (old A, r)) (r' : Text) :
    closingDoubleBrace (new A ++ '}' :: '}' :: r') = some (new A, r') :=
  closingDoubleFrom_new hv (agrees_nil _) h r'

theorem closingDoubleBrace_new_none (hv : Valid after before A)
    (h : closingDoubleBrace (old A) = none) : closingDoubleBrace (new A) = none :=
  closingDoubleFrom_new_none hv (agrees_nil _) h

end Holes

end QwebReceiver.Expr
