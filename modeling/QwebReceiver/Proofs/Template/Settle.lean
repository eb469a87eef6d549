import QwebReceiver.Proofs.Template.Growth

/-!
  QwebReceiver.Proofs.Template.Settle — edits that have nothing left to do.

  A document is qualified by many edits, one after the other, each made at
  many places.  That a second run changes nothing is put together from what
  each of them does for itself (`Settling`): it lets values grow, a second
  pass of it changes nothing, and what it does not change it does not change
  either after others have let it grow.  The last of these makes the property
  hold for a sequence of edits (`Settling.andThen`), for edits at many places
  (`Settling.each`, `Settling.visit`), and for edits chosen by something that
  does not change itself (`Settling.of_key`).
-/

namespace QwebReceiver.Template

open QwebReceiver.Markup

variable {ε α κ : Type}

/-! ## §1. Drafts that change nothing. -/

/-- The edit goes through and changes nothing.  A pass that leaves a document
alone has an edit like this at each of its nodes. -/
structure Stays (f : α → Draft ε α) (a : α) : Prop where
  failure : (f a).failure = none
  value : (f a).value = a

/-- Whether something stays depends on what the edit does to it. -/
theorem stays_congr {f g : α → Draft ε α} {a : α} (h : f a = g a) : Stays f a ↔ Stays g a := by
  constructor
  · rintro ⟨hfailure, hvalue⟩
    exact ⟨h ▸ hfailure, h ▸ hvalue⟩
  · rintro ⟨hfailure, hvalue⟩
    exact ⟨h ▸ hfailure, h ▸ hvalue⟩

theorem stays_done (a : α) : Stays (Draft.done : α → Draft ε α) a := ⟨rfl, rfl⟩

/-- An edit made under a condition. -/
theorem stays_ite_iff {f : α → Draft ε α} {p : α → Bool} {a : α} :
    Stays (fun a => if p a = true then f a else .done a) a ↔ (p a = true → Stays f a) := by
  by_cases h : p a = true
  · have hpos : (if p a = true then f a else .done a) = f a := if_pos h
    refine (stays_congr hpos).trans ?_
    exact ⟨fun hs _ => hs, fun hs => hs h⟩
  · have hneg : (if p a = true then f a else .done a) = .done a := if_neg h
    refine (stays_congr hneg).trans ?_
    exact ⟨fun _ hp => absurd hp h, fun _ => stays_done a⟩

section Drafts

variable {f g : α → Draft ε α} {d : Draft ε α} {e : ε}

/-- After a failure nothing more is done. -/
theorem andThen_of_failure (h : d.failure = some e) : d.andThen g = d := by
  rw [Draft.andThen, h]

theorem failure_andThen (h : d.failure = none) :
    (d.andThen g).failure = (g d.value).failure := by
  rw [Draft.andThen, h]

theorem value_andThen (h : d.failure = none) : (d.andThen g).value = (g d.value).value := by
  rw [Draft.andThen, h]

/-- Two edits go through only if the first one does. -/
theorem failure_of_andThen (h : (d.andThen g).failure = none) : d.failure = none := by
  cases hd : d.failure with
  | none => rfl
  | some e =>
    rw [andThen_of_failure hd, hd] at h
    cases h

/-- A member that fails leaves those behind it as they are. -/
theorem each_cons_of_failure {a : α} (rest : List α) (h : (f a).failure = some e) :
    Draft.each f (a :: rest) = (f a).map (· :: rest) := by
  rw [Draft.each]
  simp only [h]

/-- Behind a member that goes through the others decide. -/
theorem each_cons {a : α} (rest : List α) (h : (f a).failure = none) :
    (Draft.each f (a :: rest)).failure = (Draft.each f rest).failure ∧
      (Draft.each f (a :: rest)).value = (f a).value :: (Draft.each f rest).value := by
  rw [Draft.each]
  simp only [h, and_self]

/-- A failure at one place is a failure of the whole. -/
theorem failure_of_each_cons {a : α} {rest : List α} (h : (Draft.each f (a :: rest)).failure = none) :
    (f a).failure = none ∧ (Draft.each f rest).failure = none := by
  cases ha : (f a).failure with
  | none =>
    rw [(each_cons rest ha).1] at h
    exact ⟨rfl, h⟩
  | some e =>
    rw [each_cons_of_failure rest ha, Draft.map, ha] at h
    cases h

/-- A list is left alone if each member is. -/
theorem stays_each_iff {as : List α} : Stays (Draft.each f) as ↔ ∀ a ∈ as, Stays f a := by
  induction as with
  | nil =>
    constructor
    · intro _ a ha
      cases ha
    · intro _
      exact ⟨rfl, rfl⟩
  | cons a rest ih =>
    constructor
    · rintro ⟨hfailure, hvalue⟩
      -- nothing failed, so every member was edited
      obtain ⟨ha, hrest⟩ := failure_of_each_cons hfailure
      rw [(each_cons rest ha).2] at hvalue
      obtain ⟨hv, hvs⟩ := List.cons.inj hvalue
      exact List.forall_mem_cons.2 ⟨⟨ha, hv⟩, ih.1 ⟨hrest, hvs⟩⟩
    · intro h
      obtain ⟨ha, hrest⟩ := List.forall_mem_cons.1 h
      have hs := ih.2 hrest
      obtain ⟨hfailure, hvalue⟩ := each_cons rest ha.failure
      refine ⟨hfailure.trans hs.failure, ?_⟩
      rw [hvalue, ha.value, hs.value]

end Drafts

/-! ## §2. Edits that settle. -/

/-- How things compare: what qualifying makes of a thing, and, more coarsely,
what has grown from it. -/
structure Growth (α : Type) where
  edits : α → α → Prop
  grows : α → α → Prop
  refl : ∀ a, edits a a
  trans : ∀ {a b c}, edits a b → edits b c → edits a c
  antisymm : ∀ {a b}, edits a b → edits b a → b = a
  grows_of_edits : ∀ {a b}, edits a b → grows a b

/-- The edit lets things grow, a second pass of it changes nothing, and what
it leaves alone may grow. -/
structure Settling (G : Growth α) (f : α → Draft ε α) : Prop where
  edits : ∀ a, G.edits a (f a).value
  settles : ∀ a, (f a).failure = none → Stays f (f a).value
  lasts : ∀ a b, Stays f a → G.grows a b → Stays f b

variable {G : Growth α} {f g : α → Draft ε α}

theorem settling_done (G : Growth α) : Settling G (Draft.done : α → Draft ε α) where
  edits a := G.refl a
  settles a _ := stays_done a
  lasts _ b _ _ := stays_done b

namespace Settling

/-- A sequence of edits changes nothing only if none of them does: what one
of them lets grow, the others do not take back. -/
theorem stays_andThen_iff (hf : Settling G f) (hg : Settling G g) {a : α} :
    Stays (fun a => (f a).andThen g) a ↔ Stays f a ∧ Stays g a := by
  constructor
  · rintro ⟨hfailure, hvalue⟩
    have hnone := failure_of_andThen hfailure
    -- the second edit only grows, so what it makes of the first is above it and equal
    -- to `a`
    have hback : G.edits (f a).value a := by
      have hedit := hg.edits (f a).value
      rwa [← value_andThen (g := g) hnone, hvalue] at hedit
    have hfa : (f a).value = a := G.antisymm (hf.edits a) hback
    rw [failure_andThen hnone, hfa] at hfailure
    rw [value_andThen hnone, hfa] at hvalue
    exact ⟨⟨hnone, hfa⟩, ⟨hfailure, hvalue⟩⟩
  · rintro ⟨hfa, hga⟩
    refine ⟨?_, ?_⟩
    · show ((f a).andThen g).failure = none
      rw [failure_andThen hfa.failure, hfa.value, hga.failure]
    · show ((f a).andThen g).value = a
      rw [value_andThen hfa.failure, hfa.value, hga.value]

/-- Two edits that settle do so one after the other: what the first one leaves
alone, it leaves alone also after the second one has let it grow. -/
theorem andThen (hf : Settling G f) (hg : Settling G g) : Settling G fun a => (f a).andThen g where
  edits a := by
    cases h : (f a).failure with
    | none =>
      rw [value_andThen h]
      exact G.trans (hf.edits a) (hg.edits _)
    | some e =>
      rw [andThen_of_failure h]
      exact hf.edits a
  settles a h := by
    have hnone := failure_of_andThen h
    rw [failure_andThen hnone] at h
    rw [value_andThen hnone]
    -- the second edit lets grow what the first has settled
    have hlasts := hf.lasts _ _ (hf.settles a hnone) (G.grows_of_edits (hg.edits (f a).value))
    exact (hf.stays_andThen_iff hg).2 ⟨hlasts, hg.settles _ h⟩
  lasts a b ha hab := by
    obtain ⟨hfa, hga⟩ := (hf.stays_andThen_iff hg).1 ha
    exact (hf.stays_andThen_iff hg).2 ⟨hf.lasts a b hfa hab, hg.lasts a b hga hab⟩

/-- One edit after the other. -/
theorem foldl {ι : Type} {step : ι → α → Draft ε α} (hstep : ∀ i, Settling G (step i))
    (l : List ι) (hf : Settling G f) :
    Settling G fun a => l.foldl (fun d i => d.andThen (step i)) (f a) := by
  induction l generalizing f with
  | nil => exact hf
  | cons i l ih => exact ih (hf.andThen (hstep i))

/-- An edit chosen by a key.  The key may change when things grow, if the edit
then chosen leaves alone what the other one did. -/
theorem of_key {R : κ → κ → Prop} (key : α → κ) (edit : κ → α → Draft ε α)
    (hedit : ∀ k, Settling G (edit k)) (hkey : ∀ a b, G.grows a b → R (key a) (key b))
    (hR : ∀ k k' a, R k k' → Stays (edit k) a → Stays (edit k') a) :
    Settling G fun a => edit (key a) a where
  edits a := (hedit (key a)).edits a
  settles a h := by
    have hs := (hedit (key a)).settles a h
    have hk := hkey _ _ (G.grows_of_edits ((hedit (key a)).edits a))
    exact ⟨(hR _ _ _ hk hs).failure, (hR _ _ _ hk hs).value⟩
  lasts a b ha hab := by
    have hs := (hedit (key a)).lasts a b ⟨ha.failure, ha.value⟩ hab
    have hk := hR _ _ _ (hkey a b hab) hs
    exact ⟨hk.failure, hk.value⟩

/-- An edit chosen by something that does not change when things grow. -/
theorem of_key_eq (key : α → κ) (edit : κ → α → Draft ε α) (hedit : ∀ k, Settling G (edit k))
    (hkey : ∀ a b, G.grows a b → key b = key a) : Settling G fun a => edit (key a) a := by
  refine of_key (R := fun k k' => k' = k) key edit hedit hkey ?_
  rintro k _ a rfl hs
  exact hs

/-- An edit under a condition that growing does not change, and another one
otherwise. -/
theorem ite {p : α → Bool} (hf : Settling G f) (hg : Settling G g)
    (hp : ∀ a b, G.grows a b → p b = p a) :
    Settling G fun a => if p a = true then f a else g a := by
  refine of_key_eq p (fun k a => if k = true then f a else g a) ?_ hp
  intro k
  cases k with
  | true => exact hf
  | false => exact hg

/-- Notes do not matter. -/
theorem of_eq (hf : Settling G f) (hfailure : ∀ a, (g a).failure = (f a).failure)
    (hvalue : ∀ a, (g a).value = (f a).value) : Settling G g := by
  have hstays : ∀ {a}, Stays g a ↔ Stays f a := by
    intro a
    constructor
    · rintro ⟨h, h'⟩
      exact ⟨hfailure a ▸ h, hvalue a ▸ h'⟩
    · rintro ⟨h, h'⟩
      exact ⟨(hfailure a).trans h, (hvalue a).trans h'⟩
  refine ⟨?_, ?_, ?_⟩
  · intro a
    rw [hvalue]
    exact hf.edits a
  · intro a h
    rw [hfailure] at h
    rw [hvalue]
    exact hstays.2 (hf.settles a h)
  · intro a b ha hab
    exact hstays.2 (hf.lasts a b (hstays.1 ha) hab)

/-- An edit that is made where a key is found, chosen by that key. -/
theorem of_option (key : α → Option κ) (edit : κ → α → Draft ε α)
    (hedit : ∀ k, Settling G (edit k)) (hkey : ∀ a b, G.grows a b → key b = key a)
    (hnone : ∀ a, key a = none → Stays f a)
    (hsome : ∀ a k, key a = some k →
      (f a).failure = (edit k a).failure ∧ (f a).value = (edit k a).value) : Settling G f := by
  -- the edit is the chosen one, which depends on nothing but the key
  have hchosen : Settling G fun a => ((key a).map fun k => edit k a).getD (.done a) := by
    refine of_key_eq key (fun k a => (k.map fun k => edit k a).getD (.done a)) ?_ hkey
    intro k
    cases k with
    | none => exact settling_done G
    | some k => exact hedit k
  refine hchosen.of_eq ?_ ?_
  · intro a
    cases hk : key a with
    | none => exact (hnone a hk).failure
    | some k => exact (hsome a k hk).1
  · intro a
    cases hk : key a with
    | none => exact (hnone a hk).value
    | some k => exact (hsome a k hk).2

/-- The same edit of things that compare in another way. -/
theorem of_le {H : Growth α} (hf : Settling G f) (hedits : ∀ a b, G.edits a b → H.edits a b)
    (hgrows : ∀ a b, H.grows a b → G.grows a b) : Settling H f where
  edits a := hedits _ _ (hf.edits a)
  settles := hf.settles
  lasts a b ha hab := hf.lasts a b ha (hgrows a b hab)

end Settling

/-! ## §3. Lists. -/

/-- Lists compare member by member, so that a pass over the members is a pass
over the list. -/
def listGrowth (G : Growth α) : Growth (List α) where
  edits := List.Forall₂ G.edits
  grows := List.Forall₂ G.grows
  refl _ := List.forall₂_same.2 fun a _ => G.refl a
  trans h h' := (forall₂_comp h h').imp fun _ _ ⟨_, hab, hbc⟩ => G.trans hab hbc
  antisymm h h' := forall₂_antisymm G.antisymm h h'
  grows_of_edits h := h.imp fun _ _ hab => G.grows_of_edits hab

/-- An edit that settles things settles lists of them. -/
theorem Settling.each (hf : Settling G f) : Settling (listGrowth G) (Draft.each f) where
  edits as := by
    induction as with
    | nil => exact List.Forall₂.nil
    | cons a rest ih =>
      -- after a failure the rest stays as it was
      cases h : (f a).failure with
      | none =>
        rw [(each_cons rest h).2]
        exact List.Forall₂.cons (hf.edits a) ih
      | some e =>
        rw [each_cons_of_failure rest h]
        exact List.Forall₂.cons (hf.edits a) ((listGrowth G).refl rest)
  settles as h := by
    rw [stays_each_iff]
    induction as with
    | nil =>
      intro b hb
      cases hb
    | cons a rest ih =>
      obtain ⟨ha, hrest⟩ := failure_of_each_cons h
      rw [(each_cons rest ha).2]
      exact List.forall_mem_cons.2 ⟨hf.settles a ha, ih hrest⟩
  lasts as bs h hab := by
    rw [stays_each_iff] at h ⊢
    induction hab with
    | nil => exact h
    | cons hhead _ ih =>
      obtain ⟨ha, hrest⟩ := List.forall_mem_cons.1 h
      exact List.forall_mem_cons.2 ⟨hf.lasts _ _ ha hhead, ih hrest⟩

/-! ## §4. Trees. -/

/-- Start tags. -/
def tagGrowth : Growth Tag where
  edits := Tag.Alike marked
  grows := Tag.Alike grown
  refl := Tag.Alike.refl marked_refl
  trans h h' := (h.trans h').mono marked_trans
  antisymm h h' := h.antisymm marked_antisymm h'
  grows_of_edits h := h.mono marked_le_grown

/-- Nodes, wherever they stand: an edit may not depend on whether the node is
the first of its list. -/
def nodeGrowth : Growth Node where
  edits n m := ∀ first, n.Alike marked first m
  grows n m := ∃ first, n.Alike grown first m
  refl n first := Node.Alike.refl marked_refl first n
  trans h h' first := ((h first).trans (h' first)).mono marked_trans
  antisymm h h' := (h none).antisymm marked_antisymm (h' none)
  grows_of_edits h := ⟨none, (h none).mono marked_le_grown⟩

/-- Nodes that compare one by one compare side by side, whatever stands around
them. -/
theorem alikeAll_of_forall₂ {ns ms : List Node} (h : List.Forall₂ nodeGrowth.edits ns ms)
    (first : Option Text) : Node.AlikeAll marked first ns ms := by
  induction h generalizing first with
  | nil => rfl
  | cons hn _ ih => exact ⟨_, _, rfl, hn first, ih none⟩

/-- Nodes that compare side by side compare one by one. -/
theorem forall₂_of_alikeAll {ns ms : List Node} {first : Option Text}
    (h : Node.AlikeAll grown first ns ms) : List.Forall₂ nodeGrowth.grows ns ms := by
  induction ns generalizing ms first with
  | nil =>
    obtain rfl : ms = [] := h
    exact .nil
  | cons n ns ih =>
    obtain ⟨m, ms', rfl, hn, hns⟩ := h
    exact .cons ⟨first, hn⟩ (ih hns)

/-- The nodes of a document. -/
def rootsGrowth : Growth (List Node) where
  edits := Node.AlikeAll marked none
  grows := Node.AlikeAll grown none
  refl := Node.AlikeAll.refl marked_refl none
  trans h h' := (h.trans h').mono marked_trans
  antisymm h h' := h.antisymm marked_antisymm h'
  grows_of_edits h := h.mono marked_le_grown

/-- An edit that settles nodes settles the roots of a document. -/
theorem Settling.eachRoot {f : Node → Draft ε Node} (hf : Settling nodeGrowth f) :
    Settling rootsGrowth (Draft.each f) :=
  hf.each.of_le (fun _ _ h => alikeAll_of_forall₂ h none) fun _ _ h => forall₂_of_alikeAll h

section Trees

variable {f g : Node → Draft ε Node} {enter : Tag → Bool}

/-- An edit of elements, which leaves every other node alone. -/
theorem settling_of_element (hother : ∀ n, n.tag? = none → Stays f n)
    (hedits : ∀ tag children close, ∃ tag' children',
      (f (.element tag children close)).value = .element tag' children' close ∧
        tag.Alike marked tag' ∧ Node.AlikeAll marked (some tag.name) children children')
    (hsettles : ∀ tag children close, (f (.element tag children close)).failure = none →
      Stays f (f (.element tag children close)).value)
    (hlasts : ∀ {tag tag' children children'} close close', Stays f (.element tag children close) →
      tag.Alike grown tag' → Node.AlikeAll grown (some tag.name) children children' →
      Stays f (.element tag' children' close')) : Settling nodeGrowth f where
  edits n first := by
    cases n with
    | element tag children close =>
      obtain ⟨tag', children', hvalue, htag, hchildren⟩ := hedits tag children close
      exact ⟨tag', children', close, hvalue, htag, hchildren, close_refl marked_refl close⟩
    | _ =>
      rw [(hother _ rfl).value]
      exact Node.Alike.refl marked_refl first _
  settles n h := by
    cases n with
    | element tag children close => exact hsettles tag children close h
    | _ =>
      rw [(hother _ rfl).value]
      exact hother _ rfl
  -- a node grows into one of its own kind, so only an element is left to look at
  lasts n m hn hnm := by
    obtain ⟨first, halike⟩ := hnm
    cases n with
    | element tag children close =>
      obtain ⟨tag', children', close', rfl, htag, hchildren, -⟩ := halike
      exact hlasts close close' hn htag hchildren
    | text d =>
      obtain ⟨d', rfl, -⟩ := halike
      exact hother _ rfl
    | comment v s =>
      obtain ⟨s', rfl, -⟩ := halike
      exact hother _ rfl
    | instruction v s =>
      obtain ⟨s', rfl, -⟩ := halike
      exact hother _ rfl
    | doctype v s =>
      obtain ⟨s', rfl, -⟩ := halike
      exact hother _ rfl

/-- An edit of the tag leaves an element alone if it leaves the tag alone. -/
theorem stays_editTag_iff {f : Tag → Draft ε Tag} {tag : Tag} {children : List Node}
    {close : Option Span} :
    Stays (Node.editTag f) (.element tag children close) ↔ Stays f tag := by
  constructor
  · rintro ⟨h, h'⟩
    exact ⟨h, (Node.element.inj h').1⟩
  · rintro ⟨h, h'⟩
    refine ⟨h, ?_⟩
    show Node.element (f tag).value children close = _
    rw [h']

/-- An edit that settles tags settles the elements that have them. -/
theorem Settling.editTag {f : Tag → Draft ε Tag} (hf : Settling tagGrowth f) :
    Settling nodeGrowth (Node.editTag f) := by
  refine settling_of_element ?_ ?_ ?_ ?_
  · intro n hn
    cases n with
    | element tag children close => cases hn
    | _ => exact ⟨rfl, rfl⟩
  · intro tag children close
    exact ⟨_, _, rfl, hf.edits tag, Node.AlikeAll.refl marked_refl _ _⟩
  · intro tag children close h
    exact stays_editTag_iff.2 (hf.settles tag h)
  · intro tag tag' children children' close close' hs htag _
    exact stays_editTag_iff.2 (hf.lasts _ _ (stays_editTag_iff.1 hs) htag)

/-- Edits the nodes right below an element.  A node that is no element has none,
and stays. -/
def editChildren (f : Node → Draft ε Node) : Node → Draft ε Node
  | .element tag children close =>
    (Draft.each f children).map fun children => .element tag children close
  | n => .done n

/-- An element is left alone if what is right below it is. -/
theorem stays_editChildren_iff {tag : Tag} {children : List Node} {close : Option Span} :
    Stays (editChildren f) (.element tag children close) ↔ Stays (Draft.each f) children := by
  constructor
  · rintro ⟨h, h'⟩
    exact ⟨h, (Node.element.inj h').2.1⟩
  · rintro ⟨h, h'⟩
    refine ⟨h, ?_⟩
    show Node.element tag (Draft.each f children).value close = _
    rw [h']

/-- An edit that settles nodes settles them below an element. -/
theorem Settling.editChildren (hf : Settling nodeGrowth f) :
    Settling nodeGrowth (editChildren f) := by
  refine settling_of_element ?_ ?_ ?_ ?_
  · intro n hn
    cases n with
    | element tag children close => cases hn
    | _ => exact ⟨rfl, rfl⟩
  · intro tag children close
    exact ⟨_, _, rfl, Tag.Alike.refl marked_refl tag,
      alikeAll_of_forall₂ (hf.each.edits children) _⟩
  · intro tag children close h
    exact stays_editChildren_iff.2 (hf.each.settles children h)
  · intro tag tag' children children' close close' hs _ hchildren
    exact stays_editChildren_iff.2
      (hf.each.lasts _ _ (stays_editChildren_iff.1 hs) (forall₂_of_alikeAll hchildren))

/-! ## §5. Walks. -/

theorem visitWithin_zero (n : Node) : Node.visitWithin enter f 0 n = .done n := by
  cases n <;> rfl

/-- One step of a walk: the element itself, then what is admitted below it. -/
theorem visitWithin_succ (depth : Nat) (n : Node) :
    Node.visitWithin enter f (depth + 1) n =
      if n.tag?.isSome = true then
        (f n).andThen (editChildren fun c =>
          if (c.tag?.map enter).getD false = true then Node.visitWithin enter f depth c else .done c)
      else .done n := by
  cases n with
  | element tag children close =>
    rw [Node.visitWithin, Node.tag?, Option.isSome_some, if_pos rfl]
    congr 1
  | _ => rfl

/-- An element stays one when values grow, and nothing becomes one. -/
theorem isSome_tag?_of_grows (n m : Node) (h : nodeGrowth.grows n m) :
    m.tag?.isSome = n.tag?.isSome := by
  obtain ⟨first, halike⟩ := h
  have hmap := tag?_map_of_grown (g := fun _ => ()) (fun _ _ _ => rfl) halike
  simpa using congrArg Option.isSome hmap

section Enter

variable (henter : ∀ t u : Tag, t.Alike grown u → enter u = enter t)
include henter

/-- A walk goes on with a grown node as with the node, if growing does not
change what it decides by. -/
theorem admitted_of_grows (n m : Node) (h : nodeGrowth.grows n m) :
    (m.tag?.map enter).getD false = (n.tag?.map enter).getD false := by
  obtain ⟨first, halike⟩ := h
  rw [tag?_map_of_grown henter halike]

/-- What a walk does below an element. -/
theorem Settling.admitted (hf : Settling nodeGrowth f) : Settling nodeGrowth fun c : Node =>
    if (c.tag?.map enter).getD false = true then f c else .done c :=
  hf.ite (settling_done nodeGrowth) (admitted_of_grows henter)

/-- A walk settles what its edit settles at each place, however deep it may go. -/
theorem Settling.visitWithin (hf : Settling nodeGrowth f) (depth : Nat) :
    Settling nodeGrowth (Node.visitWithin enter f depth) := by
  induction depth with
  | zero =>
    rw [funext visitWithin_zero]
    exact settling_done nodeGrowth
  | succ depth ih =>
    rw [funext (visitWithin_succ depth)]
    exact (hf.andThen (ih.admitted henter).editChildren).ite (settling_done nodeGrowth)
      isSome_tag?_of_grows

/-- A walk settles what its edit settles at each place. -/
theorem Settling.visit (hf : Settling nodeGrowth f) : Settling nodeGrowth (Node.visit enter f) := by
  refine Settling.of_key_eq Node.height (Node.visitWithin enter f) (hf.visitWithin henter) ?_
  rintro n m ⟨first, halike⟩
  exact height_of_grown halike

/-- A walk changes nothing if its edit changes nothing at any place it comes to. -/
theorem Settling.stays_visitWithin_iff (hf : Settling nodeGrowth f) {depth : Nat} {tag : Tag}
    {children : List Node} {close : Option Span} :
    Stays (Node.visitWithin enter f (depth + 1)) (.element tag children close) ↔
      Stays f (.element tag children close) ∧ ∀ c ∈ children,
        (c.tag?.map enter).getD false = true → Stays (Node.visitWithin enter f depth) c := by
  have hbelow := ((hf.visitWithin henter depth).admitted henter).editChildren
  have hwalk := hf.stays_andThen_iff hbelow (a := .element tag children close)
  refine (stays_congr (visitWithin_succ depth _)).trans (hwalk.trans ?_)
  rw [stays_editChildren_iff, stays_each_iff]
  exact and_congr_right' (forall₂_congr fun c _ => stays_ite_iff)

/-- A walk with an edit that does less changes nothing where the other does not. -/
theorem Stays.visitWithin_mono (hf : Settling nodeGrowth f) (hg : Settling nodeGrowth g)
    (hfg : ∀ n, Stays f n → Stays g n) {depth : Nat} {n : Node}
    (h : Stays (Node.visitWithin enter f depth) n) : Stays (Node.visitWithin enter g depth) n := by
  induction depth generalizing n with
  | zero =>
    rw [stays_congr (visitWithin_zero n)]
    exact stays_done n
  | succ depth ih =>
    cases n with
    | element tag children close =>
      rw [hf.stays_visitWithin_iff henter] at h
      rw [hg.stays_visitWithin_iff henter]
      exact ⟨hfg _ h.1, fun c hc hadmitted => ih (h.2 c hc hadmitted)⟩
    | _ => exact ⟨rfl, rfl⟩

/-- A walk with an edit that does less changes nothing where the other does not,
to whatever depth. -/
theorem Stays.visit_mono (hf : Settling nodeGrowth f) (hg : Settling nodeGrowth g)
    (hfg : ∀ n, Stays f n → Stays g n) {n : Node} (h : Stays (Node.visit enter f) n) :
    Stays (Node.visit enter g) n := by
  have hwithin : Stays (Node.visitWithin enter f n.height) n := ⟨h.failure, h.value⟩
  have hmono := hwithin.visitWithin_mono henter hf hg hfg
  exact ⟨hmono.failure, hmono.value⟩

end Enter

end Trees

end QwebReceiver.Template
