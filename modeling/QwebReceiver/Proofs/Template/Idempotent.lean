import QwebReceiver.Proofs.Template.Qualify

/-!
  QwebReceiver.Proofs.Template.Idempotent — qualifying a text again.

  The document that qualifying writes out is read back with the values that
  were written.  It was settled when it was written, and it is settled still:
  what it is read back as differs in places only.  So the second run finds
  nothing to do, and a document in which nothing was changed is written out as
  it was read.
-/

namespace QwebReceiver.Template

open QwebReceiver.Markup

/-- What it means that a text is edited into another one. -/
theorem editText_eq_ok_iff {edit : Document → Draft ValueError Document} {content out : Text} :
    (editText edit content).outcome = .ok out ↔
      ∃ d, Document.parse ⟨content, defaultUrl⟩ = .ok d ∧ (edit d).failure = none ∧
        (edit d).value.render = out := by
  unfold editText readDocument
  cases hparse : Document.parse ⟨content, defaultUrl⟩ with
  | error problems => simp
  | ok d =>
    cases hfailure : (edit d).failure with
    | none => simp [hfailure]
    | some e => simp [hfailure]

/-- Qualifying a document keeps its source, and its nodes but for what they
grow by. -/
theorem alike_qualifyDocument (vars : CorpusVars) (d : Document) :
    (qualifyDocument vars d).value.source = d.source ∧
      Node.AlikeAll marked none d.nodes (qualifyDocument vars d).value.nodes := by
  rw [qualifyDocument_eq]
  exact ⟨rfl, (settling_qualifyRoots vars).edits d.nodes⟩

/-- A document whose roots have nothing left to qualify. -/
theorem qualifyDocument_of_stays {vars : CorpusVars} {d : Document}
    (h : Stays (qualifyRoots vars) d.nodes) : Stays (qualifyDocument vars) d := by
  refine ⟨?_, ?_⟩
  · rw [qualifyDocument_eq]
    exact h.failure
  · rw [qualifyDocument_eq]
    exact congrArg (fun nodes => { d with nodes }) h.value

/-- A text that was qualified is the text of a settled document, which differs
from the one that was qualified in places only. -/
theorem exists_reread_of_qualifyText {vars : CorpusVars} {content out : Text}
    (h : (qualifyText vars content).outcome = .ok out) :
    ∃ d d₂, Document.parse ⟨content, defaultUrl⟩ = .ok d ∧ (qualifyDocument vars d).failure = none ∧
      Document.parse ⟨out, defaultUrl⟩ = .ok d₂ ∧
      Node.AlikeAll Likeness.reread none (qualifyDocument vars d).value.nodes d₂.nodes ∧
      Stays (qualifyRoots vars) d₂.nodes := by
  obtain ⟨d, hparse, hfailure, rfl⟩ := editText_eq_ok_iff.1 h
  obtain ⟨hsource, hmarked⟩ := alike_qualifyDocument vars d
  obtain ⟨d₂, hparse₂, hreread⟩ :=
    exists_parse_render hparse hsource (hmarked.mono marked_le_edited) defaultUrl
  have hsettled : Stays (qualifyRoots vars) (qualifyDocument vars d).value.nodes := by
    rw [qualifyDocument_eq] at hfailure ⊢
    exact (settling_qualifyRoots vars).settles d.nodes hfailure
  exact ⟨d, d₂, hparse, hfailure, hparse₂, hreread,
    (settling_qualifyRoots vars).lasts _ _ hsettled (hreread.mono reread_le_grown)⟩

/-- A text that was qualified is qualified: to qualify it again, against the
same variables, goes through and changes nothing. -/
theorem qualifyText_idempotent {vars : CorpusVars} {content out : Text}
    (h : (qualifyText vars content).outcome = .ok out) :
    (qualifyText vars out).outcome = .ok out := by
  obtain ⟨d, d₂, -, -, hparse₂, -, hsettled⟩ := exists_reread_of_qualifyText h
  have hagain : Stays (qualifyDocument vars) d₂ := qualifyDocument_of_stays hsettled
  refine editText_eq_ok_iff.2 ⟨d₂, hparse₂, hagain.failure, ?_⟩
  rw [hagain.value]
  exact render_of_parse hparse₂

/-- A loop variable, a shorthand property and a reference. -/
theorem qualifyText_idempotent_sample :
    (qualifyText {} "<t t-name='a' t-as='i' t-if='{i,x}&lt;y'/>".toList).outcome =
        .ok "<t t-name='a' t-as='i' t-if='{i,x: this.x}&lt;this.y'/>".toList ∧
      (qualifyText {} "<t t-name='a' t-as='i' t-if='{i,x: this.x}&lt;this.y'/>".toList).outcome =
        .ok "<t t-name='a' t-as='i' t-if='{i,x: this.x}&lt;this.y'/>".toList := by
  have h : (qualifyText {} "<t t-name='a' t-as='i' t-if='{i,x}&lt;y'/>".toList).outcome =
      .ok "<t t-name='a' t-as='i' t-if='{i,x: this.x}&lt;this.y'/>".toList := by
    decide +kernel
  exact ⟨h, qualifyText_idempotent h⟩

end QwebReceiver.Template
