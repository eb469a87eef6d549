import QwebReceiver.Expr.Qualify

/-!
  QwebReceiver.Selector — the clauses of a patch's selector.

  A patch selects nodes of a template by the values of their directives:
  `//t[@t-if='state.items']`.  Such a clause is `@t-`, a name, an equals sign
  and a value between apostrophes, on one line.  The value is an expression of
  the selected template and is qualified like the directive it is compared
  with; the value of `@t-call` is a dynamic string.
-/

namespace QwebReceiver

open QwebReceiver.Text

/-! ## §1. Clauses. -/

/-- A part of a selector: one character, or a clause on a directive. -/
inductive SelectorPart where
  | plain (c : Char)
  | clause (name value : Text)
  deriving Repr, DecidableEq

namespace SelectorPart

/-- The part as it is written. -/
def render : SelectorPart → Text
  | .plain c => [c]
  | .clause name value => "@t-".toList ++ name ++ "='".toList ++ value ++ ['\'']

/-- A character of a clause's name. -/
def isClauseNameChar (c : Char) : Bool := isWordChar c || c == '-'

/-- A character of a clause's value. -/
def isClauseValueChar (c : Char) : Bool := c != '\'' && c != '\n'

/-- The name and the value of the clause that follows `@t-`, and what comes
after it. -/
def clauseBody? (t : Text) : Option (Text × Text × Text) :=
  let name := t.takeWhile isClauseNameChar
  if name.isEmpty then none
  else
    match t.dropWhile isClauseNameChar with
    | '=' :: '\'' :: r =>
      match r.dropWhile isClauseValueChar with
      | '\'' :: rest => some (name, r.takeWhile isClauseValueChar, rest)
      | _ => none
    | _ => none

theorem length_of_clauseBody? {t name value rest : Text}
    (h : clauseBody? t = some (name, value, rest)) : rest.length < t.length := by
  simp only [clauseBody?] at h
  by_cases hname : (t.takeWhile isClauseNameChar).isEmpty = true
  · simp [hname] at h
  · rw [if_neg hname] at h
    split at h
    · next r hr =>
      split at h
      · next rest' hr' =>
        simp only [Option.some.injEq, Prod.mk.injEq] at h
        obtain ⟨-, -, rfl⟩ := h
        have h1 := Expr.length_dropWhile_le isClauseNameChar t
        have h2 := Expr.length_dropWhile_le isClauseValueChar r
        rw [hr] at h1
        rw [hr'] at h2
        simp only [List.length_cons] at h1 h2
        omega
      · simp at h
    · simp at h

/-- The parts of a selector; clauses are found from left to right and do not
overlap. -/
def ofSelector (t : Text) : List SelectorPart :=
  match t with
  | [] => []
  | '@' :: 't' :: '-' :: r =>
    match h : clauseBody? r with
    | some (name, value, rest) =>
      have : rest.length < r.length + 3 := by
        have := length_of_clauseBody? h
        omega
      .clause name value :: ofSelector rest
    | none => .plain '@' :: ofSelector ('t' :: '-' :: r)
  | c :: r => .plain c :: ofSelector r
termination_by t.length

end SelectorPart

/-! ## §2. Qualifying a selector. -/

namespace Selector

/-- The clause that names a called template. -/
def callClause : Text := "call".toList

/-- Clauses whose value is never an expression. -/
def literalClauses : List Text := ["name", "ref", "set-slot", "slot"].map String.toList

/-- The value of a clause, qualified. -/
def qualifyClause (bound : NameSet) (name value : Text) : Traced ExprError Text :=
  if name = callClause then Expr.qualifyDynamic bound value else Expr.qualify bound value

/-- Qualifies the parts of a selector, save the clauses in `skip`. -/
def qualifyParts (bound : NameSet) (skip : List Text) :
    List SelectorPart → Traced ExprError Text
  | [] => pure []
  | .plain c :: rest => (qualifyParts bound skip rest).map (c :: ·)
  | .clause name value :: rest => do
    let value ← if skip.contains name then pure value else qualifyClause bound name value
    (qualifyParts bound skip rest).map ((SelectorPart.clause name value).render ++ ·)

/-- Qualifies the clauses of a selector, save those in `skip`. -/
def qualify (bound : NameSet) (skip : List Text) (selector : Text) : Traced ExprError Text :=
  qualifyParts bound skip (SelectorPart.ofSelector selector)

end Selector
end QwebReceiver
