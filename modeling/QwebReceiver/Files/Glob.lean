import QwebReceiver.Files.Tree

/-!
  QwebReceiver.Files.Glob — finding files by pattern.

    ?        one character
    *        any characters
    [ab-d]   one of these characters; a bracket right after the first stands
             for itself
    [!ab-d]  one character but these
    **       any directories, as a component of its own

  A pattern is checked as a whole and then component by component; positions
  in an error count characters.  `*` matches names with a leading dot too, and
  a component that starts with a dot can match `.` and `..`.
-/

namespace QwebReceiver.Files.Glob

/-! ## §1. Patterns. -/

/-- What is wrong with a pattern. -/
inductive Problem where
  | wildcards
  | recursion
  | range
  deriving Repr, DecidableEq

/-- The problem in words. -/
def Problem.message : Problem → String
  | .wildcards => "wildcards are either regular `*` or recursive `**`"
  | .recursion => "recursive wildcards must form a single path component"
  | .range => "invalid range pattern"

/-- A problem and where it is. -/
structure PatternError where
  position : Nat
  problem : Problem
  deriving Repr, DecidableEq

/-- The error in words. -/
def PatternError.message (e : PatternError) : String :=
  s!"Pattern syntax error near position {e.position}: {e.problem.message}"

/-- A part of a pattern. -/
inductive Token where
  | char (c : Char)
  | anyChar
  | oneOf (ranges : List (Char × Char))
  | noneOf (ranges : List (Char × Char))
  | anyChars
  | anyDepth
  deriving Repr, DecidableEq

/-- The ranges in a bracket; a character by itself is a range of one. -/
def ranges : Text → List (Char × Char)
  | a :: '-' :: b :: r => (a, b) :: ranges r
  | a :: r => (a, a) :: ranges r
  | [] => []

/-- A bracket: what is in it, and the text after it.  The first character in
it cannot close it. -/
def bracket? : Text → Option (Text × Text)
  | [] => none
  | a :: r => (Text.upTo? [']'] r).map fun p => (a :: p.1, p.2.tail)

theorem length_of_bracket? {t spec rest : Text} (h : bracket? t = some (spec, rest)) :
    rest.length < t.length := by
  cases t with
  | nil => simp [bracket?] at h
  | cons a r =>
    obtain ⟨⟨x, y⟩, hp, heq⟩ := Option.map_eq_some_iff.1 h
    cases heq
    have := congrArg List.length (Text.append_of_upTo? hp)
    simp only [List.length_append, List.length_tail, List.length_cons] at this ⊢
    omega

/-- Whether `**` may stand after this character: at the start of a component. -/
def opensComponent (before : Option Char) : Bool := before = none || before = some '/'

/-- The parts of a pattern, read from a position on; `before` is the character
before it. -/
def tokensFrom (position : Nat) (before : Option Char) (t : Text) :
    Except PatternError (List Token) :=
  match t with
  | [] => .ok []
  | '?' :: r => (tokensFrom (position + 1) (some '?') r).map (.anyChar :: ·)
  -- a third star is refused wherever the first two stand
  | '*' :: '*' :: '*' :: _ => .error ⟨position + 2, .wildcards⟩
  | '*' :: '*' :: r =>
    if opensComponent before then
      match r with
      | [] => .ok [.anyDepth]
      | c :: r =>
        if c = '/' then (tokensFrom (position + 3) (some '/') r).map (.anyDepth :: ·)
        else .error ⟨position + 2, .recursion⟩
    else .error ⟨position - 1, .recursion⟩
  | '*' :: r => (tokensFrom (position + 1) (some '*') r).map (.anyChars :: ·)
  | '[' :: '!' :: r =>
    match h : bracket? r with
    | none => .error ⟨position, .range⟩
    | some (spec, rest) =>
      have := length_of_bracket? h
      (tokensFrom (position + spec.length + 3) (some ']') rest).map (.noneOf (ranges spec) :: ·)
  | '[' :: r =>
    match h : bracket? r with
    | none => .error ⟨position, .range⟩
    | some (spec, rest) =>
      have := length_of_bracket? h
      (tokensFrom (position + spec.length + 2) (some ']') rest).map (.oneOf (ranges spec) :: ·)
  | c :: r => (tokensFrom (position + 1) (some c) r).map (.char c :: ·)
termination_by t.length

/-- The parts of a pattern. -/
def tokens (t : Text) : Except PatternError (List Token) := tokensFrom 0 none t

/-! ## §2. Matching a name. -/

/-- Whether a character is in one of the ranges. -/
def inRanges (rs : List (Char × Char)) (c : Char) : Bool := rs.any fun r => r.1 ≤ c && c ≤ r.2

/-- Whether a part of a pattern takes this character for its one character. -/
def Token.accepts (c : Char) : Token → Bool
  | .char d => c == d
  | .anyChar => true
  | .oneOf rs => inRanges rs c
  | .noneOf rs => !inRanges rs c
  | .anyChars => false
  | .anyDepth => false

/-- Whether the parts of a pattern match a name. -/
def matchesName : List Token → Text → Bool
  | [], name => name.isEmpty
  | .anyChars :: ts, [] => matchesName ts []
  | .anyChars :: ts, c :: r => matchesName ts (c :: r) || matchesName (.anyChars :: ts) r
  | _ :: _, [] => false
  | tok :: ts, c :: r => tok.accepts c && matchesName ts r
termination_by ts name => ts.length + name.length

/-! ## §3. Components. -/

/-- A component of a pattern. -/
inductive Segment where
  | exact (name : Text)
  | anyDepth
  | wild (tokens : List Token)
  deriving Repr, DecidableEq

/-- The text that parts of a pattern spell, if they leave no choice. -/
def literal? (ts : List Token) : Option Text :=
  ts.mapM fun
    | .char c => some c
    | _ => none

/-- The component that parts of a pattern make up. -/
def Segment.ofTokens (ts : List Token) : Segment :=
  if ts.contains .anyDepth then .anyDepth
  else
    match literal? ts with
    | some name => .exact name
    | none => .wild ts

/-- Whether a component matches a name. -/
def Segment.matches (name : Text) : Segment → Bool
  | .exact n => name == n
  | .anyDepth => true
  | .wild ts => matchesName ts name

/-- The stretches of a pattern; a slash at its end divides nothing. -/
def stretches (t : Text) : List Text :=
  if (segments t).getLast? = some [] then (segments t).dropLast else segments t

/-! ## §4. Walking the tree. -/

/-- The path to something below a path; in the current directory it goes by
its names alone. -/
def reach (p : Path) (names : List Text) : Path :=
  names.foldl join (if isCurrent p then [] else p)

/-- The two names that every directory has for itself and the one above, as
far as a component asks for them: it has to start with a dot. -/
def dotNames (ts : List Token) : List Text :=
  if ts.head? = some (.char '.') then
    [['.', '.'], ['.']].filter (matchesName ts)
  else []

/-- The paths that the components lead to from a path, in the order of a walk
that takes a directory before what is in it and names in ascending order. -/
def walk (t : FileTree) : List Segment → Path → List Path
  | [], p => [p]
  | .exact name :: rest, p =>
    -- a name without choice is looked up, not searched for
    let q := if isCurrent p then name else join p name
    let found := if name = ['.'] || name = ['.', '.'] then t.isDirectory p else (t.resolve? q).isSome
    if found then walk t rest q else []
  | .wild ts :: rest, p =>
    if t.isDirectory p then
      (dotNames ts).flatMap (fun name => walk t rest (join p name)) ++
        ((t.members p).filter (matchesName ts)).flatMap fun name => walk t rest (reach p [name])
    else []
  | .anyDepth :: .anyDepth :: rest, p => walk t (.anyDepth :: rest) p
  | [.anyDepth], p => ((t.descendants p).map (reach p)).filter t.isDirectory
  | .anyDepth :: s :: rest, p =>
    (t.descendants p).flatMap fun names =>
      if s.matches (names.getLast?.getD []) then walk t rest (reach p names) else []

/-- The paths that match a pattern.  A pattern that ends in a slash asks for
directories. -/
def paths (t : FileTree) (pattern : Text) : Except PatternError (List Path) :=
  match tokens pattern with
  | .error e => .error e
  | .ok _ =>
    -- the parts are read once more, component by component: a bracket may not
    -- reach across a slash
    let (scope, relative) : Path × Text :=
      if isAbsolute pattern then (['/'], pattern.tail) else (['.'], pattern)
    match (stretches relative).mapM tokens with
    | .error e => .error e
    | .ok parts =>
      let found := walk t (parts.map Segment.ofTokens) scope
      .ok (if pattern.getLast? = some '/' then found.filter t.isDirectory else found)

end QwebReceiver.Files.Glob
