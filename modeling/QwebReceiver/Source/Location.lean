import QwebReceiver.Text

/-!
  QwebReceiver.Source.Location — places in a source.

  A place is the byte offset, the line and the column at which the next
  character stands; lines and columns count from zero, columns count
  characters.  `after` says where one stands after reading a text, so a place
  is exact if and only if it is `origin.after` of what was read.
-/

namespace QwebReceiver

/-! ## §1. Sources and places. -/

/-- A text and the name it goes by in messages. -/
structure Source where
  content : Text
  url : Text
  deriving Repr, DecidableEq

/-- A place between two characters of a source. -/
structure Location where
  offset : Nat
  line : Nat
  column : Nat
  deriving Repr, DecidableEq

namespace Location

/-- Where a source starts. -/
def origin : Location := ⟨0, 0, 0⟩

/-- The place after one more character. -/
def step (l : Location) (c : Char) : Location :=
  if c = '\n' then ⟨l.offset + c.utf8Size, l.line + 1, 0⟩
  else ⟨l.offset + c.utf8Size, l.line, l.column + 1⟩

/-- The place after a text. -/
def after (l : Location) (t : Text) : Location := t.foldl step l

@[simp] theorem after_nil (l : Location) : l.after [] = l := rfl

@[simp] theorem after_append (l : Location) (s t : Text) :
    l.after (s ++ t) = (l.after s).after t := List.foldl_append

/-- A place in words. -/
def render (l : Location) (url : Text) : String := s!"{url.str}@{l.line}:{l.column}"

end Location

/-- The stretch between two places. -/
structure Span where
  start : Location
  stop : Location
  deriving Repr, DecidableEq

/-- The part of the source that a span covers. -/
def Span.text (s : Span) (source : Source) : Text :=
  (source.content.dropBytes s.start.offset).takeBytes (s.stop.offset - s.start.offset)

/-! ## §2. The surroundings of a place. -/

/-- The start of a text, at most `chars` characters and at most up to the end
of the `lines`-th line (one line is always shown). -/
def excerpt (chars lines : Nat) : Text → Text
  | [] => []
  | c :: r =>
    match chars with
    | 0 => []
    | chars + 1 =>
      if c = '\n' then
        if lines ≤ 1 then [c] else c :: excerpt chars (lines - 1) r
      else c :: excerpt chars lines r

/-- What stands before and after a place, each side within the limits. -/
def Location.surroundings (l : Location) (source : Source) (chars lines : Nat) : Text × Text :=
  ((excerpt chars lines (source.content.takeBytes l.offset).reverse).reverse,
    excerpt chars lines (source.content.dropBytes l.offset))

/-- A message with the surroundings of the place it is about. -/
def Location.report (l : Location) (source : Source) (message : String) : String :=
  let (before, after) := l.surroundings source 100 3
  s!"{message} (\"{before.str}[ERROR ->]{after.str}\"): {l.render source.url}"

end QwebReceiver
