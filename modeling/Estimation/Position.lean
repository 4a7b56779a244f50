/-!
Places in a source text. A coordinate is where the next character would stand; passing over text
moves it, so the coordinates of a text are those of its beginnings.
-/

namespace Estimation

/-- Lines and columns count from one, columns in characters; the offset counts bytes from zero. -/
structure Coordinate where
  line : Nat
  column : Nat
  offset : Nat
  deriving DecidableEq, Repr

namespace Coordinate

def origin : Coordinate := ⟨1, 1, 0⟩

instance : Inhabited Coordinate := ⟨origin⟩

def advance (place : Coordinate) (c : Char) : Coordinate :=
  if c = '\n' then ⟨place.line + 1, 1, place.offset + c.utf8Size⟩
  else ⟨place.line, place.column + 1, place.offset + c.utf8Size⟩

/-- The coordinate behind a piece of text. -/
def after (start : Coordinate) (text : List Char) : Coordinate :=
  text.foldl advance start

@[simp] theorem after_nil (start : Coordinate) : start.after [] = start := rfl

@[simp] theorem after_cons (start : Coordinate) (c : Char) (cs : List Char) :
    start.after (c :: cs) = (start.advance c).after cs := rfl

theorem after_append (start : Coordinate) (xs ys : List Char) :
    start.after (xs ++ ys) = (start.after xs).after ys := by
  simp [after, List.foldl_append]

/-- Diagnostics name line and column only. -/
def text (place : Coordinate) : String := s!"{place.line}:{place.column}"

/-- All that is known of a coordinate. -/
def fullText (place : Coordinate) : String := s!"{place.line}:{place.column}:{place.offset}"

def ofText? (s : String) : Option Coordinate :=
  match s.splitOn ":" with
  | [line, column, offset] => do return ⟨← line.toNat?, ← column.toNat?, ← offset.toNat?⟩
  | _ => none

end Coordinate

/-- A piece of source text, from its first character to just behind its last. -/
structure Span where
  start : Coordinate
  stop : Coordinate
  deriving DecidableEq, Repr

namespace Span

instance : Inhabited Span := ⟨.origin, .origin⟩

/-- The empty span at a coordinate. -/
def point (place : Coordinate) : Span := ⟨place, place⟩

/-- From the start of the first to the end of the second. -/
def through (first last : Span) : Span := ⟨first.start, last.stop⟩

def Covers (span : Span) (offset : Nat) : Prop :=
  span.start.offset ≤ offset ∧ offset < span.stop.offset

instance (span : Span) (offset : Nat) : Decidable (span.Covers offset) :=
  inferInstanceAs (Decidable (_ ∧ _))

/-- A span is shown by where it starts. -/
def text (span : Span) : String := span.start.text

def fullText (span : Span) : String := s!"{span.start.fullText}-{span.stop.fullText}"

def ofText? (s : String) : Option Span :=
  match s.splitOn "-" with
  | [start, stop] => do return ⟨← Coordinate.ofText? start, ← Coordinate.ofText? stop⟩
  | _ => none

end Span

end Estimation
