/-!
Texts in pieces: between separators, and as lines.
-/

namespace Estimation.Text

/-- The pieces of a text between separators, at least one. -/
def pieces (separator : Char) : List Char → List (List Char)
  | [] => [[]]
  | c :: cs =>
    match pieces separator cs with
    | piece :: rest => if c = separator then [] :: piece :: rest else (c :: piece) :: rest
    | [] => [[c]]

theorem pieces_ne_nil (separator : Char) (cs : List Char) : pieces separator cs ≠ [] := by
  cases cs with
  | nil => simp [pieces]
  | cons c cs =>
    simp only [pieces]
    split
    · split <;> simp
    · simp

/-- A line without a carriage return at its end. -/
def dropReturn (line : List Char) : List Char :=
  if line.getLast? = some '\r' then line.dropLast else line

/-- Lines end with a line feed, before which a carriage return is not part of the line. What is
behind the last line feed is a line unless it is empty. -/
def lines (text : List Char) : List (List Char) :=
  let all := pieces '\n' text
  all.dropLast.map dropReturn ++ (all.getLast?.toList.filter fun last => !last.isEmpty)

/-- A text with blanks before it, up to a width. -/
def padLeft (width : Nat) (s : String) : String :=
  String.ofList (List.replicate (width - s.length) ' ') ++ s

def blanks (count : Nat) : String := String.ofList (List.replicate count ' ')

end Estimation.Text
