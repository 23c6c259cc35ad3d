import BemMarkup.Text.Bytes

/-!
# Places in a source text

A place is given by a byte offset. For people it is given as a line and a column: lines
end at a line feed and at nothing else, both numbers start at one, and a column counts
characters. `excerpt` shows the line of a place with a mark below its column.

## Main statements

* `Position.after_append`: the place after two texts is the place after the second,
  counted from the place after the first.
-/

namespace BemMarkup.Text

/-! ## Line and column -/

/-- A line and a column, both counted from one. -/
structure Position where
  /-- The number of the line. -/
  line : Nat
  /-- The number of the character within the line. -/
  column : Nat
deriving DecidableEq, Repr

/-- The first place of a text. -/
def Position.start : Position := ⟨1, 1⟩

/-- The place directly after a character that stands at `p`. -/
def Position.next (p : Position) (c : Char) : Position :=
  if c = '\n' then ⟨p.line + 1, 1⟩ else ⟨p.line, p.column + 1⟩

/-- The place reached from `p` by going over a text. -/
def Position.after (p : Position) (cs : List Char) : Position := cs.foldl Position.next p

@[simp] theorem Position.after_nil (p : Position) : p.after [] = p := rfl

@[simp] theorem Position.after_cons (p : Position) (c : Char) (cs : List Char) :
    p.after (c :: cs) = (p.next c).after cs := rfl

@[simp] theorem Position.after_append (p : Position) (xs ys : List Char) :
    p.after (xs ++ ys) = (p.after xs).after ys := by
  simp [Position.after]

/-- The line and column of the byte `offset` of a text. -/
def Position.ofOffset (source : List Char) (offset : Nat) : Position :=
  Position.start.after (takeBytes offset source)

/-! ## Lines -/

/-- A line that ends in a line feed, without the carriage return that may stand directly
before it. -/
def dropReturn (line : List Char) : List Char :=
  if line.getLast? = some '\r' then line.dropLast else line

/-- The text of line `n`, counted from zero. A line that the source does not have is
empty. -/
def nthLine : Nat → List Char → List Char
  | _, [] => []
  | 0, cs =>
    let line := cs.takeWhile (· != '\n')
    if line.length < cs.length then dropReturn line else line
  | n + 1, cs => nthLine n ((cs.dropWhile (· != '\n')).drop 1)

/-- The line of a place, and below it a mark under the column of the place. A line or a
column below one counts as one. -/
def excerpt (source : String) (p : Position) : String :=
  String.ofList
    (nthLine (p.line - 1) source.toList ++ '\n' :: List.replicate (p.column - 1) ' ' ++ ['^'])

end BemMarkup.Text
