/-!
# Grids

Rows of text in a frame of lines. Each column is as wide as its widest cell; what colours a cell
does not count. Rows may have fewer cells than there are columns.
-/

namespace Outliner.Text

/-- Where a cell stands in its column. -/
inductive Alignment where
  | left
  | right
  | center
  deriving DecidableEq, Repr, Inhabited

/-- The length of the colour sequence that a text starts with: an escape, a bracket, digits and
semicolons, and an `m`. -/
def colorSequence? : List Char → Option Nat
  | '\x1b' :: '[' :: rest =>
    let codes := rest.takeWhile fun c => ('0' ≤ c && c ≤ '9') || c = ';'
    match rest.drop codes.length with
    | 'm' :: _ => some (codes.length + 3)
    | _ => none
  | _ => none

/-- The number of visible characters of a text after `skip` characters, added to those counted. -/
def visibleFrom : (skip : Nat) → List Char → (count : Nat) → Nat
  | _, [], count => count
  | skip + 1, _ :: rest, count => visibleFrom skip rest count
  | 0, c :: rest, count =>
    match colorSequence? (c :: rest) with
    | some length => visibleFrom (length - 1) rest count
    | none => visibleFrom 0 rest (count + 1)

/-- The number of characters of a text that are visible. -/
def visibleLength (s : String) : Nat :=
  visibleFrom 0 s.toList 0

/-- So many spaces. -/
def spaces (n : Nat) : String :=
  String.ofList (List.replicate n ' ')

/-- A cell filled up to a width. -/
def pad (a : Alignment) (width : Nat) (cell : String) : String :=
  let missing := width - visibleLength cell
  match a with
  | .left => cell ++ spaces missing
  | .right => spaces missing ++ cell
  | .center => spaces (missing / 2) ++ cell ++ spaces (missing - missing / 2)

/-- A grid. Without a header there is no line for it. -/
structure Grid where
  header : List String := []
  rows : List (List String) := []
  /-- The alignment of the cells of each column, to the left where it is not given. -/
  alignments : List Alignment := []
  /-- The alignment of the header of each column. -/
  headerAlignments : List Alignment := []
  deriving DecidableEq, Repr, Inhabited

namespace Grid

/-- Widens columns to hold a row. -/
def widenTo : List Nat → List String → List Nat
  | widths, [] => widths
  | [], cells => cells.map visibleLength
  | width :: widths, cell :: cells => max width (visibleLength cell) :: widenTo widths cells

/-- The width of each column. -/
def widths (g : Grid) : List Nat :=
  (g.header :: g.rows).foldl widenTo []

/-- The line above, below and between the parts of a grid. -/
def border (widths : List Nat) : String :=
  "+" ++ String.join (widths.map fun w => String.ofList (List.replicate (w + 2) '-') ++ "+")

/-- The cells of a row between bars. -/
def rowCells : List Nat → List String → List Alignment → String
  | [], _, _ => ""
  | width :: widths, cells, alignments =>
    " " ++ pad (alignments.headD .left) width (cells.headD "") ++ " |" ++
      rowCells widths cells.tail alignments.tail

/-- The line of a row. -/
def rowLine (widths : List Nat) (alignments : List Alignment) (cells : List String) : String :=
  "|" ++ rowCells widths cells alignments

/-- The lines of a grid. -/
def lines (g : Grid) : List String :=
  let widths := g.widths
  let border := border widths
  let header :=
    if g.header.isEmpty then [] else [rowLine widths g.headerAlignments g.header, border]
  border :: header ++ g.rows.map (rowLine widths g.alignments) ++ [border]

/-- **The text of a grid.** -/
def render (g : Grid) : String :=
  String.join (g.lines.map (· ++ "\n"))

end Grid

end Outliner.Text
