/-!
# Grids

Reports are laid out on a console of fixed width. This file draws tables with a frame, rules across
the console and panels, out of text whose characters all have the same width.

## Main definitions

* `Report.centred` : a text in the middle of a line.
* `Report.Grid.lines` : a table.
* `Report.rule`, `Report.panel` : a rule with a title, and a framed line with a title.
-/

namespace MachineCode.Report

/-- The number of columns of the console. -/
def consoleWidth : Nat :=
  160

/-- A run of one character. -/
def run (count : Nat) (c : Char) : String :=
  String.ofList (List.replicate count c)

/-- A text with blanks behind it up to a width. -/
def padded (width : Nat) (text : String) : String :=
  text ++ run (width - text.length) ' '

/-- A text in the middle of a line that is filled up on both sides. Where the sides cannot be equal,
the right one is longer. -/
def centred (width : Nat) (fill : Char) (text : String) : String :=
  let left := (width - text.length) / 2
  run left fill ++ text ++ run (width - text.length - left) fill

/-- A rule across the console with a title in its middle. -/
def rule (title : String) : String :=
  centred consoleWidth '─' (" " ++ title ++ " ")

/-- A line of text in a frame across the console, with a title in the upper edge. -/
def panel (title text : String) : List String :=
  ["╭" ++ centred (consoleWidth - 2) '─' (" " ++ title ++ " ") ++ "╮",
    padded (consoleWidth - 1) ("│ " ++ text) ++ "│",
    "╰" ++ run (consoleWidth - 2) '─' ++ "╯"]

/-- A table with a header and rows of as many cells. -/
structure Grid where
  header : List String
  rows : List (List String)
  deriving DecidableEq, Repr

namespace Grid

/-- The pairwise greater of two lists of widths. -/
def wider (widths : List Nat) (cells : List String) : List Nat :=
  List.zipWith (fun width cell => max width cell.length) widths cells

/-- A column is as wide as its longest cell, header included. -/
def widths (grid : Grid) : List Nat :=
  grid.rows.foldl wider (grid.header.map String.length)

/-- A row of cells with one blank on both sides of each, between vertical bars. -/
def row (bar : String) (widths : List Nat) (cells : List String) : String :=
  let cell := fun width text => " " ++ padded width text ++ " " ++ bar
  bar ++ String.join (List.zipWith cell widths cells)

/-- A horizontal edge, with a mark at both ends and where columns meet. -/
def edge (left meet right : String) (fill : Char) (widths : List Nat) : String :=
  left ++ meet.intercalate (widths.map fun width => run (width + 2) fill) ++ right

/-- The number of columns that a table takes on the console. -/
def width (grid : Grid) : Nat :=
  grid.widths.foldr (fun width total => width + 3 + total) 1

/-- The lines of a table. The frame around the header is heavy. -/
def lines (grid : Grid) : List String :=
  let widths := grid.widths
  [edge "┏" "┳" "┓" '━' widths, row "┃" widths grid.header, edge "┡" "╇" "┩" '━' widths] ++
    grid.rows.map (row "│" widths) ++ [edge "└" "┴" "┘" '─' widths]

/-- The lines of a table under a title. -/
def titledLines (title : String) (grid : Grid) : List String :=
  centred grid.width ' ' title :: grid.lines

end Grid

end MachineCode.Report
