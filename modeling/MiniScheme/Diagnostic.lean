import MiniScheme.Error

/-!
# Rendered diagnostics

An error is shown as a headline and an excerpt of the text it is about: the line or the first and
the last line of its range, with an arrow from the range to a label. Ranges are in bytes, columns
in characters; a tab reaches to the next multiple of four columns.

* `sourceLines` cuts a text into lines, each with its terminator and the byte it starts at.
* `excerpt` draws the lines of a range; a range outside the text has no excerpt.
* `Error.render` is the whole report, every line of it ended by a newline (`render`).

Only the kind, the message, the label and the range that are rendered are the program's own. How a
report is drawn is what the diagnostics library `ariadne` does with them; the drawing here follows
its documented output for one label without colour. No theorem is about it.

Out of scope: characters of a display width other than one.
-/

namespace MiniScheme

namespace Diagnostic

/-! ## Lines -/

/-- The characters that end a line: line feed, carriage return, vertical tab, form feed, next
line, and the line and paragraph separators. -/
def isLineEnd (c : Char) : Bool :=
  c.toNat == 0xA || c.toNat == 0xD || c.toNat == 0xB || c.toNat == 0xC || c.toNat == 0x85 ||
    c.toNat == 0x2028 || c.toNat == 0x2029

/-- Cuts a text after each line end; a carriage return and a line feed are one end. -/
def splitLines : List Char → List (List Char)
  | [] => []
  | '\r' :: '\n' :: cs => ['\r', '\n'] :: splitLines cs
  | c :: cs =>
    if isLineEnd c then [c] :: splitLines cs
    else
      match splitLines cs with
      | [] => [[c]]
      | l :: ls => (c :: l) :: ls

/-- A line with its terminator and the byte it starts at. -/
structure SourceLine where
  start : Nat
  chars : List Char

/-- Puts lines one after the other from byte `start` on. -/
def placeLines (start : Nat) : List (List Char) → List SourceLine
  | [] => []
  | l :: ls => ⟨start, l⟩ :: placeLines (start + byteSize l) ls

/-- The lines of a text; the empty text is one empty line. -/
def sourceLines (text : List Char) : List SourceLine :=
  match splitLines text with
  | [] => [⟨0, []⟩]
  | ls => placeLines 0 ls

/-- The index of the last line that starts at or before a byte. -/
def lineIndex (lines : List SourceLine) (offset : Nat) : Nat :=
  (lines.takeWhile fun l => decide (l.start ≤ offset)).length - 1

/-- How many characters start before a byte, the first of them standing at `start`. -/
def charsBefore (offset : Nat) : Nat → List Char → Nat
  | _, [] => 0
  | start, c :: cs =>
    if start < offset then 1 + charsBefore offset (start + c.utf8Size) cs else 0

namespace SourceLine

/-- The column of a byte: the number of characters of the line before it. -/
def column (l : SourceLine) (offset : Nat) : Nat := charsBefore offset l.start l.chars

/-- The line without the blanks at its end. -/
def trimmed (l : SourceLine) : List Char := (l.chars.reverse.dropWhile isBlank).reverse

end SourceLine

/-- How many columns of the screen a tab in column `k` takes: it reaches to the next multiple of
four. -/
def tabWidth (k : Nat) : Nat := (k / 4 + 1) * 4 - k

/-- How many columns of the screen each of `count` columns takes, from column `k` on, where the
text goes on as given; a column after its end takes one. -/
def columnWidths (k : Nat) : Nat → List Char → List Nat
  | 0, _ => []
  | count + 1, [] => 1 :: columnWidths (k + 1) count []
  | count + 1, c :: cs => (if c = '\t' then tabWidth k else 1) :: columnWidths (k + 1) count cs

/-- A text on the screen, from column `k` on: blanks are spaces, and a tab is as many as it is
wide. -/
def draw (k : Nat) : List Char → List Char
  | [] => []
  | c :: cs =>
    (if c = '\t' then List.replicate (tabWidth k) ' ' else if isBlank c then [' '] else [c]) ++
      draw (k + 1) cs

/-- A text on the screen. -/
def drawn (text : List Char) : String := String.ofList (draw 0 text)

/-! ## Rows -/

/-- `n` times the same character. -/
def fill (n : Nat) (c : Char) : String := String.ofList (List.replicate n c)

/-- A range of columns of one line, from `first` to before `last`. -/
structure Underline where
  first : Nat
  last : Nat

namespace Underline

/-- The column at which the arrow leaves. -/
def arrow (u : Underline) : Nat := (u.first + u.last) / 2

/-- Whether a column is in the range. -/
def covers (u : Underline) (k : Nat) : Bool := decide (u.first ≤ k) && decide (k < u.last)

/-- The number of columns of both rows. -/
def columns (u : Underline) : Nat := u.last + 2

/-- Column `k` of the row under the text, `width` columns of the screen wide. -/
def under (u : Underline) (width k : Nat) : List Char :=
  let rest := if u.covers k then '─' else ' '
  if k = u.arrow then (if u.covers k then '┬' else '│') :: List.replicate (width - 1) rest
  else List.replicate width rest

/-- Column `k` of the row that leads to the label, `width` columns of the screen wide. -/
def lead (u : Underline) (width k : Nat) : List Char :=
  if k < u.arrow then List.replicate width ' '
  else if k = u.arrow then '╰' :: List.replicate (width - 1) '─'
  else List.replicate width '─'

/-- A row beneath a text, column by column. -/
def row (u : Underline) (text : List Char) (draw : Nat → Nat → List Char) : String :=
  String.ofList ((columnWidths 0 u.columns text).zipIdx.flatMap fun (width, k) => draw width k)

end Underline

/-! ## Excerpts -/

/-- The number of a line, right-aligned, and a bar. -/
def gutter (numberWidth : Nat) (index : Nat) : String :=
  let number := toString (index + 1)
  " " ++ fill (numberWidth - number.length) ' ' ++ number ++ " │ "

/-- A bar without a number. -/
def blankGutter (numberWidth : Nat) : String := fill (numberWidth + 2) ' ' ++ "│ "

/-- A range on one line, marked from below. -/
def singleLine (numberWidth index : Nat) (l : SourceLine) (u : Underline) (label : String) :
    List String :=
  let text := l.trimmed
  [gutter numberWidth index ++ drawn text,
    blankGutter numberWidth ++ u.row text u.under,
    blankGutter numberWidth ++ u.row text u.lead ++ " " ++ label]

/-- The screen columns of a whole line and two more. -/
def fullWidth (l : SourceLine) : Nat :=
  (columnWidths 0 (l.chars.length + 2) l.trimmed).foldr (· + ·) 0

/-- A range over several lines: its first and its last line, joined at the left. -/
def multiLine (numberWidth first last : Nat) (lf ll : SourceLine) (label : String) :
    List String :=
  [gutter numberWidth first ++ "╭─▶ " ++ drawn lf.trimmed] ++
    (if first + 1 < last then [fill (numberWidth + 2) ' ' ++ "┆ ┆   "] else []) ++
    [gutter numberWidth last ++ "├─▶ " ++ drawn ll.trimmed,
      blankGutter numberWidth ++ "│   " ++ fill (fullWidth ll) ' ',
      blankGutter numberWidth ++ "╰───" ++ fill (fullWidth ll) '─' ++ " " ++ label]

/-- The lines of a range with its label; nothing for a range that leaves the text. -/
def excerpt (text : List Char) (span : Span) (label : String) : List String :=
  let size := byteSize text
  if size < span.start || (decide (span.start < span.stop) && decide (size < span.stop - 1)) then []
  else
    let lines := sourceLines text
    let line := fun i => lines[i]?.getD ⟨0, []⟩
    let first := lineIndex lines span.start
    let start := (line first).column span.start
    let last := if span.start < span.stop then lineIndex lines (span.stop - 1) else first
    let stop := if span.start < span.stop then (line last).column span.stop else start
    let numberWidth := (toString (last + 1)).length
    [fill (numberWidth + 2) ' ' ++ "╭─[ input:" ++ toString (first + 1) ++ ":" ++
        toString (start + 1) ++ " ]",
      fill (numberWidth + 2) ' ' ++ "│"] ++
      (if first = last then singleLine numberWidth first (line first) ⟨start, stop⟩ label
        else multiLine numberWidth first last (line first) (line last) label) ++
      [fill (numberWidth + 2) '─' ++ "╯"]

end Diagnostic

/-- The report of an error about a text. An error without a range is about its end. -/
def Error.render (s : Store) (e : Error) (text : String) : String :=
  let chars := text.toList
  let span := e.span?.getD (Span.point (byteSize chars))
  let headline := "[" ++ e.kind.text ++ "] Error: " ++ e.message s
  let lines := headline :: Diagnostic.excerpt chars span (e.label span.start)
  String.join (lines.map (· ++ "\n"))

end MiniScheme
