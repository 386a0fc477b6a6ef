import Bindery.Text.Paragraph
import Bindery.Text.Wrap
import Bindery.Doc.Language

/-!
# Documentation layouts

Four ways to set documentation in generated source: plain indented text, a
block of Ada comment lines, a C block comment and a Python docstring. All of
them decorate the same rows: the wrapped lines of every paragraph, with a gap
between two paragraphs. They differ in the room that the decoration takes
from the width.

`column` is where the block stands. Plain text and the inner lines of a
docstring carry their indentation; in the other layouts the first line starts
where the caller has put the cursor, and the lines after it are indented.

The closing mark of a C comment stays on the last line if it fits there.
Otherwise the last word moves to a line of its own together with the mark,
unless nothing would stay behind.
-/

namespace Bindery.Doc

open Bindery.Unicode Bindery.Text

/-! ## Widths -/

/-- Greatest length of a line of generated source. -/
def lineWidth : Nat := 79

/-- Columns left on a line indented by `column`. -/
def availableWidth (column : Nat) : Nat := lineWidth - column

def indentation (column : Nat) : List Char := List.replicate column ' '

/-! ## Rows -/

/-- Wrapped lines of all paragraphs; `none` is the gap between two of them. -/
def rows (width : Nat) (text : List Char) : List (Option (List Char)) :=
  List.intercalate [none] ((paragraphs text).map fun p => (wrap width p).map some)

/-- Lines at `column`, the first one where the cursor stands. -/
def joinAt (column : Nat) (lines : List (List Char)) : List Char :=
  List.intercalate ('\n' :: indentation column) lines

/-! ## Plain text -/

def textRow (column : Nat) : Option (List Char) → List Char
  | none => []
  | some line => indentation column ++ line

def textLines (text : List Char) (column : Nat) : List (List Char) :=
  (rows (availableWidth column) text).map (textRow column)

def formatText (text : String) (column : Nat) : String :=
  String.ofList (joinAt 0 (textLines text.toList column))

/-! ## Ada -/

def adaRow : Option (List Char) → List Char
  | none => "--".toList
  | some line => "--  ".toList ++ line

def adaLines (text : List Char) (column : Nat) : List (List Char) :=
  (rows (availableWidth column - 4) text).map adaRow

def formatAda (text : String) (column : Nat) : String :=
  String.ofList (joinAt column (adaLines text.toList column))

/-! ## C -/

/-- A row inside a comment, below its opening mark. -/
def innerRow : Option (List Char) → List Char
  | none => []
  | some line => "   ".toList ++ line

/-- The first row carries the opening mark. -/
def commentRows : List (Option (List Char)) → List (List Char)
  | [] => []
  | row :: more => ("/* ".toList ++ row.getD []) :: more.map innerRow

/-- Split at the last white space before the last word, if there is any.
White space after the word, and at the end of what is before it, goes. -/
def splitLastWord (line : List Char) : Option (List Char × List Char) :=
  let backwards := (trimEnd line).reverse
  match backwards.dropWhile (!isWhiteSpace ·) with
  | [] => none
  | _ :: before => some (trimEnd before.reverse, (backwards.takeWhile (!isWhiteSpace ·)).reverse)

/-- The last line of a comment with the closing mark: one line or two. -/
def closeComment (width : Nat) (last : List Char) : List (List Char) :=
  if 4 ≤ width - last.length then [last ++ "  */".toList]
  else match splitLastWord last with
    | none => [last, "   */".toList]
    | some (before, word) =>
      if isBlank before || before == "/*".toList then [trimEnd last ++ "  */".toList]
      else [before, "   ".toList ++ word ++ "   */".toList]

def cLines (text : List Char) (column : Nat) : List (List Char) :=
  let lines := commentRows (rows (availableWidth column - 3) text)
  match lines.getLast? with
  | none => []
  | some last => lines.dropLast ++ closeComment (availableWidth column) last

def formatC (text : String) (column : Nat) : String :=
  String.ofList (joinAt column (cLines text.toList column))

/-! ## Python -/

def docstringQuotes : List Char := "\"\"\"".toList

def pythonLines (text : List Char) (column : Nat) : List (List Char) :=
  docstringQuotes :: textLines text column ++ [indentation column ++ docstringQuotes]

def formatPython (text : String) (column : Nat) : String :=
  String.ofList (joinAt 0 (pythonLines text.toList column))

/-! ## By language -/

/-- Lay a text out as a documentation block of a language. -/
def Language.format : Language → String → Nat → String
  | .ada => formatAda
  | .c => formatC
  | .python => formatPython

end Bindery.Doc
