import Bindery.Unicode.WhiteSpace

/-!
# Paragraphs

A text is read as lines that end at line feeds. Trimmed lines that are not
empty join into a paragraph, with one space between two of them; an empty
line ends the paragraph. A carriage return before a line feed is white space
at the end of a line, so both line endings give the same paragraphs.

Both splits keep empty pieces. A last line that is empty adds an empty line
at the end, and several blank lines in a row add empty groups: neither leaves
a paragraph behind.
-/

namespace Bindery.Text

open Bindery.Unicode

/-- The lines of a text, each without the white space around it. -/
def trimmedLines (text : List Char) : List (List Char) :=
  (text.splitOnP (· == '\n')).map trim

/-- The lines of each paragraph. -/
def lineGroups (text : List Char) : List (List (List Char)) :=
  ((trimmedLines text).splitOnP List.isEmpty).filter (!·.isEmpty)

def paragraphs (text : List Char) : List (List Char) :=
  (lineGroups text).map (List.intercalate [' '])

/-- Paragraphs of a string, in order. -/
def splitParagraphs (text : String) : List String :=
  (paragraphs text.toList).map String.ofList

end Bindery.Text
