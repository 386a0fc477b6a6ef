import Bindery.Unicode.WhiteSpace
import Bindery.Unicode.Alphabetic

/-!
# Chunks of a paragraph

The pieces that line wrapping moves as a whole. Every white space character
counts as a space first. The text then falls into runs, of spaces only or
without a space, and a run without a space falls apart after each of its
breakable hyphens.

A hyphen is breakable when letters stand on both sides of it: read outwards
from the hyphen, two letters, or a letter, another hyphen and a letter. The
same test serves both sides, with the left side read backwards.
-/

namespace Bindery.Text

open Bindery.Unicode

/-- Every white space character as a space. -/
def spaced (text : List Char) : List Char :=
  text.map fun c => if isWhiteSpace c then ' ' else c

/-! ## Runs -/

def isSpace (c : Char) : Bool := c == ' '

/-- Maximal runs of spaces and of other characters, in turn. -/
def runs (text : List Char) : List (List Char) :=
  text.splitBy fun a b => isSpace a == isSpace b

/-! ## Hyphens -/

/-- The underscore counts as a letter of a word. -/
def isLetter (c : Char) : Bool := isAlphabetic c || c == '_'

/-- Two letters at the head, with at most one hyphen between them. -/
def startsWithPair : List Char → Bool
  | a :: b :: rest => isLetter a && (isLetter b || (b == '-' && rest.head?.any isLetter))
  | _ => false

/-- Cut a run after each breakable hyphen. `left` holds what stands before
it, nearest character first. -/
def hyphenPieces (left : List Char) : List Char → List (List Char)
  | [] => []
  | c :: right =>
    if c == '-' && startsWithPair left && startsWithPair right then
      [c] :: hyphenPieces (c :: left) right
    else
      match hyphenPieces (c :: left) right with
      | [] => [[c]]
      | piece :: pieces => (c :: piece) :: pieces

/-! ## Chunks -/

def runChunks (run : List Char) : List (List Char) :=
  if run.all isSpace then [run] else hyphenPieces [] run

/-- Chunks of a text without white space other than the space. -/
def chunks (text : List Char) : List (List Char) := (runs text).flatMap runChunks

end Bindery.Text
