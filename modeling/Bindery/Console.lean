/-!
# Colored status lines

A status line is a message, between two terminal escape sequences if colors
are on, and a line feed. Lines go to an output in memory. It may be limited
to a number of bytes; it then takes of a line what still fits, and the line
fails unless that is all of it.
-/

namespace Bindery

/-! ## Colors -/

inductive Color where
  | header
  | info
  | success
  | warning
  | failure
deriving DecidableEq, Repr

namespace Color

/-- Every color, in display order. -/
def all : List Color := [.header, .info, .success, .warning, .failure]

def name : Color → String
  | .header => "header"
  | .info => "info"
  | .success => "success"
  | .warning => "warning"
  | .failure => "failure"

/-- Escape sequence that starts a color: the bright one of magenta, blue,
green, yellow and red. -/
def escape : Color → String
  | .header => "\x1b[95m"
  | .info => "\x1b[94m"
  | .success => "\x1b[92m"
  | .warning => "\x1b[93m"
  | .failure => "\x1b[91m"

/-- Escape sequence back to the color of plain text. -/
def reset : String := "\x1b[0m"

instance : ToString Color := ⟨name⟩

end Color

inductive ColorMode where
  | auto
  | always
  | never
deriving DecidableEq, Repr

instance : Inhabited ColorMode := ⟨.auto⟩

/-- Whether lines are colored; only `auto` asks whether there is a terminal. -/
def ColorMode.resolve : ColorMode → Bool → Bool
  | .auto, isTerminal => isTerminal
  | .always, _ => true
  | .never, _ => false

/-- A status line with its line feed. -/
def statusLine (colors : Bool) (msg : String) (color : Color) : String :=
  if colors then color.escape ++ msg ++ Color.reset ++ "\n" else msg ++ "\n"

/-! ## Output -/

inductive WriteError where
  /-- The output takes no more bytes. -/
  | writeZero
deriving DecidableEq, Repr

/-- Characters at the beginning of a text that fit into `room` bytes. -/
def fitting : Nat → List Char → List Char
  | _, [] => []
  | room, c :: cs => if c.utf8Size ≤ room then c :: fitting (room - c.utf8Size) cs else []

/-- An output in memory; `capacity` limits its size in bytes. -/
structure Output where
  written : String
  capacity : Option Nat
deriving DecidableEq, Repr

/-- Write a text as far as it fits. -/
def Output.write (out : Output) (text : String) : Except WriteError Unit × Output :=
  match out.capacity with
  | none => (.ok (), { out with written := out.written ++ text })
  | some capacity =>
    let room := capacity - out.written.utf8ByteSize
    let part := String.ofList (fitting room text.toList)
    (if text.utf8ByteSize ≤ room then .ok () else .error .writeZero,
      { out with written := out.written ++ part })

/-! ## Console -/

structure Console where
  out : Output
  colors : Bool
deriving DecidableEq, Repr

namespace Console

def ofMode (out : Output) (mode : ColorMode) (isTerminal : Bool) : Console :=
  ⟨out, mode.resolve isTerminal⟩

/-- Write a message as one status line. -/
def print (c : Console) (msg : String) (color : Color) : Except WriteError Unit × Console :=
  let (result, out) := c.out.write (statusLine c.colors msg color)
  (result, { c with out })

/-- Nothing is held back, so there is nothing to push out. -/
def flush (c : Console) : Except WriteError Unit × Console := (.ok (), c)

end Console

end Bindery
