import Bindery.NameMap

/-!
# JSON values

The data format of serialized artifacts. A number keeps the form it has: an
integer, or a decimal `mantissa * 10 ^ exponent`, which is never read as an
integer. Integers that no 64-bit word holds count as decimals.

The members of an object may come in any order, and a repeated name means
its last value; `Json.members` gives them in name order, each name once.
-/

namespace Bindery

inductive Json where
  | null
  | bool (b : Bool)
  | int (n : Int)
  | decimal (mantissa exponent : Int)
  | str (s : String)
  | arr (items : List Json)
  | obj (members : List (String × Json))
deriving Inhabited

namespace Json

/-- Integers that a signed or an unsigned 64-bit word holds. -/
def fitsWord (n : Int) : Bool := Int64.minValue.toInt ≤ n && n < UInt64.size

/-- The number `n` of a text that writes it as an integer. -/
def ofInt (n : Int) : Json := if fitsWord n then .int n else .decimal n 0

/-- Members of an object in ascending name order. -/
def members (entries : List (String × Json)) : List (String × Json) :=
  (NameMap.ofList entries).entries

/-- The string, or null for none. -/
def ofString? : Option String → Json
  | none => .null
  | some s => .str s

end Json

end Bindery
