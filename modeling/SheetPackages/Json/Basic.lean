/-!
# JSON values

The values of JSON. Whole numbers that fit a signed or unsigned 64-bit word stay whole; every other
number is kept as the bits of a 64-bit binary number. The members of an object keep their order.
-/

namespace SheetPackages

inductive Json where
  | null
  | bool (value : Bool)
  | int (value : Int)
  | real (bits : UInt64)
  | text (value : String)
  | list (items : List Json)
  | object (members : List (String × Json))
deriving BEq, Inhabited

namespace Json

/-- A text, or null when there is none. -/
def ofText? : Option String → Json
  | none => .null
  | some s => .text s

def texts (items : List String) : Json :=
  .list (items.map .text)

def text? : Json → Option String
  | .text s => some s
  | _ => none

end Json

end SheetPackages
