/-!
# JSON values

The values that configuration and result documents are made of.

Objects list their members in the order in which they are written. Numbers
keep the distinction that documents make: an integer literal that fits into
sixty-four bits is an integer, every other number is a double. A text can also
be well-formed and still stand for nothing, when a number is too large for a
double or an escape names half of a surrogate pair. Such a part matters only
if somebody reads it, so it has a value of its own, `unreadable`, which no
reader accepts and which an ignored member may hold.

## Main definitions

* `Json`: A value.
* `Json.isReadable`: No part is unreadable.
* `Json.depth`: How deeply arrays and objects are nested.
-/

namespace CyclePlan

/-- A JSON value. -/
inductive Json where
  | null
  | bool (b : Bool)
  /-- A number written as an integer of at most sixty-four bits. -/
  | int (n : Int)
  | float (x : Float)
  | str (s : String)
  | arr (items : List Json)
  /-- Named members, in the order in which they are written. -/
  | obj (members : List (String × Json))
  /-- Something well-formed that stands for no value. -/
  | unreadable
  deriving BEq, Inhabited

namespace Json

mutual

/-- Whether no part of a value is unreadable. -/
def isReadable : Json → Bool
  | .unreadable => false
  | .arr items => areReadable items
  | .obj members => areReadableMembers members
  | _ => true

/-- Whether no part of any of the values is unreadable. -/
def areReadable : List Json → Bool
  | [] => true
  | j :: rest => isReadable j && areReadable rest

/-- Whether no part of any of the members is unreadable. -/
def areReadableMembers : List (String × Json) → Bool
  | [] => true
  | (_, j) :: rest => isReadable j && areReadableMembers rest

end

mutual

/-- How deeply arrays and objects are nested; zero for a value that is neither. -/
def depth : Json → Nat
  | .arr items => depthOfAll items + 1
  | .obj members => depthOfMembers members + 1
  | _ => 0

/-- The greatest depth of the values. -/
def depthOfAll : List Json → Nat
  | [] => 0
  | j :: rest => max (depth j) (depthOfAll rest)

/-- The greatest depth of the members. -/
def depthOfMembers : List (String × Json) → Nat
  | [] => 0
  | (_, j) :: rest => max (depth j) (depthOfMembers rest)

end

end Json

end CyclePlan
