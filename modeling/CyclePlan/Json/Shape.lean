import CyclePlan.Json.Basic
import CyclePlan.NameMap

/-!
# Shapes of JSON values

Reading domain values out of JSON values.

A document is read by shape. An integer has to be written as one and to lie in
the range of what it stands for; a number may be written either way. A
structure is an object with its fields as members, or an array of the fields
in order. A case of a choice is its name alone, or an object with the name as
its only member. Members that a structure does not know are passed over
whatever they hold.

Writing is the other direction, and always uses objects.

## Main definitions

* `Json.toInt?`, `Json.toNumber?`, `Json.toText?`, `Json.toBool?`: Plain
  values.
* `Json.toOption?`, `Json.toList?`, `Json.toMap?`: Containers of values.
* `Record`: The fields of a structure that are present.
* `Record.ofJson?`: Reads a structure.
* `Json.toCase?`: Reads a case of a choice.
-/

namespace CyclePlan

namespace Json

/-- An integer between two bounds. -/
def toInt? (low high : Int) : Json → Option Int
  | .int n => if low ≤ n ∧ n ≤ high then some n else none
  | _ => none

/-- A signed integer of sixty-four bits. -/
def toSigned? (j : Json) : Option Int := j.toInt? Int64.minValue.toInt Int64.maxValue.toInt

/-- An unsigned integer of sixty-four bits. -/
def toCount? (j : Json) : Option Nat := (j.toInt? 0 (UInt64.size - 1)).map Int.toNat

/-- A number, written as an integer or not. -/
def toNumber? : Json → Option Float
  | .int n => some (Float.ofInt n)
  | .float x => some x
  | _ => none

/-- A text. -/
def toText? : Json → Option String
  | .str s => some s
  | _ => none

/-- A truth value. -/
def toBool? : Json → Option Bool
  | .bool b => some b
  | _ => none

/-- A value that may be absent. -/
def toOption? {β : Type} (read : Json → Option β) : Json → Option (Option β)
  | .null => some none
  | j => (read j).map some

/-- A sequence of values. -/
def toList? {β : Type} (read : Json → Option β) : Json → Option (List β)
  | .arr items => items.mapM read
  | _ => none

/-- A map by name. Of a repeated name the last value stays, but every value has
    to be readable. -/
def toMap? {β : Type} (read : Json → Option β) : Json → Option (NameMap β)
  | .obj members => do
    let entries ← members.mapM fun m => (read m.2).map (m.1, ·)
    return NameMap.ofList entries
  | _ => none

/-- A case of a choice, its name and what the name holds. -/
def toCase? : Json → Option (String × Option Json)
  | .str name => some (name, none)
  | .obj [(name, j)] => some (name, some j)
  | _ => none

/-- The name of a case that holds nothing. -/
def toPlainCase? (j : Json) : Option String :=
  match j.toCase? with
  | some (name, none) => some name
  | some (name, some .null) => some name
  | _ => none

/-- The value that may be absent, as a document writes it. -/
def ofOption {β : Type} (write : β → Json) : Option β → Json
  | none => .null
  | some b => write b

/-- A map, as a document writes it. -/
def ofMap {β : Type} (write : β → Json) (m : NameMap β) : Json :=
  .obj (m.entries.map fun e => (e.1, write e.2))

/-- A count, as a document writes it. -/
def ofNat (n : Nat) : Json := .int n

end Json

/-- The fields of a structure that a document gives. -/
structure Record where
  /-- The structure is written as an array of its fields. -/
  asArray : Bool
  fields : List (String × Json)

namespace Record

/-- Reads a structure with the given fields. A field given twice is refused, a
    member that is no field is passed over, and an array has no more items than
    there are fields. -/
def ofJson? (names : List String) : Json → Option Record
  | .obj members =>
    let known := members.filter fun m => names.contains m.1
    if (known.map (·.1)).Nodup then some ⟨false, known⟩ else none
  | .arr items => if items.length ≤ names.length then some ⟨true, names.zip items⟩ else none
  | _ => none

/-- What a field holds. -/
def field? (r : Record) (name : String) : Option Json := NameMap.find? name r.fields

/-- A field that has to be present. -/
def required? {β : Type} (r : Record) (name : String) (read : Json → Option β) : Option β :=
  r.field? name >>= read

/-- A field that may be absent, which an array cannot express by leaving it
    out. -/
def optional? {β : Type} (r : Record) (name : String) (read : Json → Option β) :
    Option (Option β) :=
  match r.field? name with
  | some j => j.toOption? read
  | none => if r.asArray then none else some none

/-- A field that takes a default when it is left out. -/
def default? {β : Type} (r : Record) (name : String) (read : Json → Option β) (default : β) :
    Option β :=
  match r.field? name with
  | some j => read j
  | none => some default

end Record

end CyclePlan
