import CyclePlan.Decimal.Layout
import CyclePlan.Json.Basic

/-!
# Writing JSON

The text of a JSON value, on one line or indented.

Members are written in the order in which the value lists them. Only the
quote, the backslash and the control characters are escaped. The indented form
puts every item and member on a line of its own, two blanks further in than
its container, and keeps empty containers on one line.

## Main definitions

* `Json.quote`: The text of a text.
* `Json.compact`: The text of a value, on one line.
* `Json.pretty`: The text of a value, indented.
-/

namespace CyclePlan

namespace Json

/-- A hexadecimal digit, in lower case. -/
def hexChar (n : Nat) : Char := if n < 10 then Char.ofNat (48 + n) else Char.ofNat (87 + n)

/-- How a character is written inside a text. -/
def escape (c : Char) : List Char :=
  if c = '"' then ['\\', '"']
  else if c = '\\' then ['\\', '\\']
  else if c = '\x08' then ['\\', 'b']
  else if c = '\x0c' then ['\\', 'f']
  else if c = '\n' then ['\\', 'n']
  else if c = '\r' then ['\\', 'r']
  else if c = '\t' then ['\\', 't']
  else if c.toNat < 0x20 then ['\\', 'u', '0', '0', hexChar (c.toNat / 16), hexChar (c.toNat % 16)]
  else [c]

/-- The text of a text, between quotes. -/
def quote (s : String) : String := String.ofList ('"' :: s.toList.flatMap escape ++ ['"'])

/-- The text of a number, a truth value, a text or the absent value. -/
def scalarText : Json → String
  | .bool b => if b then "true" else "false"
  | .int n => toString n
  | .float x => Decimal.Layout.document.write x
  | .str s => quote s
  | _ => "null"

mutual

/-- The text of a value, on one line and without blanks. -/
def compact : Json → String
  | .arr items => "[" ++ ",".intercalate (compactItems items) ++ "]"
  | .obj members => "\x7b" ++ ",".intercalate (compactMembers members) ++ "\x7d"
  | j => scalarText j

/-- The texts of items. -/
def compactItems : List Json → List String
  | [] => []
  | j :: rest => compact j :: compactItems rest

/-- The texts of members. -/
def compactMembers : List (String × Json) → List String
  | [] => []
  | (name, j) :: rest => (quote name ++ ":" ++ compact j) :: compactMembers rest

end

/-- A new line, indented by a number of steps. -/
def newLine (indent : Nat) : String := String.ofList ('\n' :: List.replicate (2 * indent) ' ')

/-- Lines between an opening and a closing mark. -/
def enclose (indent : Nat) (opening closing : String) (lines : List String) : String :=
  opening ++ ",".intercalate (lines.map (newLine (indent + 1) ++ ·)) ++ newLine indent ++ closing

mutual

/-- The text of a value that stands `indent` steps in. -/
def prettyAt (indent : Nat) : Json → String
  | .arr [] => "[]"
  | .obj [] => "\x7b\x7d"
  | .arr items => enclose indent "[" "]" (prettyItems (indent + 1) items)
  | .obj members => enclose indent "\x7b" "\x7d" (prettyMembers (indent + 1) members)
  | j => scalarText j

/-- The texts of items that stand `indent` steps in. -/
def prettyItems (indent : Nat) : List Json → List String
  | [] => []
  | j :: rest => prettyAt indent j :: prettyItems indent rest

/-- The texts of members that stand `indent` steps in. -/
def prettyMembers (indent : Nat) : List (String × Json) → List String
  | [] => []
  | (name, j) :: rest => (quote name ++ ": " ++ prettyAt indent j) :: prettyMembers indent rest

end

/-- The text of a value, indented. -/
def pretty (j : Json) : String := prettyAt 0 j

end Json

end CyclePlan
