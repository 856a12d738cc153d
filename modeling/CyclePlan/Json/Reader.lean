import CyclePlan.Json.Token

/-!
# Reading JSON

The value of a JSON text.

The grammar is read by descent over the tokens. Members of an object are kept
in order, repeated names included, because what a repetition means depends on
what is read: a structure refuses it, a map takes the last. A name that stands
for nothing makes its whole object unreadable.

## Main definitions

* `Json.parse?`: The value of a text, if the text is one value and nothing
  else.
-/

namespace CyclePlan

namespace Json

/-- An object, unreadable if one of its names is. -/
def ofMembers (members : List (Option String × Json)) : Json :=
  match members.mapM fun m => m.1.map (·, m.2) with
  | some named => .obj named
  | none => .unreadable

mutual

/-- The value at the front of tokens, and the tokens that follow it. -/
def value? : Nat → List Token → Option (Json × List Token)
  | 0, _ => none
  | _ + 1, .word j :: rest => some (j, rest)
  | _ + 1, .number lit :: rest => some (lit.toJson, rest)
  | _ + 1, .text s :: rest => some ((s.map Json.str).getD .unreadable, rest)
  | _ + 1, .mark '[' :: .mark ']' :: rest => some (.arr [], rest)
  | _ + 1, .mark '\x7b' :: .mark '\x7d' :: rest => some (.obj [], rest)
  | fuel + 1, .mark '[' :: rest => do
    let (items, rest) ← items? fuel rest
    return (.arr items, rest)
  | fuel + 1, .mark '\x7b' :: rest => do
    let (members, rest) ← members? fuel rest
    return (ofMembers members, rest)
  | _ + 1, _ => none

/-- The items of an array up to its closing bracket. -/
def items? : Nat → List Token → Option (List Json × List Token)
  | 0, _ => none
  | fuel + 1, ts => do
    let (j, rest) ← value? fuel ts
    match rest with
    | .mark ']' :: rest => return ([j], rest)
    | .mark ',' :: rest =>
      let (items, rest) ← items? fuel rest
      return (j :: items, rest)
    | _ => none

/-- The members of an object up to its closing brace. -/
def members? : Nat → List Token → Option (List (Option String × Json) × List Token)
  | fuel + 1, .text name :: .mark ':' :: ts => do
    let (j, rest) ← value? fuel ts
    match rest with
    | .mark '\x7d' :: rest => return ([(name, j)], rest)
    | .mark ',' :: rest =>
      let (members, rest) ← members? fuel rest
      return ((name, j) :: members, rest)
    | _ => none
  | _, _ => none

end

/-- The value of a text, if the text is one value and nothing else. Between two
    steps down the grammar at least every second one takes a token. -/
def parse? (s : String) : Option Json := do
  let ts ← tokens? s
  let (j, rest) ← value? (2 * ts.length + 1) ts
  if rest.isEmpty then some j else none

end Json

end CyclePlan
