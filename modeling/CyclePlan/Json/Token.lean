import CyclePlan.Json.Literal

/-!
# JSON tokens

A JSON text cut into its tokens.

The cut is strict: no comments, no single quotes, no leading plus sign, a
digit on both sides of a point, only the four blanks of the format, and no
control character inside a text. Escapes are resolved here. One that names
half of a surrogate pair without the other half is well-formed and leaves a
text that stands for nothing.

## Main definitions

* `Token`: A token.
* `joinSurrogates`: The text of resolved escapes, if every pair is whole.
* `tokens?`: The tokens of a text, if it can be cut into tokens.
-/

namespace CyclePlan

namespace Json

/-- A token of a JSON text. -/
inductive Token where
  /-- A bracket, a brace, a comma or a colon. -/
  | mark (c : Char)
  /-- One of the words `null`, `true` and `false`. -/
  | word (j : Json)
  | number (lit : NumberLiteral)
  /-- A text, if its escapes name whole characters. -/
  | text (s : Option String)

/-- The value of a hexadecimal digit. -/
def hexDigit? (c : Char) : Option Nat :=
  if '0' ≤ c ∧ c ≤ '9' then some (c.toNat - '0'.toNat)
  else if 'a' ≤ c ∧ c ≤ 'f' then some (c.toNat - 'a'.toNat + 10)
  else if 'A' ≤ c ∧ c ≤ 'F' then some (c.toNat - 'A'.toNat + 10)
  else none

/-- The number that four hexadecimal digits stand for. -/
def hexQuad? (a b c d : Char) : Option Nat := do
  let a ← hexDigit? a
  let b ← hexDigit? b
  let c ← hexDigit? c
  let d ← hexDigit? d
  return ((a * 16 + b) * 16 + c) * 16 + d

/-- The character that a short escape names. -/
def shortEscape? : Char → Option Char
  | '"' => some '"'
  | '\\' => some '\\'
  | '/' => some '/'
  | 'b' => some '\x08'
  | 'f' => some '\x0c'
  | 'n' => some '\n'
  | 'r' => some '\r'
  | 't' => some '\t'
  | _ => none

/-- The code units of a text up to its closing quote, and what follows it. -/
def textUnits? : List Char → Option (List Nat × List Char)
  | [] => none
  | '"' :: rest => some ([], rest)
  | '\\' :: 'u' :: a :: b :: c :: d :: rest => do
    let unit ← hexQuad? a b c d
    let (units, rest) ← textUnits? rest
    return (unit :: units, rest)
  | '\\' :: e :: rest => do
    let c ← shortEscape? e
    let (units, rest) ← textUnits? rest
    return (c.toNat :: units, rest)
  | c :: rest =>
    if c = '\\' ∨ c.toNat < 0x20 then none
    else do
      let (units, rest) ← textUnits? rest
      return (c.toNat :: units, rest)

/-- The characters of code units, if every leading half of a surrogate pair is
    followed by a trailing half and no trailing half stands alone. -/
def joinSurrogates : List Nat → Option (List Char)
  | [] => some []
  | unit :: rest =>
    if 0xD800 ≤ unit ∧ unit < 0xDC00 then
      match rest with
      | low :: rest =>
        if 0xDC00 ≤ low ∧ low < 0xE000 then
          (joinSurrogates rest).map
            (Char.ofNat (0x10000 + (unit - 0xD800) * 0x400 + (low - 0xDC00)) :: ·)
        else none
      | [] => none
    else if 0xDC00 ≤ unit ∧ unit < 0xE000 then none
    else (joinSurrogates rest).map (Char.ofNat unit :: ·)

/-- The digits at the front of a text, and what follows them. -/
def digitSpan (cs : List Char) : List Nat × List Char :=
  ((cs.takeWhile Char.isDigit).map fun c => c.toNat - '0'.toNat, cs.dropWhile Char.isDigit)

/-- The fraction at the front of a text. No point is no fraction; a point
    without a digit after it is no number. -/
def fraction? : List Char → Option (Option (List Nat) × List Char)
  | '.' :: cs =>
    match digitSpan cs with
    | ([], _) => none
    | (ds, rest) => some (some ds, rest)
  | cs => some (none, cs)

/-- The sign at the front of an exponent: whether it is a minus, and what
    follows. -/
def exponentSign : List Char → Bool × List Char
  | '-' :: cs => (true, cs)
  | '+' :: cs => (false, cs)
  | cs => (false, cs)

/-- The exponent at the front of a text. -/
def exponent? (cs : List Char) : Option (Option (Bool × List Nat) × List Char) :=
  match cs with
  | [] => some (none, [])
  | e :: rest =>
    if e = 'e' ∨ e = 'E' then
      let (negative, rest) := exponentSign rest
      match digitSpan rest with
      | ([], _) => none
      | (ds, rest) => some (some (negative, ds), rest)
    else some (none, cs)

/-- The number at the front of a text. A leading zero is a whole part of its
    own, so a digit after it begins another token. -/
def number? (cs : List Char) : Option (NumberLiteral × List Char) := do
  let (negative, cs) :=
    match cs with
    | '-' :: rest => (true, rest)
    | _ => (false, cs)
  let (whole, cs) ←
    match cs with
    | '0' :: rest => some ([0], rest)
    | _ =>
      match digitSpan cs with
      | ([], _) => none
      | (ds, rest) => some (ds, rest)
  let (fraction, cs) ← fraction? cs
  let (exponent, cs) ← exponent? cs
  return (⟨negative, whole, fraction, exponent⟩, cs)

/-- The first token of a text that does not begin with a blank, and what
    follows it. -/
def token? : List Char → Option (Token × List Char)
  | 'n' :: 'u' :: 'l' :: 'l' :: rest => some (.word .null, rest)
  | 't' :: 'r' :: 'u' :: 'e' :: rest => some (.word (.bool true), rest)
  | 'f' :: 'a' :: 'l' :: 's' :: 'e' :: rest => some (.word (.bool false), rest)
  | '"' :: rest => do
    let (units, rest) ← textUnits? rest
    return (.text ((joinSurrogates units).map String.ofList), rest)
  | c :: rest =>
    if c ∈ ['[', ']', '\x7b', '\x7d', ',', ':'] then some (.mark c, rest)
    else do
      let (lit, rest) ← number? (c :: rest)
      return (.number lit, rest)
  | [] => none

/-- Whether a character may stand between tokens. -/
def isSeparator (c : Char) : Bool := c = ' ' || c = '\n' || c = '\r' || c = '\t'

/-- The tokens of a text of at most `fuel` characters. -/
def tokensWithin? : Nat → List Char → Option (List Token)
  | fuel, cs =>
    match fuel, cs.dropWhile isSeparator with
    | _, [] => some []
    | 0, _ :: _ => none
    | fuel + 1, cs => do
      let (t, rest) ← token? cs
      let ts ← tokensWithin? fuel rest
      return t :: ts

/-- The tokens of a text. Every token takes at least one character. -/
def tokens? (s : String) : Option (List Token) := tokensWithin? s.length s.toList

end Json

end CyclePlan
