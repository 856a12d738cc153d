import CyclePlan.Json.Basic

/-!
# Number literals

What a JSON number stands for.

An integer literal stands for itself as long as it fits into sixty-four bits,
unsigned or, below zero, signed. Every other literal is a double. Its digits
are gathered into an unsigned number of sixty-four bits, digits that no longer
fit only shift the power of ten, and the result is scaled by one
multiplication or division. For literals of up to fifteen digits this is the
nearest double; for longer ones it may be a neighbour of it. A literal beyond
the greatest double stands for nothing.

Minus zero is the one integer literal that is a double, since no integer keeps
its sign.

## Main definitions

* `NumberLiteral`: The parts of a number as written.
* `NumberLiteral.toInt?`: The integer, if the literal is one.
* `NumberLiteral.toFloat?`: The double, if there is one.
* `NumberLiteral.toJson`: The value.
-/

namespace CyclePlan

namespace Json

/-- The parts of a number as written. -/
structure NumberLiteral where
  negative : Bool
  whole : List Nat
  /-- The digits after the point, if there is one. -/
  fraction : Option (List Nat)
  /-- The sign and the digits of the exponent, if there is one. -/
  exponent : Option (Bool × List Nat)
  deriving DecidableEq, Repr

namespace NumberLiteral

/-- The number that digits stand for. -/
def ofDigits (ds : List Nat) : Nat := ds.foldl (fun n d => 10 * n + d) 0

/-- The integer, if the literal is one that fits into sixty-four bits. -/
def toInt? (lit : NumberLiteral) : Option Int :=
  match lit.fraction, lit.exponent with
  | none, none =>
    let n := ofDigits lit.whole
    if lit.negative then
      if 0 < n ∧ 2 * n ≤ UInt64.size then some (-(n : Int)) else none
    else if n < UInt64.size then some n else none
  | _, _ => none

/-- Appends digits to a number as long as it stays within sixty-four bits.
    Returns the number and the digits that were left. -/
def gather : Nat → List Nat → Nat × List Nat
  | n, [] => (n, [])
  | n, d :: rest => if 10 * n + d < UInt64.size then gather (10 * n + d) rest else (n, d :: rest)

/-- Ten to a power, as a double. -/
def tenTo (k : Nat) : Float := Float.ofScientific 1 false k

/-- A double times ten to a power, if that is within range. Powers below the
    smallest that a double can hold are reached in two divisions. -/
def scale? (x : Float) (k : Int) : Option Float :=
  if 0 ≤ k then
    if k ≤ 308 then
      let y := x * tenTo k.toNat
      if y.isInf then none else some y
    else if x == 0 then some x else none
  else
    let down := (-k).toNat
    if down ≤ 308 then some (x / tenTo down)
    else if down ≤ 616 then some (x / tenTo 308 / tenTo (down - 308))
    else some 0

/-- The double that a literal stands for, if it is within range. -/
def toFloat? (lit : NumberLiteral) : Option Float :=
  let (n, dropped) := gather 0 lit.whole
  let places := lit.fraction.getD []
  let (n, unread) := gather n places
  let shift : Int := (dropped.length : Int) - ((places.length - unread.length : Nat) : Int)
  let power : Int :=
    match lit.exponent with
    | none => 0
    | some (negative, ds) => if negative then -(ofDigits ds : Int) else ofDigits ds
  (scale? (Float.ofNat n) (shift + power)).map fun x => if lit.negative then -x else x

/-- The value of a literal. -/
def toJson (lit : NumberLiteral) : Json :=
  match lit.toInt? with
  | some n => .int n
  | none =>
    match lit.toFloat? with
    | some x => .float x
    | none => .unreadable

end NumberLiteral

end Json

end CyclePlan
