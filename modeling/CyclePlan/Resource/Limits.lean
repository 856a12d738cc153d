import CyclePlan.Json.Writer
import CyclePlan.NameMap
import CyclePlan.Operation

/-!
# Resource limits

How many units of a class may be issued in one cycle.

Limits are collected entry by entry. An entry is refused if its class cannot
be limited or its capacity is not a positive integer of thirty-two bits; the
others still apply, and a later entry for a class replaces an earlier one.

## Main definitions

* `limitedClasses`: The classes that can be limited.
* `CapacityError`: Why an entry is refused.
* `Limits`: Capacities by class.
* `Limits.set`, `Limits.extend`, `Limits.ofEntries`: Applying entries.
* `Limits.capacity?`, `Limits.capacityOf?`: Looking capacities up.
-/

namespace CyclePlan

/-- The classes of units that can be limited. -/
def limitedClasses : List String := ["load", "store", "add", "sub", "mul", "div", "zext", "sext"]

/-- Why an entry is refused. -/
inductive CapacityError where
  | unknownClass (name : String)
  /-- The capacity is not positive, or too large. -/
  | invalid (name : String) (value : Int)
  /-- The capacity is not an integer at all. -/
  | malformed (name : String) (value : Json)

/-- The wording of a refusal. -/
def CapacityError.message : CapacityError → String
  | unknownClass name =>
    s!"resource '{name}' is not allowed (allowed resources = ["
      ++ ", ".intercalate (limitedClasses.map Json.quote) ++ "])"
  | invalid name value =>
    s!"resource '{name}' has invalid capacity {value}; expected a positive integer"
  | malformed name value =>
    s!"resource '{name}' has malformed capacity " ++ value.compact
      ++ "; expected a positive integer"

/-- Capacities by class. -/
structure Limits where
  capacities : NameMap Nat := .empty
  deriving BEq, DecidableEq, Repr

namespace Limits

/-- No class is limited. -/
def none : Limits := {}

/-- The capacity of a class, if it is limited. -/
def capacity? (limits : Limits) (name : String) : Option Nat := limits.capacities.get? name

/-- The capacity that applies to a kind, if its class is limited. -/
def capacityOf? (limits : Limits) (kind : Opcode) : Option Nat :=
  kind.unit? >>= limits.capacity?

/-- Limits one class. Answers the new limits and the capacity that was
    replaced. -/
def set (limits : Limits) (name : String) (capacity : Int) :
    Except CapacityError (Limits × Option Nat) :=
  if !limitedClasses.contains name then .error (.unknownClass name)
  else if 0 < capacity ∧ capacity < UInt32.size then
    .ok (⟨limits.capacities.insert name capacity.toNat⟩, limits.capacity? name)
  else .error (.invalid name capacity)

/-- Applies entries one after the other. Answers the limits and the refusals. -/
def extend (limits : Limits) : List (String × Int) → Limits × List CapacityError
  | [] => (limits, [])
  | (name, capacity) :: rest =>
    match limits.set name capacity with
    | .ok (limits, _) => limits.extend rest
    | .error e =>
      let (limits, errors) := limits.extend rest
      (limits, e :: errors)

/-- The limits that entries give, and the refusals. -/
def ofEntries (entries : List (String × Int)) : Limits × List CapacityError := none.extend entries

/-- The limited classes with their capacities, by name. -/
def toList (limits : Limits) : List (String × Nat) := limits.capacities.entries

end Limits

end CyclePlan
