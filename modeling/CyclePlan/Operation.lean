import CyclePlan.Scalar.Basic

/-!
# Operations

The smallest units that a schedule places.

An operation is one instruction of a kernel, or one of the two synthetic
supernodes that bound a basic block. Its kind fixes a default latency, the
number of cycles between its start and the earliest start of a consumer, and
the class of units it competes for, if it needs one that can be shared.
The three dividing kinds share one class.

Branches and constants take no part in scheduling. They are kept in the graph
and left out of the view from which constraints are made.

## Main definitions

* `Opcode`: What an operation does.
* `Opcode.latency`, `Opcode.unit?`, `Opcode.isSuper`,
  `Opcode.isStripped`: What the kind fixes.
* `Operation`: A named operation in a block.

## Theorems

* `Opcode.ofName?_name`: Names are read back.
-/

namespace CyclePlan

/-- What an operation does. -/
inductive Opcode where
  | load | store | add | sub | mul | div | udiv | sdiv
  | and | or | xor | shl | lshr | ashr | icmp | zext | sext
  | phi | br | ret | constant | superSource | superSink
  deriving DecidableEq, Repr, Inhabited

namespace Opcode

/-- Every kind, in the order of declaration. -/
def all : List Opcode :=
  [load, store, add, sub, mul, div, udiv, sdiv, and, or, xor, shl, lshr, ashr, icmp, zext, sext,
   phi, br, ret, constant, superSource, superSink]

/-- The mnemonic. -/
def name : Opcode → String
  | load => "load"
  | store => "store"
  | add => "add"
  | sub => "sub"
  | mul => "mul"
  | div => "div"
  | udiv => "udiv"
  | sdiv => "sdiv"
  | and => "and"
  | or => "or"
  | xor => "xor"
  | shl => "shl"
  | lshr => "lshr"
  | ashr => "ashr"
  | icmp => "icmp"
  | zext => "zext"
  | sext => "sext"
  | phi => "phi"
  | br => "br"
  | ret => "ret"
  | constant => "constant"
  | superSource => "supersource"
  | superSink => "supersink"

/-- The kind with a mnemonic. -/
def ofName? (s : String) : Option Opcode := all.find? fun k => k.name == s

/-- The default latency in cycles. -/
def latency : Opcode → Nat
  | load => 2
  | mul => 3
  | div | udiv | sdiv => 8
  | phi | br | ret | constant | superSource | superSink => 0
  | _ => 1

/-- The class of units that the kind competes for, if they can be shared. -/
def unit? : Opcode → Option String
  | load => some "load"
  | store => some "store"
  | add => some "add"
  | sub => some "sub"
  | mul => some "mul"
  | div | udiv | sdiv => some "div"
  | zext => some "zext"
  | sext => some "sext"
  | _ => none

/-- Whether the kind bounds a block. -/
def isSuper : Opcode → Bool
  | superSource | superSink => true
  | _ => false

/-- Whether the kind is left out of the scheduling view. Such operations take
    no time, but a loop-carried dependency on a branch would tie the initiation
    interval to the length of one iteration. -/
def isStripped : Opcode → Bool
  | br | constant => true
  | _ => false

/-- A mnemonic names its kind. -/
@[simp] theorem ofName?_name (k : Opcode) : ofName? k.name = some k := by
  cases k <;> decide

end Opcode

/-- An operation of a control and data flow graph. -/
structure Operation (α : Type) where
  name : String
  kind : Opcode
  /-- The number of the block that the operation belongs to. -/
  block : Nat
  /-- Cycles between the start and the earliest start of a consumer. -/
  latency : α
  /-- The start cycle, once a schedule has been applied. -/
  cycle : Option Int := none

/-- An operation with the default latency of its kind. -/
def Operation.ofKind {α : Type} [Scalar α] (name : String) (kind : Opcode) (block : Nat) :
    Operation α where
  name := name
  kind := kind
  block := block
  latency := Scalar.ofInt kind.latency

end CyclePlan
