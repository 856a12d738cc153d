import CyclePlan.Lp.Model

/-!
# Linear programs as text

A model in the LP format that solvers exchange.

The sections follow each other in a fixed order: the objective, the
constraints under their numbers, the bounds of all variables that are not
binary, and the lists of integer and of binary variables, which are left out
when they are empty. A coefficient of one is not written, and empty terms are
written as zero.

## Main definitions

* `Model.termsText`: Terms, as one line of the format.
* `Model.text`: The model.
-/

namespace CyclePlan

namespace Model

variable {α : Type} [Scalar α]

/-- A magnitude in front of a name, left out if it is one. -/
def scaledName (magnitude : α) (name : String) : String :=
  if magnitude == 1 then name else Scalar.text magnitude ++ " " ++ name

/-- Terms, as one line of the format. The first sign is written only if it is a
    minus. -/
def termsText (m : Model α) (terms : List (Nat × α)) : String :=
  let nameOf (v : Nat) : String := ((m.vars[v]?).map (·.name)).getD ""
  let magnitudeText (t : Nat × α) : String := scaledName (Scalar.abs t.2) (nameOf t.1)
  match terms with
  | [] => "0"
  | first :: rest =>
    (if first.2 < 0 then "- " else "") ++ magnitudeText first
      ++ String.join (rest.map fun t =>
        (if t.2 < 0 then " - " else " + ") ++ magnitudeText t)

/-- The bounds of a variable, as one line of the format. -/
def boundsText (v : Variable α) : String :=
  match v.lower, v.upper with
  | some l, some u => " " ++ Scalar.text l ++ s!" <= {v.name} <= " ++ Scalar.text u
  | some l, none => s!" {v.name} >= " ++ Scalar.text l
  | none, some u => s!" -inf <= {v.name} <= " ++ Scalar.text u
  | none, none => s!" {v.name} free"

/-- A section that lists the variables of a kind, if there are any. -/
def listSection (m : Model α) (title : String) (kind : VariableKind) : List String :=
  match m.vars.filter fun v => v.kind == kind with
  | [] => []
  | vs => [title, " " ++ " ".intercalate (vs.map (·.name))]

/-- The lines of the format. -/
def lines (m : Model α) : List String :=
  [s!"\\* {m.name} *\\",
   match m.objective.direction with
   | .minimize => "Minimize"
   | .maximize => "Maximize",
   " obj: " ++ m.termsText m.objective.terms,
   "Subject To"]
  ++ m.constraints.map (fun (id, c) =>
    s!" c{id}: " ++ m.termsText c.terms ++ " " ++ c.relation.text ++ " " ++ Scalar.text c.rhs)
  ++ ["Bounds"]
  ++ (m.vars.filter fun v => v.kind != .binary).map boundsText
  ++ m.listSection "General" .integer
  ++ m.listSection "Binary" .binary
  ++ ["End"]

/-- The model in LP format. Every line is ended. -/
def text (m : Model α) : String := String.join (m.lines.map (· ++ "\n"))

end Model

end CyclePlan
