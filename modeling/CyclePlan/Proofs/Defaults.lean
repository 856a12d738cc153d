import CyclePlan.Proofs.Json.Shape

/-!
# Defaults

What a configuration document means when fields are left out of it.

A configuration is written with all of its fields, those of its budget and of its solver
included. If fields are taken out of the document again, at the top or inside of these two
objects, then reading it puts the default in place of each field that was taken out and
keeps the others (`RunConfig.reads_with_defaults`). If none is taken out, then reading gives
back what was written.

There is one exception. The budget has a default for each of its fields, while the
configuration of the solver has to have both of its fields or to be left out as a whole. A
document that keeps one of them is refused (`RunConfig.split_solver_refused`).

How a text is cut into values is not looked at here. A text is taken to stand for a document
if reading its value gives the document.

## Main definitions

* `RunConfig.InRange`: The numbers of a configuration fit into its fields.
* `Omission`: The fields that are left out.
* `RunConfig.documentWithout`: A document without them.
* `RunConfig.defaulting`: A configuration with defaults in their place.

## Theorems

* `PinningBudget.ofJson?_dropMembers`, `SearchConfig.ofJson?_dropMembers`: The two objects
  inside of a document.
* `Formulation.ofJson?_toJson`: The formulation.
* `RunConfig.reads_with_defaults`: The document.
-/

namespace CyclePlan

/-! ### Parameters -/

/-- An integer of sixty-four bits. -/
def IsSigned (n : Int) : Prop := Int64.minValue.toInt ≤ n ∧ n ≤ Int64.maxValue.toInt

instance (n : Int) : Decidable (IsSigned n) := inferInstanceAs (Decidable (_ ∧ _))

theorem Formulation.ofJson?_toJson {f : Formulation}
    (h : ∀ horizon, f = .timeIndexed (some horizon) → IsSigned horizon) :
    ofJson? f.toJson = some f := by
  cases f with
  | ordering => rfl
  | timeIndexed horizon =>
      cases horizon with
      | none => rfl
      | some n =>
          have hn : (Json.int n).toSigned? = some n := Json.toSigned?_int.mpr (h n rfl)
          have hfield : Record.ofJson? ["horizon"] (.obj [("horizon", .int n)]) =
              some ⟨false, [("horizon", .int n)]⟩ := rfl
          have hvalue : (⟨false, [("horizon", .int n)]⟩ : Record).optional? "horizon"
              Json.toSigned? = (Json.int n).toSigned?.map some := rfl
          simp only [toJson, ofJson?, Json.toCase?, Json.ofOption, hfield, Option.bind_eq_bind,
            Option.bind_some, hvalue, hn]
          rfl

theorem PinningBudget.ofJson?_dropMembers {b : PinningBudget}
    (hiterations : b.iterations < UInt64.size) (hlatency : IsSigned b.maxLatency)
    (gone : List String) :
    ofJson? (b.toJson.dropMembers gone) = some {
      iterations := if "iterations" ∈ gone then 1000 else b.iterations
      maxLatency := if "max_latency" ∈ gone then 1000 else b.maxLatency } := by
  have hrecord : Record.ofJson? ["iterations", "max_latency"] (b.toJson.dropMembers gone) =
      some (.without [("iterations", Json.ofNat b.iterations), ("max_latency", .int b.maxLatency)]
        gone) := Record.ofJson?_dropMembers (by decide) (by rfl) gone
  rw [ofJson?, hrecord]
  simp only [Option.bind_eq_bind, Option.bind_some]
  rw [Record.default?_of_read rfl (Json.toCount?_ofNat hiterations),
    Record.default?_of_read rfl (Json.toSigned?_int.mpr hlatency)]
  rfl

theorem SearchConfig.ofJson?_dropMembers {c : SearchConfig Float}
    (hnodes : c.maxNodes < UInt64.size) (gone : List String) :
    ofJson? (c.toJson.dropMembers gone) =
      if "max_nodes" ∈ gone ∨ "tolerance" ∈ gone then none else some c := by
  have hrecord : Record.ofJson? ["max_nodes", "tolerance"] (c.toJson.dropMembers gone) =
      some (.without [("max_nodes", Json.ofNat c.maxNodes), ("tolerance", .float c.tolerance)]
        gone) := Record.ofJson?_dropMembers (by decide) (by rfl) gone
  rw [ofJson?, hrecord]
  simp only [Option.bind_eq_bind, Option.bind_some]
  rw [Record.required?_without rfl, Record.required?_without rfl, Json.toCount?_ofNat hnodes,
    Json.toNumber?]
  by_cases hfirst : "max_nodes" ∈ gone <;> by_cases hsecond : "tolerance" ∈ gone <;>
    simp [hfirst, hsecond]

/-! ### Documents -/

/-- The names of the fields that are left out of a document: at the top, of the budget and of
    the configuration of the solver. -/
structure Omission where
  top : List String := []
  budget : List String := []
  solver : List String := []

/-- Whether the configuration of the solver is kept, but not all of it. -/
def Omission.SplitsSolver (gone : Omission) : Prop :=
  "solver" ∉ gone.top ∧ ("max_nodes" ∈ gone.solver ∨ "tolerance" ∈ gone.solver)

instance (gone : Omission) : Decidable gone.SplitsSolver := inferInstanceAs (Decidable (_ ∧ _))

/-- An object with one of its members changed. -/
def Json.mapMember (name : String) (f : Json → Json) : Json → Json
  | .obj members => .obj (members.map fun m => if m.1 = name then (m.1, f m.2) else m)
  | j => j

namespace RunConfig

/-- The numbers of a configuration fit into its fields, and its raw values are as documents
    give them. -/
structure InRange (c : RunConfig) : Prop where
  horizon : ∀ n, c.formulation = .timeIndexed (some n) → IsSigned n
  maxInterval : IsSigned c.maxInterval
  iterations : c.pinning.iterations < UInt64.size
  maxLatency : IsSigned c.pinning.maxLatency
  maxNodes : c.solver.maxNodes < UInt64.size
  resources : ∀ e ∈ c.resources.entries,
    e.2.isReadable = true ∧ e.2.isSorted = true ∧ e.2.depth + 2 ≤ maxDepth

variable (c : RunConfig) (gone : Omission)

/-- The document of a configuration, without some of its fields. -/
def documentWithout : Json :=
  ((c.toJson.mapMember "enforcement" (·.dropMembers gone.budget)).mapMember "solver"
    (·.dropMembers gone.solver)).dropMembers gone.top

/-- The configuration with the default in place of every field that is left out. -/
def defaulting : RunConfig :=
  let d : RunConfig := {}
  { discipline := if "technique" ∈ gone.top then d.discipline else c.discipline
    resources := if "resources" ∈ gone.top then d.resources else c.resources
    formulation := if "strategy" ∈ gone.top then d.formulation else c.formulation
    sameBlockOnly :=
      if "restrict_to_same_block" ∈ gone.top then d.sameBlockOnly else c.sameBlockOnly
    maxInterval := if "max_ii" ∈ gone.top then d.maxInterval else c.maxInterval
    pinning := {
      iterations :=
        if "enforcement" ∈ gone.top ∨ "iterations" ∈ gone.budget then d.pinning.iterations
        else c.pinning.iterations
      maxLatency :=
        if "enforcement" ∈ gone.top ∨ "max_latency" ∈ gone.budget then d.pinning.maxLatency
        else c.pinning.maxLatency }
    solver := {
      maxNodes :=
        if "solver" ∈ gone.top ∨ "max_nodes" ∈ gone.solver then d.solver.maxNodes
        else c.solver.maxNodes
      tolerance :=
        if "solver" ∈ gone.top ∨ "tolerance" ∈ gone.solver then d.solver.tolerance
        else c.solver.tolerance } }

@[simp] theorem documentWithout_nothing : c.documentWithout {} = c.toJson := rfl

@[simp] theorem defaulting_nothing : c.defaulting {} = c := rfl

variable {c} {gone}

/-- Reading a document without some fields gives the configuration with defaults in their
    place, unless the configuration of the solver is kept in part. -/
theorem ofJson?_documentWithout (hc : c.InRange) :
    ofJson? (c.documentWithout gone) =
      if gone.SplitsSolver then none else some (c.defaulting gone) := by
  have hrecord : Record.ofJson? ["technique", "resources", "strategy", "restrict_to_same_block",
      "max_ii", "enforcement", "solver"] (c.documentWithout gone) =
      some (.without [("technique", .str c.discipline), ("resources", Json.ofMap id c.resources),
        ("strategy", c.formulation.toJson), ("restrict_to_same_block", .bool c.sameBlockOnly),
        ("max_ii", .int c.maxInterval), ("enforcement", c.pinning.toJson.dropMembers gone.budget),
        ("solver", c.solver.toJson.dropMembers gone.solver)] gone.top) :=
    Record.ofJson?_dropMembers (by decide) (by rfl) gone.top
  have hresources : Json.toMap? rawValue? (Json.ofMap id c.resources) = some c.resources :=
    Json.toMap?_ofMap fun e he =>
      rawValue?_eq_self (hc.resources e he).1 (hc.resources e he).2.1 (hc.resources e he).2.2
  have htechnique : Json.toText? (.str c.discipline) = some c.discipline := rfl
  have hsame : Json.toBool? (.bool c.sameBlockOnly) = some c.sameBlockOnly := rfl
  rw [ofJson?, hrecord]
  simp only [Option.bind_eq_bind, Option.bind_some]
  rw [Record.default?_of_read rfl htechnique, Record.default?_of_read rfl hresources,
    Record.default?_of_read rfl (Formulation.ofJson?_toJson hc.horizon),
    Record.default?_of_read rfl hsame,
    Record.default?_of_read rfl (Json.toSigned?_int.mpr hc.maxInterval),
    Record.default?_of_read rfl
      (PinningBudget.ofJson?_dropMembers hc.iterations hc.maxLatency gone.budget),
    Record.default?_without rfl, SearchConfig.ofJson?_dropMembers hc.maxNodes]
  simp only [Option.bind_some]
  -- All fields but the last are read. The last one may be there and be refused.
  by_cases hsolver : "solver" ∈ gone.top
  · have hwhole : ¬ gone.SplitsSolver := fun h => h.1 hsolver
    rw [if_pos hsolver, if_neg hwhole]
    by_cases hbudget : "enforcement" ∈ gone.top <;> simp [defaulting, hsolver, hbudget]
  · by_cases hsplit : "max_nodes" ∈ gone.solver ∨ "tolerance" ∈ gone.solver
    · have hsplits : gone.SplitsSolver := ⟨hsolver, hsplit⟩
      rw [if_neg hsolver, if_pos hsplit, if_pos hsplits]
      rfl
    · have hwhole : ¬ gone.SplitsSolver := fun h => hsplit h.2
      rw [if_neg hsolver, if_neg hsplit, if_neg hwhole]
      rw [not_or] at hsplit
      by_cases hbudget : "enforcement" ∈ gone.top <;>
        simp [defaulting, hsolver, hsplit, hbudget]

/-- So does reading a text that stands for such a document. -/
theorem ofText?_of_parse? (hc : c.InRange) {text : String}
    (htext : Json.parse? text = some (c.documentWithout gone)) :
    ofText? text = if gone.SplitsSolver then .error .unreadable else .ok (c.defaulting gone) := by
  rw [ofText?, htext, Option.bind_eq_bind, Option.bind_some, ofJson?_documentWithout hc]
  by_cases hsplit : gone.SplitsSolver <;> simp [hsplit]

/-- A text that stands for the document of a configuration without some fields gives the
    configuration with the defaults in their place, whichever fields these are, as long as the
    configuration of the solver is left out or kept as a whole. If it is kept in part, then the
    text is refused. A text that stands for the whole document gives back the configuration. -/
theorem reads_with_defaults (hc : c.InRange) :
    (∀ (gone : Omission) (text : String), Json.parse? text = some (c.documentWithout gone) →
        ofText? text =
          if gone.SplitsSolver then .error .unreadable else .ok (c.defaulting gone)) ∧
      (Json.parse? c.text = some c.toJson → ofText? c.text = .ok c) := by
  refine ⟨fun gone text => ofText?_of_parse? hc, fun htext => ?_⟩
  have hwhole : ¬ Omission.SplitsSolver {} := by decide
  rw [← c.documentWithout_nothing] at htext
  rw [ofText?_of_parse? hc htext, if_neg hwhole, defaulting_nothing]

/-- A configuration in which no field has its default. -/
def tuned : RunConfig where
  discipline := "nopipe"
  resources := .ofList [("load", .int 1), ("mul", .arr [.int 2])]
  formulation := .timeIndexed (some 12)
  sameBlockOnly := false
  maxInterval := 8
  pinning := ⟨50, 7⟩
  solver := ⟨500, 0.5⟩

/-- Of its document, three fields are left, the last of them with one of its own. -/
def tunedOmission : Omission where
  top := ["technique", "restrict_to_same_block", "max_ii", "solver"]
  budget := ["iterations"]

/-- The document that is left, on one line. -/
def tunedText : String :=
  "\x7b\"resources\":\x7b\"load\":1,\"mul\":[2]\x7d,"
    ++ "\"strategy\":\x7b\"time_indexed\":\x7b\"horizon\":12\x7d\x7d,"
    ++ "\"enforcement\":\x7b\"max_latency\":7\x7d\x7d"

theorem documentWithout_tunedOmission :
    tuned.documentWithout tunedOmission =
      .obj [("resources", .obj [("load", .int 1), ("mul", .arr [.int 2])]),
        ("strategy", .obj [("time_indexed", .obj [("horizon", .int 12)])]),
        ("enforcement", .obj [("max_latency", .int 7)])] := rfl

theorem parse?_tunedText :
    Json.parse? tunedText = some (tuned.documentWithout tunedOmission) := by
  rw [documentWithout_tunedOmission, Json.parse?, Json.tokens?, ← String.length_toList]
  delta tunedText
  simp only [String.toList_append, String.reduceToList, List.cons_append, List.nil_append]
  rfl

/-- The other fields take their defaults. -/
theorem reads_with_defaults_tuned :
    tuned.InRange ∧ Json.parse? tunedText = some (tuned.documentWithout tunedOmission) ∧
      ∃ c, ofText? tunedText = .ok c ∧ c.discipline = "asap" ∧
        c.resources.get? "mul" = some (.arr [.int 2]) ∧ c.formulation = .timeIndexed (some 12) ∧
        c.maxInterval = 40 ∧ c.pinning = ⟨1000, 7⟩ ∧ c.solver.maxNodes = 100000 := by
  have hrange : tuned.InRange := by
    refine ⟨fun n hn => ?_, by decide, by decide, by decide, by decide, by decide +kernel⟩
    cases hn
    decide
  have hread := (reads_with_defaults hrange).1 tunedOmission tunedText parse?_tunedText
  have hwhole : ¬ tunedOmission.SplitsSolver := by decide
  rw [if_neg hwhole] at hread
  exact ⟨hrange, parse?_tunedText, _, hread, rfl, rfl, rfl, rfl, rfl, rfl⟩

/-- A document with one field of the configuration of the solver. -/
def splitText : String := "\x7b\"solver\":\x7b\"max_nodes\":100000\x7d\x7d"

/-- All other fields of the document. -/
def splitOmission : Omission where
  top := ["technique", "resources", "strategy", "restrict_to_same_block", "max_ii", "enforcement"]
  solver := ["tolerance"]

theorem documentWithout_splitOmission :
    ({} : RunConfig).documentWithout splitOmission =
      .obj [("solver", .obj [("max_nodes", .int 100000)])] := rfl

theorem parse?_splitText :
    Json.parse? splitText = some (({} : RunConfig).documentWithout splitOmission) := by
  rw [documentWithout_splitOmission, Json.parse?, Json.tokens?, ← String.length_toList]
  simp only [splitText, String.reduceToList]
  rfl

/-- The document stands for the standard configuration with all but one of its fields left
    out, and is refused. -/
theorem split_solver_refused :
    Json.parse? splitText = some (({} : RunConfig).documentWithout splitOmission) ∧
      ofText? splitText = .error .unreadable := by
  have hrange : ({} : RunConfig).InRange := by
    refine ⟨nofun, by decide, by decide, by decide, by decide, by decide⟩
  have hsplit : splitOmission.SplitsSolver := by decide
  have hread := ofText?_of_parse? hrange parse?_splitText
  rw [if_pos hsplit] at hread
  exact ⟨parse?_splitText, hread⟩

end RunConfig

end CyclePlan
