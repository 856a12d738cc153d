import CyclePlan.Proofs.Lp.FurtherRows
import CyclePlan.Proofs.Lp.NearlyWhole
import CyclePlan.Proofs.Lp.NodeLimit
import CyclePlan.Proofs.Scalar.Rounding

/-!
# Answers at the Root

Programs that one relaxation solves.

If all values of a point are rounded down, or all are rounded up, then differences that
were at least a whole number still are, and so are values that were within whole bounds.
A program that bounds nothing else keeps its points (`Program.KeepsRounded`). If its goal
also pulls all variables the same way, one of the two roundings makes no point worse, and
makes it better unless all values were whole (`Program.PullsOneWay`). So the best point
is integral without having been asked to be (`Program.IsBestPoint.isBest`).

A search on such a program looks at the first box and is done. If there is a best point,
nothing is left to split; if there is none, there is no other box to turn to.

## Main definitions

* `Program.IsPoint`, `Program.IsBestPoint`: Solutions that need not be integral.
* `Program.KeepsRounded`, `Program.PullsOneWay`: What makes a best point integral.

## Theorems

* `Program.IsBestPoint.isBest`: A best point is a best solution.
* `BranchAndBound.isPointWithin_valuesAt_iff`: What the first relaxation asks for.
* `BranchAndBound.solve_of_keepsRounded`: One relaxation is enough.
-/

namespace CyclePlan

/-- Whole bounds are kept. -/
theorem IsRounding.admits {ρ : Rat → Int} (h : IsRounding ρ) {v : Variable Rat} {x : Rat}
    (hv : Bounds.IsWhole ⟨v.lower, v.upper⟩) (hx : v.Admits x) : v.Admits (ρ x) := by
  refine ⟨fun l hl => ?_, fun u hu => ?_⟩
  · rcases hv.lower with ⟨l', hl', hgrid⟩
    cases hl'.symm.trans hl
    rcases OnGrid.one_iff.mp hgrid with ⟨n, rfl⟩
    exact h.ge_of_ge (hx.above _ hl)
  · rcases OnGrid.one_iff.mp (hv.upper u hu) with ⟨n, rfl⟩
    exact h.le_of_le (hx.below _ hu)

/-! ### Programs -/

namespace Program

variable {f : Program} {ρ : Rat → Int} {y : String → Rat}

/-- Values by name keep the bounds and satisfy the rows. -/
structure IsPoint (f : Program) (y : String → Rat) : Prop where
  admits : ∀ v ∈ f.vars, v.Admits (y v.name)
  meets : ∀ r ∈ f.rows, r.Holds y

/-- A point than which no other has a smaller sum. -/
structure IsBestPoint (f : Program) (y : String → Rat) : Prop extends f.IsPoint y where
  least : ∀ z, f.IsPoint z → Row.sum f.goal y ≤ Row.sum f.goal z

theorem IsSolution.isPoint (h : f.IsSolution y) : f.IsPoint y := ⟨h.admits, h.meets⟩

/-- The bounds are whole, and where the rows hold, they hold for rounded values. -/
structure KeepsRounded (f : Program) : Prop where
  bounds : ∀ v ∈ f.vars, Bounds.IsWhole ⟨v.lower, v.upper⟩
  rows : ∀ {ρ : Rat → Int} {y : String → Rat}, IsRounding ρ → (∀ r ∈ f.rows, r.Holds y) →
    ∀ r ∈ f.rows, r.Holds fun name => (ρ (y name) : Rat)

/-- The goal makes all variables small, or it makes all of them large. -/
structure PullsOneWay (f : Program) : Prop where
  covers : ∀ v ∈ f.vars, ∃ t ∈ f.goal, t.1 = v.name
  sign : (∀ t ∈ f.goal, 0 < t.2) ∨ ∀ t ∈ f.goal, t.2 < 0

/-- Rounded, a point is a solution. -/
theorem KeepsRounded.isSolution (hf : f.KeepsRounded) (hρ : IsRounding ρ) (hy : f.IsPoint y) :
    f.IsSolution fun name => (ρ (y name) : Rat) where
  admits v hv := hρ.admits (hf.bounds v hv) (hy.admits v hv)
  meets := hf.rows hρ hy.meets
  integral v _ _ := ⟨ρ (y v.name), rfl⟩

/-- A rounding that makes no term larger, and makes a term smaller unless its value is
    whole. -/
structure IsGain (f : Program) (ρ : Rat → Int) : Prop extends IsRounding ρ where
  le : ∀ t ∈ f.goal, ∀ x : Rat, t.2 * ρ x ≤ t.2 * x
  whole : ∀ t ∈ f.goal, ∀ x : Rat, t.2 * x ≤ t.2 * ρ x → x = ρ x

/-- What is to be small is rounded down, and what is to be large is rounded up. -/
theorem PullsOneWay.exists_isGain (h : f.PullsOneWay) : ∃ ρ, f.IsGain ρ := by
  rcases h.sign with hpos | hneg
  · refine ⟨Int.floor, .floor, fun t ht x => ?_, fun t ht x hle => ?_⟩
    · exact mul_le_mul_of_nonneg_left (Int.floor_le x) (hpos t ht).le
    · exact le_antisymm (le_of_mul_le_mul_left hle (hpos t ht)) (Int.floor_le x)
  · refine ⟨Int.ceil, .ceil, fun t ht x => ?_, fun t ht x hle => ?_⟩
    · exact mul_le_mul_of_nonpos_left (Int.le_ceil x) (hneg t ht).le
    · exact le_antisymm (Int.le_ceil x) ((mul_le_mul_left_of_neg (hneg t ht)).mp hle)

/-- A rounding that makes no term larger makes no sum larger, and leaves the sum as it is
    only if all values are whole. -/
theorem sum_rounded_le {terms : List (String × Rat)}
    (hle : ∀ t ∈ terms, ∀ x : Rat, t.2 * ρ x ≤ t.2 * x)
    (hwhole : ∀ t ∈ terms, ∀ x : Rat, t.2 * x ≤ t.2 * ρ x → x = ρ x) (y : String → Rat) :
    Row.sum terms (fun name => (ρ (y name) : Rat)) ≤ Row.sum terms y ∧
      (Row.sum terms y ≤ Row.sum terms (fun name => (ρ (y name) : Rat)) →
        ∀ t ∈ terms, y t.1 = ρ (y t.1)) := by
  induction terms with
  | nil => exact ⟨le_rfl, fun _ t ht => absurd ht List.not_mem_nil⟩
  | cons t terms ih =>
      rw [List.forall_mem_cons] at hle hwhole
      obtain ⟨hrest, hall⟩ := ih hle.2 hwhole.2
      have hfirst := hle.1 (y t.1)
      simp only [Row.sum, List.map_cons, List.sum_cons] at hrest hall ⊢
      refine ⟨add_le_add hfirst hrest, fun hsum => List.forall_mem_cons.mpr ⟨?_, ?_⟩⟩
      · exact hwhole.1 _ (by linarith)
      · exact hall (by linarith)

/-- A best point has whole values. -/
theorem IsBestPoint.whole (hf : f.KeepsRounded) (hgoal : f.PullsOneWay) (h : f.IsBestPoint y) :
    ∀ v ∈ f.vars, ∃ n : Int, y v.name = n := by
  obtain ⟨ρ, hgain⟩ := hgoal.exists_isGain
  have hrounded := (hf.isSolution hgain.toIsRounding h.toIsPoint).isPoint
  have hwhole := (sum_rounded_le hgain.le hgain.whole y).2 (h.least _ hrounded)
  intro v hv
  rcases hgoal.covers v hv with ⟨t, ht, hname⟩
  exact ⟨_, hname ▸ hwhole t ht⟩

/-- A best point is a best solution. -/
theorem IsBestPoint.isBest (hf : f.KeepsRounded) (hgoal : f.PullsOneWay) (h : f.IsBestPoint y) :
    f.IsBest y :=
  ⟨⟨h.admits, h.meets, fun v hv _ => h.whole hf hgoal v hv⟩, fun z hz => h.least z hz.isPoint⟩

/-- If there is a best solution, no point is better than any given number. -/
theorem IsBest.bounded (hf : f.KeepsRounded) (hgoal : f.PullsOneWay) (h : f.IsBest y)
    {z : String → Rat} (hz : f.IsPoint z) : Row.sum f.goal y ≤ Row.sum f.goal z := by
  obtain ⟨ρ, hgain⟩ := hgoal.exists_isGain
  exact (h.least _ (hf.isSolution hgain.toIsRounding hz)).trans
    (sum_rounded_le hgain.le hgain.whole z).1

end Program

/-! ### The first relaxation -/

namespace Model

/-- The values of the variables of a model, listed by number. -/
def valuesAt (m : Model Rat) (y : String → Rat) : List Rat := m.vars.map fun v => y v.name

variable {m : Model Rat} {f : Program} {values : List Rat}

/-- Listed by number and read by name, values are the same. -/
theorem valueOf_valuesAt {name : String} (h : m.Knows name) (y : String → Rat) :
    m.valueOf (fun i => (m.valuesAt y).getD i 0) name = y name := by
  rcases m.getElem?_indexOf h with ⟨v, hv, rfl⟩
  rw [valueOf, List.getD_eq_getElem?_getD, valuesAt, List.getElem?_map, hv]
  rfl

/-- Read by name and listed by number, values are the same. -/
theorem valuesAt_valueOf (h : values.length = m.vars.length) :
    m.valuesAt (m.valueOf fun i => values.getD i 0) = values := by
  refine List.ext_getElem (by rw [valuesAt, List.length_map, h]) fun i hi hi' => ?_
  have hv := List.getElem?_eq_getElem (l := m.vars) (i := i) (by omega)
  simp only [valuesAt, List.getElem_map]
  rw [valueOf, m.indexOf_of_getElem? hv, List.getD_eq_getElem?_getD,
    List.getElem?_eq_getElem hi', Option.getD_some]

/-- The objective at listed values is the goal at the values by name. -/
theorem Renders.objectiveAt_valuesAt (h : m.Renders f) (y : String → Rat) :
    m.objectiveAt (m.valuesAt y) = Row.sum f.goal y := by
  rw [objectiveAt, h.value]
  exact Row.sum_congr fun t ht => valueOf_valuesAt (h.known t ht) y

end Model

namespace BranchAndBound

variable {relax : Relaxer Rat} {tolerance : Rat} {maxNodes : Nat} {m : Model Rat} {f : Program}

/-- The first relaxation asks for the points of the program. -/
theorem isPointWithin_valuesAt_iff (hm : m.Renders f)
    (hbounds : ∀ v ∈ f.vars, Bounds.IsWhole ⟨v.lower, v.upper⟩) (hnonneg : 0 ≤ tolerance)
    (hone : tolerance < 1) (y : String → Rat) :
    m.IsPointWithin (rootBox tolerance m) (m.valuesAt y) ↔ f.IsPoint y := by
  have hwithin : List.Forall₂ Bounds.Admits (rootBox tolerance m) (m.valuesAt y) ↔
      ∀ v ∈ f.vars, v.Admits (y v.name) := by
    rw [rootBox_eq (hm.vars ▸ hbounds) hnonneg hone, Model.valuesAt, List.forall₂_map_left_iff,
      List.forall₂_map_right_iff, List.forall₂_same, ← hm.vars]
    exact forall₂_congr fun v _ => ⟨fun h => ⟨h.above, h.below⟩, fun h => ⟨h.above, h.below⟩⟩
  have hmeets : (∀ c ∈ m.constraints, c.2.Holds fun i => (m.valuesAt y).getD i 0) ↔
      ∀ r ∈ f.rows, r.Holds y := by
    rw [hm.consists.meets_iff]
    exact forall₂_congr fun r hr =>
      Row.holds_congr fun t ht => Model.valueOf_valuesAt (hm.consists.known r hr t ht) y
  constructor
  · intro h
    exact ⟨hwithin.mp h.within, hmeets.mp h.meets⟩
  · intro h
    exact ⟨hwithin.mpr h.admits, hmeets.mpr h.meets⟩

/-- A point of the first relaxation, read by name, is a point of the program. -/
theorem isPoint_valueOf (hm : m.Renders f)
    (hbounds : ∀ v ∈ f.vars, Bounds.IsWhole ⟨v.lower, v.upper⟩) (hnonneg : 0 ≤ tolerance)
    (hone : tolerance < 1) {values : List Rat}
    (h : m.IsPointWithin (rootBox tolerance m) values) :
    f.IsPoint (m.valueOf fun i => values.getD i 0) := by
  have hlength := h.within.length_eq.symm.trans (length_rootBox tolerance m)
  rw [← isPointWithin_valuesAt_iff hm hbounds hnonneg hone, Model.valuesAt_valueOf hlength]
  exact h

/-- Whole values are not taken for fractional. -/
theorem fractional?_eq_none (hnonneg : 0 ≤ tolerance) {values : List Rat}
    (hwhole : ∀ (i : Nat) (v : Variable Rat) (x : Rat), m.vars[i]? = some v →
      values[i]? = some x → ∃ n : Int, x = n) :
    fractional? tolerance m values = none := by
  refine List.findSome?_eq_none_iff.mpr fun p hp => ?_
  rw [List.mem_zipIdx_iff_getElem?, List.getElem?_zip_eq_some] at hp
  obtain ⟨n, hn⟩ := hwhole _ _ _ hp.1 hp.2
  dsimp only
  rw [hn, Scalar.round_intCast, sub_self, Scalar.abs_rat, abs_zero]
  exact if_neg fun h => absurd h.2 (not_lt.mpr hnonneg)

/-! ### One relaxation -/

/-- What is answered if the first relaxation leaves nothing to split. -/
def rootAnswer (m : Model Rat) : Relaxation Rat → Solution Rat
  | .optimal values objective => solutionOf m .optimal 1 ⟨values, flip m * objective⟩
  | .infeasible => { status := .infeasible, nodes := 1 }
  | .unbounded => { status := .unbounded, nodes := 1 }
  | .stalled => { status := .failed "simplex pivot limit reached", nodes := 1 }

/-- Whatever it is, it took one relaxation, and the limit is not to blame. -/
theorem rootAnswer_spec (maxNodes : Nat) (r : Relaxation Rat) :
    (rootAnswer m r).nodes = 1 ∧ ¬ (rootAnswer m r).status.IsCut maxNodes := by
  cases r with
  | stalled =>
      refine ⟨rfl, fun hcut => hcut.elim (fun h => by cases h) fun h => ?_⟩
      exact stalled_text_ne maxNodes (SolverStatus.failed.inj h)
  | optimal | infeasible | unbounded =>
      exact ⟨rfl, fun hcut => hcut.elim (fun h => by cases h) fun h => by cases h⟩

/-- If the first relaxation leaves nothing to split, its answer is the answer. -/
theorem solve_eq_rootAnswer (hlimit : 1 ≤ maxNodes)
    (hwhole : ∀ values objective, relax m (rootBox tolerance m) = .optimal values objective →
      fractional? tolerance m values = none) :
    solve relax ⟨maxNodes, tolerance⟩ m = rootAnswer m (relax m (rootBox tolerance m)) := by
  obtain ⟨rest, rfl⟩ : ∃ rest, maxNodes = rest + 1 := ⟨maxNodes - 1, by omega⟩
  rw [solve_eq_solution, verdict]
  dsimp only
  cases hanswer : relax m (rootBox tolerance m) with
  | infeasible =>
      simp only [search, hanswer]
      cases rest <;> rfl
  | stalled =>
      simp only [search, hanswer]
      rfl
  | unbounded =>
      simp only [search, hanswer, if_true]
      rfl
  | optimal values objective =>
      -- Nothing has been found that could be better.
      simp only [search, hanswer, isPruned, Bool.false_eq_true, if_false,
        hwhole values objective hanswer]
      cases rest <;> rfl

/-- What the first relaxation finds, read by name, is a best point. -/
theorem isBestPoint_of_answer (hm : m.Renders f) (hf : f.KeepsRounded) (hnonneg : 0 ≤ tolerance)
    (hone : tolerance < 1)
    (hexact : (relax m (rootBox tolerance m)).IsExact m (rootBox tolerance m))
    {values : List Rat} {objective : Rat}
    (hanswer : relax m (rootBox tolerance m) = .optimal values objective) :
    values.length = m.vars.length ∧ f.IsBestPoint (m.valueOf fun i => values.getD i 0) := by
  rw [hanswer] at hexact
  rcases hexact with ⟨hbest, _⟩
  refine ⟨hbest.within.length_eq.symm.trans (length_rootBox tolerance m),
    isPoint_valueOf hm hf.bounds hnonneg hone hbest.toIsPointWithin, fun z hz => ?_⟩
  have hle := hbest.best _ ((isPointWithin_valuesAt_iff hm hf.bounds hnonneg hone z).mpr hz)
  rw [Direction.prefers_iff, hm.direction, Direction.sign, one_mul, one_mul, not_lt,
    hm.objectiveAt_valuesAt] at hle
  exact (hm.value _).symm.trans_le hle

/-- So all of its values are whole. -/
theorem whole_of_answer (hm : m.Renders f) (hf : f.KeepsRounded) (hgoal : f.PullsOneWay)
    (hnonneg : 0 ≤ tolerance) (hone : tolerance < 1)
    (hexact : (relax m (rootBox tolerance m)).IsExact m (rootBox tolerance m))
    {values : List Rat} {objective : Rat}
    (hanswer : relax m (rootBox tolerance m) = .optimal values objective) (i : Nat)
    (v : Variable Rat) (x : Rat) (hv : m.vars[i]? = some v) (hx : values[i]? = some x) :
    ∃ n : Int, x = n := by
  have hbest := (isBestPoint_of_answer hm hf hnonneg hone hexact hanswer).2
  obtain ⟨n, hn⟩ := hbest.whole hf hgoal v (hm.vars ▸ List.mem_of_getElem? hv)
  rw [Model.valueOf, m.indexOf_of_getElem? hv, List.getD_eq_getElem?_getD, hx,
    Option.getD_some] at hn
  exact ⟨n, hn⟩

/-- Where there is an optimum, the first relaxation does not deny it. -/
theorem exists_answer (hm : m.Renders f) (hf : f.KeepsRounded) (hgoal : f.PullsOneWay)
    (hnonneg : 0 ≤ tolerance) (hone : tolerance < 1)
    (hexact : (relax m (rootBox tolerance m)).IsExact m (rootBox tolerance m))
    (hanswers : relax m (rootBox tolerance m) ≠ .stalled) (hopt : ∃ x, m.IsOptimum x) :
    ∃ values objective, relax m (rootBox tolerance m) = .optimal values objective := by
  obtain ⟨y, hy⟩ := hm.exists_isOptimum_iff.mp hopt
  have hpoint := isPointWithin_valuesAt_iff hm hf.bounds hnonneg hone
  cases hanswer : relax m (rootBox tolerance m) with
  | optimal values objective => exact ⟨values, objective, rfl⟩
  | stalled => exact absurd hanswer hanswers
  | infeasible =>
      rw [hanswer] at hexact
      exact absurd ((hpoint y).mpr hy.solution.isPoint) (hexact _)
  | unbounded =>
      -- Some point would be better than the best solution.
      rw [hanswer] at hexact
      obtain ⟨values, hvalues, hbetter⟩ := hexact (Row.sum f.goal y)
      have hz := isPoint_valueOf hm hf.bounds hnonneg hone hvalues
      rw [Direction.prefers_iff, hm.direction, Direction.sign, one_mul, one_mul,
        Model.objectiveAt, hm.value] at hbetter
      exact absurd hbetter (not_lt.mpr (hy.bounded hf hgoal hz))

/-- One relaxation of a program that keeps rounded points is enough, if its answer is right.
    The limit is never to blame, and an optimum is found where there is one. -/
theorem solve_of_keepsRounded (hm : m.Renders f) (hf : f.KeepsRounded) (hgoal : f.PullsOneWay)
    (hnonneg : 0 ≤ tolerance) (hone : tolerance < 1) (hlimit : 1 ≤ maxNodes)
    (hexact : (relax m (rootBox tolerance m)).IsExact m (rootBox tolerance m)) :
    (solve relax ⟨maxNodes, tolerance⟩ m).nodes = 1 ∧
      ¬ (solve relax ⟨maxNodes, tolerance⟩ m).status.IsCut maxNodes ∧
      (relax m (rootBox tolerance m) ≠ .stalled → (∃ x, m.IsOptimum x) →
        (solve relax ⟨maxNodes, tolerance⟩ m).status = .optimal ∧
          ∃ x, (solve relax ⟨maxNodes, tolerance⟩ m).Carries m x ∧ m.IsOptimum x) := by
  rw [solve_eq_rootAnswer hlimit fun values objective hanswer =>
    fractional?_eq_none hnonneg (whole_of_answer hm hf hgoal hnonneg hone hexact hanswer)]
  refine ⟨(rootAnswer_spec maxNodes _).1, (rootAnswer_spec maxNodes _).2, ?_⟩
  intro hanswers hopt
  obtain ⟨values, objective, hanswer⟩ :=
    exists_answer hm hf hgoal hnonneg hone hexact hanswers hopt
  obtain ⟨hlength, hbest⟩ := isBestPoint_of_answer hm hf hnonneg hone hexact hanswer
  have hround : ∀ (i : Nat) (v : Variable Rat) (x : Rat), m.vars[i]? = some v →
      values[i]? = some x → v.isIntegral = true → Scalar.round x = x := by
    intro i v x hv hx _
    obtain ⟨n, rfl⟩ := whole_of_answer hm hf hgoal hnonneg hone hexact hanswer i v x hv hx
    exact Scalar.round_intCast n
  rw [hanswer]
  exact ⟨rfl, _, carries_solutionOf hlength hround _ _ _,
    (hm.isOptimum_iff _).mpr (hbest.isBest hf hgoal)⟩

end BranchAndBound

end CyclePlan
