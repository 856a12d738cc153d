import CyclePlan.Proofs.Engine.Potentials
import CyclePlan.Proofs.Resource.Trial

/-!
# Least Starts

What pins and pushes do to the earliest start cycles.

With a fixed interval, the solutions of a timing program are the potentials of its arcs,
and the lesser of two potentials is one again. Pins and pushes bound single nodes. The
lesser keeps to those bounds as well if one of the two does and the other is nowhere below
something that does (`Discipline.exists_lesser`). Everything else follows from that.

* A best solution is the least one, since the lesser of it and any other solution is
  no worse (`Discipline.isLeast_of_isBest`).
* If a node is pushed, the new least solution is the least potential that is not below the
  old one and has the node where it is pushed to, whatever was pinned before
  (`Discipline.push_isRaised`).

## Main definitions

* `Row.Bounds`: A row that pins a node or pushes it.

## Theorems

* `Discipline.meets_of_isSolution`: Solutions are potentials.
* `Discipline.exists_lesser`: The lesser of a solution and a potential.
* `Discipline.isLeast_of_isBest`: Best solutions are least.
* `Discipline.push_isRaised`: What a push does to the least solution.
* `Discipline.exists_isOptimum_withRows`: Where there are points, there is an optimum.
-/

namespace CyclePlan

/-- A row that pins a node to a cycle or keeps it at or above a cycle. -/
inductive Row.Bounds (v : View Rat) : Row → Prop
  | pin {n : View.Node Rat} (hn : n ∈ v.nodes) (cycle : Int) :
      Bounds v (Row.pin (startVar n.name) cycle)
  | notBefore {n : View.Node Rat} (hn : n ∈ v.nodes) (cycle : Int) :
      Bounds v (Row.notBefore (startVar n.name) cycle)

/-- A bound that two values keep to is kept to by the lesser of one of them and anything
    that is not below the other. -/
theorem Row.Bounds.holds_lesser {v : View Rat} {r : Row} {d : View.Node Rat → Int}
    {y z w : String → Rat} (hr : r.Bounds v)
    (hw : ∀ n ∈ v.nodes, w (startVar n.name) = min (z (startVar n.name)) (d n))
    (hle : ∀ n ∈ v.nodes, y (startVar n.name) ≤ d n) (hy : r.Holds y) (hz : r.Holds z) :
    r.Holds w := by
  cases hr with
  | pin hn cycle =>
      rw [Row.pin_holds_iff] at hy hz ⊢
      rw [hw _ hn, hz]
      exact min_eq_left (hy ▸ hle _ hn)
  | notBefore hn cycle =>
      rw [Row.notBefore_holds_iff] at hy hz ⊢
      rw [hw _ hn]
      exact le_min hz (hy.trans (hle _ hn))

namespace Discipline

open Arc View

variable {v : View Rat} {sameBlockOnly : Bool} {interval : Int} {rows : List Row}
  {c c' d : View.Node Rat → Int} {y z : String → Rat}

/-- What a fixed interval asks for, with further rows. -/
abbrev fixedProgram (interval : Int) (v : View Rat) (sameBlockOnly : Bool) (rows : List Row) :
    Program := (program (.pipelined (.fixed interval)) v sameBlockOnly).withRows rows

/-- The variable of the interval keeps it at or above one. -/
theorem one_le_of_isSolution
    (hy : (fixedProgram interval v sameBlockOnly rows).IsSolution y) : 1 ≤ interval := by
  have hplain := (Program.isSolution_withRows_iff.mp hy).1
  have hvalue : y intervalVar = interval := Row.pin_holds_iff.mp
    (hplain.meets _ (List.mem_append_right _ (List.mem_append_left _ List.mem_cons_self)))
  have hmem : intervalVariable intervalVar ∈
      (program (.pipelined (.fixed interval)) v sameBlockOnly).vars := reportedVar_mem
  have hlower : (1 : Rat) ≤ y intervalVar := admits_lower_iff.mp (hplain.admits _ hmem)
  rw [hvalue] at hlower
  exact_mod_cast hlower

theorem fixedProgram_sumsStarts (hy : (fixedProgram interval v sameBlockOnly rows).IsSolution y) :
    (fixedProgram interval v sameBlockOnly rows).SumsStarts v interval :=
  (fixed_sumsStarts (one_le_of_isSolution hy)).withRows rows

/-- The start cycles of a solution are a potential. -/
theorem meets_of_isSolution (hc : v.Times c y)
    (hy : (fixedProgram interval v sameBlockOnly rows).IsSolution y) :
    (∀ n ∈ v.nodes, 0 ≤ c n) ∧ Meets (lag interval) c (v.arcs sameBlockOnly) := by
  have hpos := one_le_of_isSolution hy
  have hplain := (Program.isSolution_withRows_iff.mp hy).1
  have hinterval := ((fixed_isSolution_iff hpos).mp hplain).2.1
  exact (fixed_isSolution_iff_meets hpos hc hinterval).mp hplain

/-- The lesser of a solution and a potential that is not below another solution is a
    solution. -/
theorem exists_lesser (hnames : (v.nodes.map (·.name)).Nodup) (hrows : ∀ r ∈ rows, r.Bounds v)
    (hy : (fixedProgram interval v sameBlockOnly rows).IsSolution y)
    (hz : (fixedProgram interval v sameBlockOnly rows).IsSolution z)
    (hd : Meets (lag interval) d (v.arcs sameBlockOnly))
    (hle : ∀ n ∈ v.nodes, y (startVar n.name) ≤ d n) :
    ∃ w, (fixedProgram interval v sameBlockOnly rows).IsSolution w ∧
      ∀ n ∈ v.nodes, w (startVar n.name) = min (z (startVar n.name)) (d n) := by
  have hpos := one_le_of_isSolution hy
  rcases Program.isSolution_withRows_iff.mp hy with ⟨hyplain, hyrows⟩
  rcases Program.isSolution_withRows_iff.mp hz with ⟨hzplain, hzrows⟩
  have hztimes := times_floor (startsHold_of_isSolution hzplain).whole
  rcases meets_of_isSolution hztimes hz with ⟨hzsign, hzmeets⟩
  rcases exists_times hnames (fun n => min ⌊z (startVar n.name)⌋ (d n)) interval with
    ⟨w, hw, hinterval⟩
  have hvalue : ∀ n ∈ v.nodes, w (startVar n.name) = min (z (startVar n.name)) (d n) := by
    intro n hn
    rw [hw n hn, hztimes n hn]
    push_cast
    rfl
  refine ⟨w, Program.isSolution_withRows_iff.mpr ⟨?_, fun r hr => ?_⟩, hvalue⟩
  · refine (fixed_isSolution_iff_meets hpos hw hinterval).mpr ⟨fun n hn => ?_, hzmeets.min hd⟩
    have hdsign : (0 : Rat) ≤ d n :=
      ((startsHold_of_isSolution hyplain).nonneg n hn).trans (hle n hn)
    exact le_min (hzsign n hn) (by exact_mod_cast hdsign)
  · exact (hrows r hr).holds_lesser hvalue hle (hyrows r hr) (hzrows r hr)

/-- A best solution is the least one. -/
theorem isLeast_of_isBest (hnames : (v.nodes.map (·.name)).Nodup)
    (hrows : ∀ r ∈ rows, r.Bounds v)
    (hy : (fixedProgram interval v sameBlockOnly rows).IsBest y) :
    (fixedProgram interval v sameBlockOnly rows).IsLeast v y := by
  have htimes := times_floor
    (startsHold_of_isSolution (Program.isSolution_withRows_iff.mp hy.solution).1).whole
  refine ⟨hy.solution, fun z hz n hn => ?_⟩
  rcases exists_lesser hnames hrows hy.solution hz (meets_of_isSolution htimes hy.solution).2
    (fun m hm => (htimes m hm).le) with ⟨w, hw, hvalue⟩
  have hbelow : ∀ m ∈ v.nodes, w (startVar m.name) ≤ y (startVar m.name) := by
    intro m hm
    rw [hvalue m hm, htimes m hm]
    exact min_le_right _ _
  -- The lesser is no worse, and it is no later, so it is the same.
  have heq := (fixedProgram_sumsStarts hw).eq_of_le hw hy.solution hbelow (hy.least w hw) n hn
  rw [heq, hvalue n hn]
  exact min_le_left _ _

/-- A push raises the least solution just as far as it has to. -/
theorem push_isRaised {n : View.Node Rat} {cycle : Int}
    (hnames : (v.nodes.map (·.name)).Nodup) (hrows : ∀ r ∈ rows, r.Bounds v)
    (hc : v.Times c y) (hc' : v.Times c' z) (hn : n ∈ v.nodes)
    (hy : (fixedProgram interval v sameBlockOnly rows).IsLeast v y)
    (hz : (fixedProgram interval v sameBlockOnly
      (rows ++ [Row.notBefore (startVar n.name) cycle])).IsLeast v z) :
    IsRaised (v.arcs sameBlockOnly) (lag interval) v.nodes c [(n, cycle)] c' := by
  rcases Program.isSolution_withRows_iff.mp hz.solution with ⟨hzplain, hzrows⟩
  rcases List.forall_mem_append.mp hzrows with ⟨hzold, hznew⟩
  have hlater : (cycle : Rat) ≤ z (startVar n.name) :=
    Row.notBefore_holds_iff.mp (hznew _ List.mem_cons_self)
  have hzsolution : (fixedProgram interval v sameBlockOnly rows).IsSolution z :=
    Program.isSolution_withRows_iff.mpr ⟨hzplain, hzold⟩
  refine ⟨(meets_of_isSolution hc' hz.solution).2, fun m hm => ?_,
    List.forall_mem_singleton.mpr ?_, fun d hd hle htarget m hm => ?_⟩
  · have hstep := hy.below z hzsolution m hm
    rw [hc m hm, hc' m hm] at hstep
    exact_mod_cast hstep
  · rw [hc' n hn] at hlater
    exact_mod_cast hlater
  · -- What would do instead need not keep to the pins, but the lesser of the two does.
    have hdle : ∀ m ∈ v.nodes, y (startVar m.name) ≤ d m := by
      intro m hm
      rw [hc m hm]
      exact_mod_cast hle m hm
    rcases exists_lesser hnames hrows hy.solution hzsolution hd hdle with ⟨w, hw, hvalue⟩
    have hdlater : (cycle : Rat) ≤ d n := by
      exact_mod_cast List.forall_mem_singleton.mp htarget
    have hwnew : (fixedProgram interval v sameBlockOnly
        (rows ++ [Row.notBefore (startVar n.name) cycle])).IsSolution w := by
      rw [fixedProgram, ← Program.withRows_append]
      refine Program.isSolution_withRows_iff.mpr ⟨hw, List.forall_mem_singleton.mpr ?_⟩
      rw [Row.notBefore_holds_iff, hvalue n hn]
      exact le_min hlater hdlater
    have hbelow := (hz.below w hwnew m hm).trans ((hvalue m hm).trans_le (min_le_right _ _))
    rw [hc' m hm] at hbelow
    exact_mod_cast hbelow

/-- A model with a fixed interval and further rows has an optimum wherever it has points. -/
theorem exists_isOptimum_withRows {m : Model Rat}
    (hm : m.Renders (fixedProgram interval v sameBlockOnly rows))
    (hsome : ∃ x, m.IsPoint x ∧ m.IsIntegral x) : ∃ x, m.IsOptimum x := by
  refine Model.exists_isOptimum_of_nat hm.direction (fun x hx hint => ?_) hsome
  have hy := (hm.isSolution_iff x).mp ⟨hx, hint⟩
  rw [hm.value]
  exact fixed_exists_nat (one_le_of_isSolution hy) (Program.isSolution_withRows_iff.mp hy).1

end Discipline

end CyclePlan
