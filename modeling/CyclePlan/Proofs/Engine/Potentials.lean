import CyclePlan.Proofs.Difference
import CyclePlan.Proofs.Engine.Rows
import CyclePlan.Proofs.Graph.Fit
import CyclePlan.Proofs.Lp.FurtherRows
import Mathlib.Algebra.Order.Floor.Ring

/-!
# Start Cycles as Potentials

What a timing program asks for, said in whole numbers and arcs.

Emitted pairs and back pairs are arcs between nodes. Start cycles are whole, so a
latency may as well be rounded up, and a row of the program holds exactly if the
arc does. With this the solutions of a program are the potentials of its arcs
that are nowhere negative (`asap_isSolution_iff_meets`,
`fixed_isSolution_iff_meets`). What is known about arcs now says when there is a
solution and which one is least.

A least solution is best, because the goal is the sum of the start cycles and a
constant. It is also the only best one as far as start cycles go, since a
solution that is above it somewhere has a larger sum (`Program.IsLeast.isBest`,
`Program.IsLeast.eq_of_isBest`).

Forward arcs follow a rank, so no closed walk uses them alone.

## Main definitions

* `View.forwardArcs`, `View.arcs`: Pairs as arcs.
* `View.cycles`, `View.lag`: What an arc weighs, without and with an interval.
* `View.Times`: Values by name that start the nodes in given cycles.
* `Program.IsLeast`: A solution below every other.

## Theorems

* `View.forwardArcs_noGain`: Forward arcs have no closed walk with gain.
* `View.exists_longest_forward`: Every node has a longest path.
* `Discipline.asap_isSolution_iff_meets`, `Discipline.fixed_isSolution_iff_meets`:
  Solutions are potentials.
* `Program.IsLeast.isBest`, `Program.IsLeast.eq_of_isBest`: Least solutions and
  best ones.
* `Discipline.asap_isLeast`, `Discipline.fixed_isLeast`: Greatest weights of
  walks are least solutions.
-/

namespace CyclePlan

namespace View

open Arc

/-- A pair as an arc. -/
def arcOf (back : Bool) (p : Node Rat × Node Rat) : Arc (Node Rat) := ⟨p.1, p.2, back⟩

/-- The forward pairs that get a constraint, as arcs. -/
def forwardArcs (v : View Rat) (sameBlockOnly : Bool) : List (Arc (Node Rat)) :=
  (v.emitted sameBlockOnly).map (arcOf false)

/-- All pairs that get a constraint, as arcs. -/
def arcs (v : View Rat) (sameBlockOnly : Bool) : List (Arc (Node Rat)) :=
  v.forwardArcs sameBlockOnly ++ v.backPairs.map (arcOf true)

/-- The cycles that pass until the result of an arc's source is there. -/
def cycles (a : Arc (Node Rat)) : Int := ⌈a.source.latency⌉

/-- The same, with an interval to spare for arcs into the next iteration. -/
def lag (interval : Int) (a : Arc (Node Rat)) : Int :=
  cycles a - if a.back then interval else 0

variable {v : View Rat} {sameBlockOnly : Bool} {interval : Int} {c : Node Rat → Int}
  {y : String → Rat} {g : Graph Rat}

theorem lag_zero : lag 0 = cycles := by
  funext a
  simp only [lag, ite_self, Int.sub_zero]

theorem lag_arcOf_false (p : Node Rat × Node Rat) :
    lag interval (arcOf false p) = ⌈p.1.latency⌉ := Int.sub_zero _

theorem lag_arcOf_true (p : Node Rat × Node Rat) :
    lag interval (arcOf true p) = ⌈p.1.latency⌉ - interval := rfl

theorem arcs_mem_nodes {a : Arc (Node Rat)} (h : a ∈ v.arcs sameBlockOnly) :
    a.source ∈ v.nodes ∧ a.target ∈ v.nodes := by
  rcases List.mem_append.mp h with h | h
  · rcases List.mem_map.mp h with ⟨p, hp, rfl⟩
    exact mem_nodes_of_forwardPairs (List.mem_of_mem_filter hp)
  · rcases List.mem_map.mp h with ⟨p, hp, rfl⟩
    exact mem_nodes_of_backPairs hp

theorem forwardArcs_subset : v.forwardArcs sameBlockOnly ⊆ v.arcs sameBlockOnly :=
  List.subset_append_left _ _

/-- Latencies bound what nodes contribute. -/
theorem arcs_isCapped (sameBlockOnly : Bool) (hlatency : ∀ n ∈ v.nodes, 0 ≤ n.latency)
    (hpos : 0 ≤ interval) :
    IsCapped (v.arcs sameBlockOnly) (lag interval) (fun n => ⌈n.latency⌉) v.nodes := by
  refine ⟨fun n hn => Int.ceil_nonneg (hlatency n hn), fun a ha => (arcs_mem_nodes ha).1, ?_⟩
  intro a _
  simp only [lag, cycles]
  split <;> omega

/-- No closed walk gains on forward arcs, whatever they weigh. -/
theorem forwardArcs_noGain (hfit : g.Fit) (hview : View.ofGraph g = .ok v)
    (weight : Arc (Node Rat) → Int) : NoGain weight (v.forwardArcs sameBlockOnly) := by
  rcases hfit.forwardPairs_rank hview with ⟨rank, hrank⟩
  refine noGain_of_rank (fun n => rank n.name) fun a ha => ?_
  rcases List.mem_map.mp ha with ⟨p, hp, rfl⟩
  exact hrank p (List.mem_of_mem_filter hp)

/-- Every node has a longest path of forward arcs that leads to it. -/
theorem exists_longest_forward (sameBlockOnly : Bool) (hfit : g.Fit)
    (hview : View.ofGraph g = .ok v) :
    ∃ d : Node Rat → Int,
      ∀ n, IsLongest (v.forwardArcs sameBlockOnly) (lag 0) n (d n) := by
  have hcap := (arcs_isCapped sameBlockOnly (hfit.node_latency hview) (le_refl 0)).mono
    forwardArcs_subset
  choose d hd using (forwardArcs_noGain hfit hview (lag 0)).exists_longest hcap
  exact ⟨d, hd⟩

/-! ### Values -/

/-- The values of the timing variables are given start cycles. -/
def Times (v : View Rat) (c : Node Rat → Int) (y : String → Rat) : Prop :=
  ∀ n ∈ v.nodes, y (startVar n.name) = c n

/-- Any start cycles are values by name, and all other names can keep their values. -/
theorem exists_times_over (hnames : (v.nodes.map (·.name)).Nodup) (c : Node Rat → Int)
    (y : String → Rat) :
    ∃ z, v.Times c z ∧ ∀ name, (∀ node, startVar node ≠ name) → z name = y name := by
  refine ⟨fun name =>
    ((v.nodes.find? fun n => startVar n.name == name).map fun n => (c n : Rat)).getD (y name),
    fun n hn => ?_, fun name hname => ?_⟩
  · -- Names are distinct, so the node that is found is the one that was asked for.
    rcases hfound : v.nodes.find? fun n' => startVar n'.name == startVar n.name with _ | n'
    · have hnone := List.find?_eq_none.mp hfound n hn
      exact absurd (beq_self_eq_true _) hnone
    · have hvar := List.find?_some hfound
      simp only [beq_iff_eq] at hvar
      have hname := startVar_injective hvar
      have hn' := List.mem_of_find?_eq_some hfound
      simp only [hfound, Option.map_some, Option.getD_some,
        List.inj_on_of_nodup_map hnames hn' hn hname]
  · have hnone : (v.nodes.find? fun n => startVar n.name == name) = none :=
      List.find?_eq_none.mpr fun n _ => by simpa using hname n.name
    simp only [hnone, Option.map_none, Option.getD_none]

/-- Any start cycles are values by name, and all other names can have one value. -/
theorem exists_uniform_times (hnames : (v.nodes.map (·.name)).Nodup) (c : Node Rat → Int)
    (interval : Int) :
    ∃ y, v.Times c y ∧ ∀ name, (∀ node, startVar node ≠ name) → y name = interval :=
  exists_times_over hnames c fun _ => interval

/-- Any start cycles and any interval are values by name. -/
theorem exists_times (hnames : (v.nodes.map (·.name)).Nodup) (c : Node Rat → Int)
    (interval : Int) : ∃ y, v.Times c y ∧ y intervalVar = interval := by
  rcases exists_uniform_times hnames c interval with ⟨y, hy, hother⟩
  exact ⟨y, hy, hother _ startVar_ne_intervalVar⟩

/-- A sum of a whole number and a latency stays below a whole number exactly if
    the latency may be rounded up. -/
theorem add_le_iff_ceil {a b : Int} {x : Rat} : (a : Rat) + x ≤ b ↔ a + ⌈x⌉ ≤ b := by
  have hceil : ⌈x⌉ ≤ b - a ↔ x ≤ ((b - a : Int) : Rat) := Int.ceil_le
  rw [Int.cast_sub] at hceil
  constructor
  · intro h
    have hle := hceil.mpr (by linarith)
    omega
  · intro h
    have hle := hceil.mp (by omega)
    linarith

/-- Arcs within an iteration hold if their targets start late enough. -/
theorem meets_map_arcOf_iff (hy : v.Times c y) {ps : List (Node Rat × Node Rat)}
    (hps : ∀ p ∈ ps, p.1 ∈ v.nodes ∧ p.2 ∈ v.nodes) :
    Meets (lag interval) c (ps.map (arcOf false)) ↔
      ∀ p ∈ ps, y (startVar p.1.name) + p.1.latency ≤ y (startVar p.2.name) := by
  rw [Meets, List.forall_mem_map]
  refine forall₂_congr fun p hp => ?_
  rw [hy _ (hps p hp).1, hy _ (hps p hp).2, add_le_iff_ceil, lag_arcOf_false]
  exact Iff.rfl

theorem meets_forwardArcs_iff (hy : v.Times c y) :
    Meets (lag interval) c (v.forwardArcs sameBlockOnly) ↔
      ∀ p ∈ v.emitted sameBlockOnly,
        y (startVar p.1.name) + p.1.latency ≤ y (startVar p.2.name) :=
  meets_map_arcOf_iff hy fun _ hp => mem_nodes_of_forwardPairs (List.mem_of_mem_filter hp)

theorem meets_backArcs_iff (hy : v.Times c y) :
    Meets (lag interval) c (v.backPairs.map (arcOf true)) ↔
      ∀ p ∈ v.backPairs,
        y (startVar p.1.name) + p.1.latency ≤ y (startVar p.2.name) + interval := by
  rw [Meets, List.forall_mem_map]
  refine forall₂_congr fun p hp => ?_
  rcases mem_nodes_of_backPairs hp with ⟨hsource, htarget⟩
  rw [hy _ hsource, hy _ htarget, ← Int.cast_add, add_le_iff_ceil, lag_arcOf_true]
  change c p.1 + (⌈p.1.latency⌉ - interval) ≤ c p.2 ↔ _
  omega

theorem meets_arcs_iff :
    Meets (lag interval) c (v.arcs sameBlockOnly) ↔
      Meets (lag interval) c (v.forwardArcs sameBlockOnly) ∧
        Meets (lag interval) c (v.backPairs.map (arcOf true)) := List.forall_mem_append

/-- Whole start cycles are the values of a function. -/
theorem times_floor (h : ∀ n ∈ v.nodes, ∃ k : Int, y (startVar n.name) = k) :
    v.Times (fun n => ⌊y (startVar n.name)⌋) y := by
  intro n hn
  rcases h n hn with ⟨k, hk⟩
  simp only [hk, Int.floor_intCast]

end View

/-! ### Best solutions -/

namespace Program

/-- A solution that starts no node later than any other solution does. -/
structure IsLeast (f : Program) (v : View Rat) (y : String → Rat) : Prop where
  solution : f.IsSolution y
  below : ∀ z, f.IsSolution z → ∀ n ∈ v.nodes, y (startVar n.name) ≤ z (startVar n.name)

variable {f : Program} {v : View Rat} {y z : String → Rat} {rest : Rat}

/-- The goal of a program is the sum of the start cycles and a constant. -/
def SumsStarts (f : Program) (v : View Rat) (rest : Rat) : Prop :=
  ∀ y, f.IsSolution y →
    Row.sum f.goal y = (v.nodes.map fun n => y (startVar n.name)).sum + rest

theorem sum_startTerms (v : View Rat) (y : String → Rat) :
    Row.sum (Discipline.startTerms v 1) y = (v.nodes.map fun n => y (startVar n.name)).sum := by
  rw [Row.sum, Discipline.startTerms, List.map_map]
  congr 1
  refine List.map_congr_left fun n _ => ?_
  exact one_mul _

theorem IsLeast.isBest (h : f.IsLeast v y) (hsum : f.SumsStarts v rest) : f.IsBest y := by
  refine ⟨h.solution, fun z hz => ?_⟩
  rw [hsum y h.solution, hsum z hz]
  have hle := List.sum_le_sum fun n hn => h.below z hz n hn
  linarith

/-- A solution that starts no node earlier than another and has no larger sum starts all of
    them in the same cycles. -/
theorem SumsStarts.eq_of_le (hsum : f.SumsStarts v rest) (hy : f.IsSolution y)
    (hz : f.IsSolution z) (hle : ∀ n ∈ v.nodes, y (startVar n.name) ≤ z (startVar n.name))
    (hgoal : Row.sum f.goal z ≤ Row.sum f.goal y) :
    ∀ n ∈ v.nodes, z (startVar n.name) = y (startVar n.name) := by
  intro n hn
  rw [hsum z hz, hsum y hy] at hgoal
  by_contra hne
  -- One node that starts later makes the sum larger.
  have hlt := List.sum_lt_sum (l := v.nodes) (fun n => y (startVar n.name))
    (fun n => z (startVar n.name)) hle ⟨n, hn, lt_of_le_of_ne (hle n hn) (Ne.symm hne)⟩
  linarith

/-- A best solution starts the nodes as a least one does. -/
theorem IsLeast.eq_of_isBest (h : f.IsLeast v y) (hsum : f.SumsStarts v rest) (hz : f.IsBest z) :
    ∀ n ∈ v.nodes, z (startVar n.name) = y (startVar n.name) :=
  hsum.eq_of_le h.solution hz.solution (h.below z hz.solution) (hz.least y h.solution)

/-- Rows do not change what is wanted to be small. -/
theorem SumsStarts.withRows (h : f.SumsStarts v rest) (rows : List Row) :
    (f.withRows rows).SumsStarts v rest :=
  fun z hz => h z (isSolution_withRows_iff.mp hz).1

/-- Rows that the least solution satisfies leave it the least one. -/
theorem IsLeast.withRows {rows : List Row} (h : f.IsLeast v y) (hrows : ∀ r ∈ rows, r.Holds y) :
    (f.withRows rows).IsLeast v y :=
  ⟨isSolution_withRows_iff.mpr ⟨h.solution, hrows⟩,
    fun z hz => h.below z (isSolution_withRows_iff.mp hz).1⟩

/-- Start cycles are natural numbers, and with them the goal. -/
theorem SumsStarts.exists_nat {k : Nat} {sameBlockOnly : Bool} (hsum : f.SumsStarts v rest)
    (hrest : rest = k) (hy : f.IsSolution y) (hstarts : Discipline.StartsHold v sameBlockOnly y) :
    ∃ n : Nat, Row.sum f.goal y = n := by
  have hnat : ∀ n ∈ v.nodes, y (startVar n.name) = (⌊y (startVar n.name)⌋.toNat : Nat) := by
    intro n hn
    have hsign : 0 ≤ ⌊y (startVar n.name)⌋ := Int.floor_nonneg.mpr (hstarts.nonneg n hn)
    rw [← Int.cast_natCast, Int.toNat_of_nonneg hsign]
    exact View.times_floor hstarts.whole n hn
  have hcast := map_list_sum (Nat.castAddMonoidHom Rat)
    (v.nodes.map fun n => ⌊y (startVar n.name)⌋.toNat)
  rw [List.map_map] at hcast
  refine ⟨(v.nodes.map fun n => ⌊y (startVar n.name)⌋.toNat).sum + k, ?_⟩
  rw [hsum y hy, hrest, Nat.cast_add, List.map_congr_left hnat]
  exact congrArg (· + (k : Rat)) hcast.symm

end Program

namespace Discipline

open Arc View

variable {v : View Rat} {sameBlockOnly : Bool} {interval : Int} {c d : View.Node Rat → Int}
  {y : String → Rat}

theorem startsHold_iff_meets (interval : Int) (hy : v.Times c y) :
    StartsHold v sameBlockOnly y ↔
      (∀ n ∈ v.nodes, 0 ≤ c n) ∧ Meets (lag interval) c (v.forwardArcs sameBlockOnly) := by
  have hsign : ∀ n ∈ v.nodes, 0 ≤ y (startVar n.name) ↔ 0 ≤ c n := by
    intro n hn
    rw [hy n hn]
    exact Int.cast_nonneg_iff
  constructor
  · intro h
    exact ⟨fun n hn => (hsign n hn).mp (h.nonneg n hn), (meets_forwardArcs_iff hy).mpr h.pairs⟩
  · rintro ⟨hc, hmeets⟩
    exact ⟨fun n hn => (hsign n hn).mpr (hc n hn), fun n hn => ⟨c n, hy n hn⟩,
      (meets_forwardArcs_iff hy).mp hmeets⟩

/-- As soon as possible, solutions are potentials of the forward arcs. -/
theorem asap_isSolution_iff_meets (hy : v.Times c y) :
    (program .asap v sameBlockOnly).IsSolution y ↔
      (∀ n ∈ v.nodes, 0 ≤ c n) ∧ Meets (lag 0) c (v.forwardArcs sameBlockOnly) :=
  asap_isSolution_iff.trans (startsHold_iff_meets 0 hy)

/-- With a shared interval, solutions are potentials of all arcs. -/
theorem fixed_isSolution_iff_meets (hpos : 1 ≤ interval) (hy : v.Times c y)
    (hinterval : y intervalVar = interval) :
    (program (.pipelined (.fixed interval)) v sameBlockOnly).IsSolution y ↔
      (∀ n ∈ v.nodes, 0 ≤ c n) ∧ Meets (lag interval) c (v.arcs sameBlockOnly) := by
  rw [fixed_isSolution_iff hpos, startsHold_iff_meets interval hy,
    ← meets_backArcs_iff hy, meets_arcs_iff]
  constructor
  · rintro ⟨⟨hc, hforward⟩, _, hback⟩
    exact ⟨hc, hforward, hback⟩
  · rintro ⟨hc, hforward, hback⟩
    exact ⟨⟨hc, hforward⟩, hinterval, hback⟩

theorem asap_sumsStarts : (program .asap v sameBlockOnly).SumsStarts v 0 := by
  intro y _
  rw [add_zero]
  exact Program.sum_startTerms v y

theorem fixed_sumsStarts (hpos : 1 ≤ interval) :
    (program (.pipelined (.fixed interval)) v sameBlockOnly).SumsStarts v interval := by
  intro y hy
  rcases (fixed_isSolution_iff hpos).mp hy with ⟨_, hinterval, _⟩
  change Row.sum (startTerms v 1 ++ [(intervalVar, 1)]) y = _
  rw [Row.sum, List.map_append, List.sum_append]
  change Row.sum (startTerms v 1) y + (1 * y intervalVar + 0) = _
  rw [Program.sum_startTerms, hinterval, one_mul, add_zero]

/-- With a shared interval, the goal of a solution is a natural number. -/
theorem fixed_exists_nat (hpos : 1 ≤ interval)
    (hy : (program (.pipelined (.fixed interval)) v sameBlockOnly).IsSolution y) :
    ∃ n : Nat, Row.sum (program (.pipelined (.fixed interval)) v sameBlockOnly).goal y = n := by
  have hrest : ((interval : Int) : Rat) = (interval.toNat : Nat) := by
    rw [← Int.cast_natCast, Int.toNat_of_nonneg (by omega)]
  exact (fixed_sumsStarts hpos).exists_nat hrest hy (startsHold_of_isSolution hy)

/-- As soon as possible, the greatest weights of walks are the least solution. -/
theorem asap_isLeast (hd : ∀ n, IsLongest (v.forwardArcs sameBlockOnly) (lag 0) n (d n))
    (hy : v.Times d y) : (program .asap v sameBlockOnly).IsLeast v y := by
  refine ⟨(asap_isSolution_iff_meets hy).mpr ⟨fun n _ => (hd n).nonneg, meets_of_longest hd⟩, ?_⟩
  intro z hz n hn
  -- Any other solution is a potential too, and the greatest weights are below it.
  have hc := times_floor (startsHold_of_isSolution hz).whole
  rcases (asap_isSolution_iff_meets hc).mp hz with ⟨hnonneg, hmeets⟩
  have hle := (hd n).le hmeets (hnonneg n hn) fun a ha =>
    hnonneg _ (arcs_mem_nodes (forwardArcs_subset ha)).1
  rw [hy n hn, hc n hn]
  exact_mod_cast hle

/-- As soon as possible has a solution for every graph without defects. -/
theorem asap_exists_solution (sameBlockOnly : Bool) {g : Graph Rat} (hfit : g.Fit)
    (hview : View.ofGraph g = .ok v) : ∃ y, (program .asap v sameBlockOnly).IsSolution y := by
  rcases exists_longest_forward sameBlockOnly hfit hview with ⟨d, hd⟩
  rcases exists_times (hfit.node_names_nodup hview) d 0 with ⟨y, hy, _⟩
  exact ⟨y, (asap_isLeast hd hy).solution⟩

/-- So they are with a shared interval. -/
theorem fixed_isLeast (hpos : 1 ≤ interval)
    (hd : ∀ n, IsLongest (v.arcs sameBlockOnly) (lag interval) n (d n)) (hy : v.Times d y)
    (hinterval : y intervalVar = interval) :
    (program (.pipelined (.fixed interval)) v sameBlockOnly).IsLeast v y := by
  refine ⟨(fixed_isSolution_iff_meets hpos hy hinterval).mpr
    ⟨fun n _ => (hd n).nonneg, meets_of_longest hd⟩, ?_⟩
  intro z hz n hn
  rcases (fixed_isSolution_iff hpos).mp hz with ⟨hstarts, hvalue, _⟩
  have hc := times_floor hstarts.whole
  rcases (fixed_isSolution_iff_meets hpos hc hvalue).mp hz with ⟨hnonneg, hmeets⟩
  have hle := (hd n).le hmeets (hnonneg n hn) fun a ha => hnonneg _ (arcs_mem_nodes ha).1
  rw [hy n hn, hc n hn]
  exact_mod_cast hle

end Discipline

end CyclePlan
