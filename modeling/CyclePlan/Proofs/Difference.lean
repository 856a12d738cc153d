import Mathlib.Algebra.Order.Group.Int
import Mathlib.Algebra.BigOperators.Group.List.Basic
import Mathlib.Algebra.Order.BigOperators.Group.List
import Mathlib.Data.Int.LeastGreatest
import Mathlib.Data.List.Nodup
import Mathlib.Data.List.Perm.Subperm
import Mathlib.Order.Bounds.Basic
import Mathlib.Tactic.Linarith

/-!
# Systems of Differences

Whole numbers that keep their distance.

An arc asks that its target lies behind its source by the weight of the arc, and
a potential gives every vertex a number so that all arcs hold. Whether there is
a potential is decided by closed walks: along a closed walk the weights add up to
at most nothing, since it ends where it started. The converse is the substance of
this module. If no closed walk gains, then a walk can be made simple without
losing weight, by cutting out the closed part whenever a vertex comes up again
(`exists_simple`). Simple walks do not repeat a source, so their weights have a
common bound, and every vertex has a heaviest walk that ends there. Those
greatest weights are a potential, and they are below every other potential that
is nowhere negative (`IsLongest.le`).

A potential that is to be at least so high at some vertices is raised no further than
walks ask for (`IsRaised.isGreatest`).

Weights are a function of the arc and not part of it, so that one system can be
read with different weights.

## Main definitions

* `Arc`, `IsWalk`, `total`: Arcs, walks along them, and their weight.
* `Meets`: A potential.
* `NoGain`: No closed walk has positive weight.
* `IsCapped`: A common bound for simple walks.
* `IsLongest`: The greatest weight of a walk that ends at a vertex.
* `IsRaised`: A potential raised as far as it has to be.
* `IsForced`: What a vertex cannot be below.

## Theorems

* `Meets.walk`: A potential bounds the weight of walks.
* `NoGain.exists_simple`: Walks can be made simple.
* `IsCapped.total_le`, `NoGain.total_le`: Walks are bounded.
* `NoGain.exists_longest`: Every vertex has a heaviest walk.
* `meets_of_longest`, `IsLongest.le`: The greatest weights are the least
  potential.
* `IsLongest.isGreatest_arcs`: The greatest weight comes from an arc.
* `IsRaised.trans`, `IsRaised.isGreatest`: How far a potential is raised.
-/

namespace CyclePlan

/-- An arc between two vertices. It may lead into the next iteration. -/
structure Arc (ν : Type) where
  source : ν
  target : ν
  /-- The target belongs to the next iteration. -/
  back : Bool

namespace Arc

variable {ν : Type} {arcs : List (Arc ν)} {weight : Arc ν → Int} {u x z : ν} {p q : List (Arc ν)}

/-- A list of arcs leads from one vertex to another. -/
inductive IsWalk (arcs : List (Arc ν)) : ν → List (Arc ν) → ν → Prop
  | nil (u : ν) : IsWalk arcs u [] u
  /-- A walk starts with an arc and goes on from its target. -/
  | cons {a : Arc ν} {p : List (Arc ν)} {z : ν} (ha : a ∈ arcs) (hp : IsWalk arcs a.target p z) :
    IsWalk arcs a.source (a :: p) z

/-- The weight of a walk. -/
def total (weight : Arc ν → Int) (p : List (Arc ν)) : Int := (p.map weight).sum

@[simp] theorem total_nil : total weight [] = 0 := rfl

@[simp] theorem total_cons (a : Arc ν) : total weight (a :: p) = weight a + total weight p := rfl

theorem total_append : total weight (p ++ q) = total weight p + total weight q := by
  rw [total, List.map_append, List.sum_append]
  rfl

/-- A walk is cut where two lists of arcs meet. -/
theorem isWalk_append_iff :
    IsWalk arcs u (p ++ q) z ↔ ∃ x, IsWalk arcs u p x ∧ IsWalk arcs x q z := by
  constructor
  · intro h
    induction p generalizing u with
    | nil => exact ⟨u, .nil u, h⟩
    | cons a p ih =>
        cases h with
        | cons ha hp =>
            rcases ih hp with ⟨x, hx, hq⟩
            exact ⟨x, .cons ha hx, hq⟩
  · rintro ⟨x, hp, hq⟩
    induction hp with
    | nil => exact hq
    | cons ha _ ih => exact .cons ha (ih hq)

theorem IsWalk.eq_of_nil (h : IsWalk arcs u [] z) : u = z := by
  cases h
  rfl

theorem IsWalk.subset (h : IsWalk arcs u p z) : p ⊆ arcs := by
  induction h with
  | nil => exact List.nil_subset _
  | cons ha _ ih => exact List.cons_subset.mpr ⟨ha, ih⟩

/-- A potential keeps the target of every arc behind its source. -/
def Meets (weight : Arc ν → Int) (c : ν → Int) (arcs : List (Arc ν)) : Prop :=
  ∀ a ∈ arcs, c a.source + weight a ≤ c a.target

/-- A potential bounds the weight of walks. -/
theorem Meets.walk {c : ν → Int} (h : Meets weight c arcs) (hp : IsWalk arcs u p z) :
    c u + total weight p ≤ c z := by
  induction hp with
  | nil => simp
  | cons ha _ ih =>
      have hstep := h _ ha
      rw [total_cons]
      omega

/-- The lesser of two potentials is a potential. -/
theorem Meets.min {c d : ν → Int} (hc : Meets weight c arcs) (hd : Meets weight d arcs) :
    Meets weight (fun n => Min.min (c n) (d n)) arcs := by
  intro a ha
  have hfirst := hc a ha
  have hsecond := hd a ha
  simp only []
  omega

/-- No closed walk has positive weight. -/
def NoGain (weight : Arc ν → Int) (arcs : List (Arc ν)) : Prop :=
  ∀ u p, IsWalk arcs u p u → total weight p ≤ 0

theorem Meets.noGain {c : ν → Int} (h : Meets weight c arcs) : NoGain weight arcs := by
  intro u p hp
  have hwalk := h.walk hp
  omega

/-- Arcs that raise a rank, and loops that weigh nothing, do not gain. -/
theorem noGain_of_rank_or_loop (rank : ν → Nat)
    (h : ∀ a ∈ arcs, rank a.source < rank a.target ∨ (a.source = a.target ∧ weight a ≤ 0)) :
    NoGain weight arcs := by
  -- A walk never loses rank, and one that does not raise it is made of loops.
  have hrank : ∀ {u p z}, IsWalk arcs u p z →
      rank u ≤ rank z ∧ (rank u = rank z → total weight p ≤ 0) := by
    intro u p z hp
    induction hp with
    | nil => exact ⟨le_refl _, fun _ => le_refl _⟩
    | cons ha _ ih =>
        rcases h _ ha with hlt | ⟨hloop, hweight⟩
        · exact ⟨hlt.le.trans ih.1, fun heq => absurd heq (hlt.trans_le ih.1).ne⟩
        · rw [hloop, total_cons]
          exact ⟨ih.1, fun heq => add_nonpos hweight (ih.2 heq)⟩
  exact fun u p hp => (hrank hp).2 rfl

/-- Arcs that follow a rank have no closed walk but the empty one. -/
theorem noGain_of_rank (rank : ν → Nat) (h : ∀ a ∈ arcs, rank a.source < rank a.target) :
    NoGain weight arcs := noGain_of_rank_or_loop rank fun a ha => .inl (h a ha)

/-- Without gain, a walk can be made simple and does not become lighter. -/
theorem NoGain.exists_simple (h : NoGain weight arcs) (hp : IsWalk arcs u p z) :
    ∃ q, IsWalk arcs u q z ∧ (q.map (·.source)).Nodup ∧ total weight p ≤ total weight q := by
  induction hp with
  | nil u => exact ⟨[], .nil u, List.nodup_nil, le_refl _⟩
  | cons ha _ ih =>
      rename_i a p z _
      rcases ih with ⟨q, hq, hnodup, hweight⟩
      by_cases hmem : a.source ∈ q.map (·.source)
      · -- The walk comes back to its start: what lies in between is closed.
        rcases List.mem_map.mp hmem with ⟨b, hb, hsource⟩
        rcases List.append_of_mem hb with ⟨q₁, q₂, rfl⟩
        rcases isWalk_append_iff.mp hq with ⟨x, hq₁, hq₂⟩
        have hx : x = b.source := by
          cases hq₂
          rfl
        rw [hx, hsource] at hq₁ hq₂
        have hclosed := h _ _ (IsWalk.cons ha hq₁)
        rw [total_cons] at hclosed
        refine ⟨b :: q₂, hq₂, ?_, ?_⟩
        · rw [List.map_append] at hnodup
          exact hnodup.of_append_right
        · rw [total_append] at hweight
          rw [total_cons]
          omega
      · refine ⟨a :: q, .cons ha hq, List.nodup_cons.mpr ⟨hmem, hnodup⟩, ?_⟩
        rw [total_cons, total_cons]
        omega

/-- Every arc weighs no more than its source can contribute. -/
structure IsCapped (arcs : List (Arc ν)) (weight : Arc ν → Int) (cap : ν → Int)
    (vertices : List ν) : Prop where
  /-- No vertex takes anything away. -/
  nonneg : ∀ n ∈ vertices, 0 ≤ cap n
  source : ∀ a ∈ arcs, a.source ∈ vertices
  /-- The contribution of the source covers the arc. -/
  weight_le : ∀ a ∈ arcs, weight a ≤ cap a.source

theorem IsCapped.mono {fewer : List (Arc ν)} {cap : ν → Int} {vertices : List ν}
    (h : IsCapped arcs weight cap vertices) (hsub : fewer ⊆ arcs) :
    IsCapped fewer weight cap vertices :=
  ⟨h.nonneg, fun a ha => h.source a (hsub ha), fun a ha => h.weight_le a (hsub ha)⟩

/-- The weight of a simple walk is bounded by what all vertices can contribute. -/
theorem IsCapped.total_le {cap : ν → Int} {vertices : List ν}
    (h : IsCapped arcs weight cap vertices) (hsub : q ⊆ arcs)
    (hnodup : (q.map (·.source)).Nodup) : total weight q ≤ (vertices.map cap).sum := by
  -- A simple walk leaves every vertex at most once, and leaving costs at most its cap.
  have hpoint : total weight q ≤ ((q.map (·.source)).map cap).sum := by
    rw [List.map_map]
    exact List.sum_le_sum fun a ha => h.weight_le a (hsub ha)
  have hinside : q.map (·.source) ⊆ vertices := by
    intro n hn
    rcases List.mem_map.mp hn with ⟨a, ha, rfl⟩
    exact h.source a (hsub ha)
  rcases List.Nodup.subperm hnodup hinside with ⟨l, hperm, hsublist⟩
  have hpart : (l.map cap).sum ≤ (vertices.map cap).sum := by
    refine (hsublist.map cap).sum_le_sum fun c hc => ?_
    rcases List.mem_map.mp hc with ⟨n, hn, rfl⟩
    exact h.nonneg n hn
  rw [(hperm.map cap).sum_eq] at hpart
  omega

/-- Without gain, the same bounds every walk. -/
theorem NoGain.total_le {cap : ν → Int} {vertices : List ν} (h : NoGain weight arcs)
    (hcap : IsCapped arcs weight cap vertices) (hp : IsWalk arcs u p z) :
    total weight p ≤ (vertices.map cap).sum := by
  rcases h.exists_simple hp with ⟨q, hq, hnodup, hweight⟩
  exact le_trans hweight (hcap.total_le hq.subset hnodup)

/-- The greatest weight of a walk that ends at a vertex. -/
def IsLongest (arcs : List (Arc ν)) (weight : Arc ν → Int) (z : ν) (h : Int) : Prop :=
  IsGreatest {n | ∃ u p, IsWalk arcs u p z ∧ total weight p = n} h

/-- Without gain, every vertex has a heaviest walk. -/
theorem NoGain.exists_longest {cap : ν → Int} {vertices : List ν} (h : NoGain weight arcs)
    (hcap : IsCapped arcs weight cap vertices) (z : ν) : ∃ d, IsLongest arcs weight z d := by
  have hbound : ∀ n, (∃ u p, IsWalk arcs u p z ∧ total weight p = n) →
      n ≤ (vertices.map cap).sum := by
    rintro n ⟨u, p, hp, rfl⟩
    exact h.total_le hcap hp
  -- The empty walk is one, so there is a weight to be bounded.
  rcases Int.exists_greatest_of_bdd ⟨_, hbound⟩ ⟨0, z, [], .nil z, total_nil⟩ with ⟨d, hd, hmax⟩
  exact ⟨d, hd, fun n hn => hmax n hn⟩

/-- A walk is empty or ends with an arc. -/
theorem IsWalk.eq_nil_or_snoc (hp : IsWalk arcs u p z) :
    (p = [] ∧ u = z) ∨
      ∃ q, ∃ a ∈ arcs, p = q ++ [a] ∧ a.target = z ∧ IsWalk arcs u q a.source := by
  rcases List.eq_nil_or_concat p with rfl | ⟨q, a, rfl⟩
  · cases hp
    exact .inl ⟨rfl, rfl⟩
  · rw [List.concat_eq_append] at hp ⊢
    rcases isWalk_append_iff.mp hp with ⟨x, hq, hlast⟩
    cases hlast with
    | cons ha hend =>
        exact .inr ⟨q, a, ha, rfl, hend.eq_of_nil, hq⟩

theorem IsLongest.walk_le {d : Int} (h : IsLongest arcs weight z d) (hp : IsWalk arcs u p z) :
    total weight p ≤ d :=
  h.2 ⟨u, p, hp, rfl⟩

theorem IsLongest.nonneg {d : Int} (h : IsLongest arcs weight z d) : 0 ≤ d := by
  have hempty := h.walk_le (.nil z)
  rwa [total_nil] at hempty

/-- The greatest weights are a potential. -/
theorem meets_of_longest {d : ν → Int} (h : ∀ n, IsLongest arcs weight n (d n)) :
    Meets weight d arcs := by
  intro a ha
  rcases (h a.source).1 with ⟨u, p, hp, htotal⟩
  -- The heaviest walk to the source goes on over the arc.
  have hwalk : IsWalk arcs u (p ++ [a]) a.target :=
    isWalk_append_iff.mpr ⟨a.source, hp, .cons ha (.nil _)⟩
  have hle := (h a.target).walk_le hwalk
  rw [total_append, total_cons, total_nil] at hle
  omega

/-- The greatest weights are below every potential that is nowhere negative. -/
theorem IsLongest.le {d : Int} {c : ν → Int} (h : IsLongest arcs weight z d)
    (hc : Meets weight c arcs) (hz : 0 ≤ c z) (hsource : ∀ a ∈ arcs, 0 ≤ c a.source) :
    d ≤ c z := by
  rcases h.1 with ⟨u, p, hp, rfl⟩
  have hwalk := hc.walk hp
  cases hp with
  | nil => exact hz
  | cons ha _ =>
      -- The walk starts at the source of an arc, where the potential is not negative.
      have hstart := hsource _ ha
      omega

/-- Nothing leads to the vertex, so its greatest weight is that of the empty walk. -/
theorem IsLongest.eq_zero {d : Int} (h : IsLongest arcs weight z d)
    (hnone : ∀ a ∈ arcs, a.target ≠ z) : d = 0 := by
  rcases h.1 with ⟨u, p, hp, rfl⟩
  rcases hp.eq_nil_or_snoc with ⟨rfl, -⟩ | ⟨q, a, ha, -, htarget, -⟩
  · rfl
  · exact absurd htarget (hnone a ha)

/-- The greatest weight is reached over one of the arcs that lead to the vertex. -/
theorem IsLongest.isGreatest_arcs {d : ν → Int} {a : Arc ν}
    (h : ∀ n, IsLongest arcs weight n (d n)) (ha : a ∈ arcs) (htarget : a.target = z)
    (hweight : 0 ≤ weight a) :
    IsGreatest {n | ∃ b ∈ arcs, b.target = z ∧ d b.source + weight b = n} (d z) := by
  have hmeets := meets_of_longest h
  constructor
  · rcases (h z).1 with ⟨u, p, hp, htotal⟩
    rcases hp.eq_nil_or_snoc with ⟨rfl, -⟩ | ⟨q, b, hb, rfl, hend, hq⟩
    · -- The empty walk is heaviest, and the given arc is no lighter.
      have hstep := hmeets a ha
      have hsource := (h a.source).nonneg
      rw [total_nil] at htotal
      rw [htarget] at hstep
      exact ⟨a, ha, htarget, by omega⟩
    · have hstep := hmeets b hb
      have hbefore := (h b.source).walk_le hq
      rw [total_append, total_cons, total_nil] at htotal
      rw [hend] at hstep
      exact ⟨b, hb, hend, by omega⟩
  · rintro n ⟨b, hb, rfl, rfl⟩
    exact hmeets b hb

/-! ### Raising a potential -/

/-- A potential is raised just as far as it has to be, if some vertices are to have at least
    given values. -/
structure IsRaised (arcs : List (Arc ν)) (weight : Arc ν → Int) (vertices : List ν) (c : ν → Int)
    (demands : List (ν × Int)) (d : ν → Int) : Prop where
  meets : Meets weight d arcs
  above : ∀ n ∈ vertices, c n ≤ d n
  demanded : ∀ q ∈ demands, q.2 ≤ d q.1
  /-- It is below every other potential that would do. -/
  least : ∀ e, Meets weight e arcs → (∀ n ∈ vertices, c n ≤ e n) → (∀ q ∈ demands, q.2 ≤ e q.1) →
    ∀ n ∈ vertices, d n ≤ e n

/-- A value that a vertex cannot be below: the one it had, or one that the walk from a demand
    asks for. -/
def IsForced (arcs : List (Arc ν)) (weight : Arc ν → Int) (c : ν → Int) (demands : List (ν × Int))
    (n : ν) (k : Int) : Prop :=
  k = c n ∨ ∃ q ∈ demands, ∃ p, IsWalk arcs q.1 p n ∧ q.2 + total weight p = k

namespace IsRaised

variable {vertices : List ν} {c d e : ν → Int} {demands more : List (ν × Int)} {n : ν}

theorem refl (hc : Meets weight c arcs) : IsRaised arcs weight vertices c [] c :=
  ⟨hc, fun _ _ => le_refl _, fun _ h => absurd h List.not_mem_nil, fun _ _ hle _ => hle⟩

theorem trans (h : IsRaised arcs weight vertices c demands d)
    (h' : IsRaised arcs weight vertices d more e)
    (hmem : ∀ q ∈ demands, q.1 ∈ vertices) :
    IsRaised arcs weight vertices c (demands ++ more) e := by
  refine ⟨h'.meets, fun n hn => (h.above n hn).trans (h'.above n hn), ?_, fun y hy hle hall => ?_⟩
  · refine List.forall_mem_append.mpr ⟨fun q hq => ?_, h'.demanded⟩
    exact (h.demanded q hq).trans (h'.above _ (hmem q hq))
  · rcases List.forall_mem_append.mp hall with ⟨hfirst, hsecond⟩
    exact h'.least y hy (h.least y hy hle hfirst) hsecond

/-- A vertex that is raised on its own ends up where it is raised to. -/
theorem eq_of_singleton {k : Int} (h : IsRaised arcs weight vertices c [(n, c n + k)] d)
    (hc : Meets weight c arcs) (hk : 0 ≤ k) (hn : n ∈ vertices) : d n = c n + k := by
  have hshift : Meets weight (fun m => c m + k) arcs := by
    intro a ha
    have hstep := hc a ha
    simp only []
    omega
  have hbelow := h.least _ hshift (fun m _ => by omega)
    (List.forall_mem_singleton.mpr (le_refl _)) n hn
  exact le_antisymm hbelow (h.demanded _ List.mem_cons_self)

/-- A raised potential is above all that is asked for. -/
theorem le_of_isForced {k : Int} (h : IsRaised arcs weight vertices c demands d)
    (hn : n ∈ vertices) (hk : IsForced arcs weight c demands n k) : k ≤ d n := by
  rcases hk with rfl | ⟨q, hq, p, hp, rfl⟩
  · exact h.above n hn
  · have hstart := h.demanded q hq
    have hend := h.meets.walk hp
    omega

/-- It is no higher than that. -/
theorem isGreatest (h : IsRaised arcs weight vertices c demands d) (hc : Meets weight c arcs)
    (hn : n ∈ vertices) :
    IsGreatest {k | IsForced arcs weight c demands n k} (d n) := by
  have hbound : ∀ m, ∀ k, IsForced arcs weight c demands m k → k ≤ max (c m) (d m) := by
    rintro m k (rfl | ⟨q, hq, p, hp, rfl⟩)
    · exact le_max_left _ _
    · have hstart := h.demanded q hq
      have hend := h.meets.walk hp
      omega
  -- The greatest values that are asked for are a potential, so nothing above them is needed.
  choose e he hmax using fun m => Int.exists_greatest_of_bdd ⟨_, hbound m⟩ ⟨c m, .inl rfl⟩
  have hmeets : Meets weight e arcs := by
    intro a ha
    rcases he a.source with hold | ⟨q, hq, p, hp, hvalue⟩
    · have hstep := hc a ha
      have htarget := hmax a.target _ (.inl rfl)
      omega
    · have hgoes : IsWalk arcs q.1 (p ++ [a]) a.target :=
        isWalk_append_iff.mpr ⟨a.source, hp, .cons ha (.nil _)⟩
      have htarget := hmax a.target _ (.inr ⟨q, hq, _, hgoes, rfl⟩)
      rw [total_append, total_cons, total_nil] at htarget
      omega
  have hbelow : d n ≤ e n := by
    refine h.least e hmeets (fun m _ => hmax m _ (.inl rfl)) (fun q hq => ?_) n hn
    have hown := hmax q.1 _ (.inr ⟨q, hq, [], .nil _, rfl⟩)
    rwa [total_nil, add_zero] at hown
  rw [le_antisymm hbelow (h.le_of_isForced hn (he n))]
  exact ⟨he n, fun k hk => hmax n k hk⟩

end IsRaised

end Arc

end CyclePlan
