import Mathlib.Data.List.Nodup
import CyclePlan.Graph.Order

/-!
# Ordering without Counts

What the counts of an ordering stand for.

The loop that orders nodes never looks at an edge to decide which node is next:
it trusts its counts. Draining is the same process told by the edges alone. It
takes the first pending node that no remaining edge leads to, and drops the edges
that leave it. `Frontier.Tracks` is the invariant that ties the two together:
every pending node has its remaining edges as its count, and the bag holds the
pending nodes whose count is zero.

Striking off an edge must not reach a node that was taken before, or that node
would get ready twice. The invariant excludes it because a node is only taken
when nothing is left to strike off. This is also why no count goes below zero.

The nodes have to be pending in ascending order. Draining takes the first of
them and the loop the least.

## Main definitions

* `drain`: The nodes in the order in which they can be taken.
* `Frontier.Tracks`: A frontier is up to date.

## Theorems

* `le_of_find?_eq_some`: The first of ascending numbers is the least.
* `Frontier.Tracks.release`, `Frontier.Tracks.releaseAll`: Striking off edges.
* `Frontier.Tracks.min?_ready`: The least ready node is the next to drain.
* `takeReady_eq_drain`: Counting finds what draining finds.
* `linearExtension?_eq_drain`: An order is a complete draining.
* `takeReady_of_le`: The loop has nothing left to take after `n` nodes.
-/

namespace CyclePlan

namespace Graph

/-- Takes up to `steps` nodes, each the first of the pending ones that no edge
    leads to. -/
def drain : Nat → List Nat → List (Nat × Nat) → List Nat
  | 0, _, _ => []
  | steps + 1, pending, edges =>
    match pending.find? fun u => edges.all fun e => e.2 != u with
    | none => []
    | some u => u :: drain steps (pending.erase u) (edges.filter fun e => e.1 != u)

/-- In an ascending list the first number with a property is the least. -/
theorem le_of_find?_eq_some {pending : List Nat} {p : Nat → Bool} {u v : Nat}
    (hsorted : pending.Pairwise (· < ·)) (hfind : pending.find? p = some u) (hv : v ∈ pending)
    (hpv : p v = true) : u ≤ v := by
  rcases List.find?_eq_some_iff_append.mp hfind with ⟨_, before, after, rfl, hbefore⟩
  rcases List.mem_append.mp hv with hmem | hmem
  · have hnot := hbefore v hmem
    rw [hpv] at hnot
    cases hnot
  · rcases List.mem_cons.mp hmem with rfl | hmem
    · exact Nat.le_refl v
    · have hafter := (List.pairwise_append.mp hsorted).2.1
      exact Nat.le_of_lt (List.rel_of_pairwise_cons hafter hmem)

/-- A frontier is up to date with the pending nodes and the number of edges that
    still lead to each node. -/
structure Frontier.Tracks (f : Frontier) (pending : List Nat) (count : Nat → Nat) : Prop where
  entering : ∀ v ∈ pending, f.entering[v]? = some (count v)
  /-- Any other node was taken, unless it is out of range. -/
  elsewhere : ∀ v, v ∉ pending → f.entering[v]? = none ∨ count v = 0
  ready : ∀ v, v ∈ f.ready ↔ v ∈ pending ∧ count v = 0
  nodup : f.ready.Nodup

namespace Frontier.Tracks

variable {f : Frontier} {pending : List Nat} {count : Nat → Nat} {v : Nat}

theorem release_entering (h : f.Tracks pending fun w => count w + if v = w then 1 else 0) :
    ∀ w ∈ pending, (f.release v).entering[w]? = some (count w) := by
  intro w hw
  rw [Frontier.release, List.getElem?_modify, h.entering w hw]
  by_cases hvw : v = w
  · simp [hvw]
  · simp [hvw]

/-- A node whose edges were not all struck off is not in the bag yet. -/
theorem not_mem_ready (h : f.Tracks pending fun w => count w + if v = w then 1 else 0) :
    v ∉ f.ready := by
  intro hmem
  have hzero := ((h.ready v).mp hmem).2
  rw [if_pos rfl] at hzero
  omega

/-- The last edge that is struck off leads to a node that is pending. -/
theorem mem_of_release (h : f.Tracks pending fun w => count w + if v = w then 1 else 0)
    (hlast : (f.entering.modify v (· - 1))[v]? = some 0) : v ∈ pending := by
  by_contra hv
  rcases h.elsewhere v hv with hnone | hzero
  · rw [List.getElem?_modify, hnone] at hlast
    cases hlast
  · rw [if_pos rfl] at hzero
    omega

/-- The bag after an edge was struck off: what was in it, and the node that the edge leads
    to if it was the last one. -/
theorem mem_release_ready_iff
    (h : f.Tracks pending fun w => count w + if v = w then 1 else 0) (w : Nat) :
    w ∈ (f.release v).ready ↔ w ∈ pending ∧ count w = 0 := by
  have hother : w ≠ v → (w ∈ f.ready ↔ w ∈ pending ∧ count w = 0) := by
    intro hw
    rw [h.ready w, if_neg (Ne.symm hw), Nat.add_zero]
  by_cases hlast : (f.entering.modify v (· - 1))[v]? = some 0
  · rw [Frontier.release, if_pos hlast, List.mem_cons]
    by_cases hw : w = v
    · subst hw
      have hpending := h.mem_of_release hlast
      have hzero : count w = 0 :=
        Option.some.inj ((h.release_entering w hpending).symm.trans hlast)
      exact ⟨fun _ => ⟨hpending, hzero⟩, fun _ => .inl rfl⟩
    · rw [or_iff_right hw, hother hw]
  · rw [Frontier.release, if_neg hlast]
    by_cases hw : w = v
    · subst hw
      refine ⟨fun hmem => absurd hmem h.not_mem_ready, fun ⟨hpending, hzero⟩ => absurd ?_ hlast⟩
      rw [← hzero]
      exact h.release_entering w hpending
    · exact hother hw

/-- Striking off an edge that was counted. -/
theorem release (h : f.Tracks pending fun w => count w + if v = w then 1 else 0) :
    (f.release v).Tracks pending count := by
  refine ⟨h.release_entering, fun w hw => ?_, h.mem_release_ready_iff, ?_⟩
  · rcases h.elsewhere w hw with hnone | hzero
    · exact .inl (by rw [Frontier.release, List.getElem?_modify, hnone]; rfl)
    · exact .inr (Nat.eq_zero_of_add_eq_zero_right hzero)
  · rw [Frontier.release]
    split
    · exact List.nodup_cons.mpr ⟨h.not_mem_ready, h.nodup⟩
    · exact h.nodup

/-- Striking off several edges, possibly to the same node. -/
theorem releaseAll {targets : List Nat}
    (h : f.Tracks pending fun w => count w + targets.count w) :
    (targets.foldl Frontier.release f).Tracks pending count := by
  induction targets generalizing f with
  | nil => exact h
  | cons t rest ih =>
      refine ih (release ?_)
      convert h using 2 with w
      rw [List.count_cons, Nat.add_assoc]
      simp only [beq_iff_eq]

/-- A node that is taken leaves the bag. -/
theorem take {u : Nat} (h : f.Tracks pending count) (hnodup : pending.Nodup) (hu : u ∈ f.ready) :
    ({ f with ready := f.ready.erase u } : Frontier).Tracks (pending.erase u) count := by
  refine ⟨fun v hv => h.entering v (List.mem_of_mem_erase hv), ?_, ?_, h.nodup.erase u⟩
  · intro v hv
    by_cases hvu : v = u
    · rw [hvu]
      exact .inr ((h.ready u).mp hu).2
    · exact h.elsewhere v fun hmem => hv ((List.mem_erase_of_ne hvu).mpr hmem)
  · intro v
    rw [h.nodup.mem_erase_iff, hnodup.mem_erase_iff, h.ready v, and_assoc]

/-- The least node that is ready is the first pending one without a count. -/
theorem min?_ready (h : f.Tracks pending count) (hsorted : pending.Pairwise (· < ·)) :
    f.ready.min? = pending.find? fun u => count u == 0 := by
  cases hfind : pending.find? fun u => count u == 0 with
  | none =>
      rw [List.min?_eq_none_iff, List.eq_nil_iff_forall_not_mem]
      intro v hv
      rcases (h.ready v).mp hv with ⟨hpending, hzero⟩
      exact List.find?_eq_none.mp hfind v hpending (beq_iff_eq.mpr hzero)
  | some u =>
      rw [List.min?_eq_some_iff]
      refine ⟨(h.ready u).mpr ⟨List.mem_of_find?_eq_some hfind, ?_⟩, fun v hv => ?_⟩
      · exact beq_iff_eq.mp (List.find?_some (p := fun u => count u == 0) hfind)
      · rcases (h.ready v).mp hv with ⟨hpending, hzero⟩
        exact le_of_find?_eq_some hsorted hfind hpending (beq_iff_eq.mpr hzero)

end Frontier.Tracks

/-- The number of edges that lead to a node. -/
def edgesInto (edges : List (Nat × Nat)) (v : Nat) : Nat := edges.countP fun e => e.2 == v

theorem edgesInto_eq_zero_iff {edges : List (Nat × Nat)} {v : Nat} :
    (edgesInto edges v == 0) = edges.all fun e => e.2 != v := by
  rw [Bool.eq_iff_iff, beq_iff_eq, edgesInto, List.countP_eq_zero, List.all_eq_true]
  simp

/-- The edges into a node either leave a given node or not. -/
theorem edgesInto_eq_add (edges : List (Nat × Nat)) (u v : Nat) :
    edgesInto edges v = edgesInto (edges.filter fun e => e.1 != u) v +
      ((edges.filter fun e => e.1 == u).map (·.2)).count v := by
  rw [edgesInto, List.countP_eq_countP_filter_add edges _ fun e => e.1 == u, Nat.add_comm,
    List.count, List.countP_map]
  rfl

theorem start_tracks (n : Nat) (edges : List (Nat × Nat)) :
    (Frontier.start n edges).Tracks (List.range n) (edgesInto edges) := by
  have hentering : ∀ v, (Frontier.start n edges).entering[v]? =
      if v < n then some (edgesInto edges v) else none := by
    intro v
    rw [Frontier.start, List.getElem?_map]
    split
    · next hlt => rw [List.getElem?_range hlt]; rfl
    · next hle => rw [List.getElem?_eq_none (by simpa using hle)]; rfl
  refine ⟨fun v hv => ?_, fun v hv => ?_, fun v => ?_, List.nodup_range.filter _⟩
  · rw [hentering, if_pos (List.mem_range.mp hv)]
  · rw [hentering, if_neg fun hlt => hv (List.mem_range.mpr hlt)]
    exact .inl rfl
  · change v ∈ (List.range n).filter (fun v => (Frontier.start n edges).entering[v]? == some 0) ↔ _
    rw [List.mem_filter]
    refine and_congr_right fun hv => ?_
    rw [hentering, if_pos (List.mem_range.mp hv)]
    simp

/-- Counting finds what draining finds, as long as no edge of a pending node was
    dropped. -/
theorem takeReady_eq_drain {f : Frontier} {pending : List Nat} {edges rest : List (Nat × Nat)}
    (steps : Nat) (h : f.Tracks pending (edgesInto rest)) (hsorted : pending.Pairwise (· < ·))
    (hrest : ∀ u ∈ pending,
      rest.filter (fun e => e.1 == u) = edges.filter fun e => e.1 == u) :
    takeReady edges steps f = drain steps pending rest := by
  induction steps generalizing f pending rest with
  | zero => rfl
  | succ steps ih =>
      have hnodup : pending.Nodup := hsorted.imp fun hlt => Nat.ne_of_lt hlt
      have hnext : f.ready.min? = pending.find? fun u => rest.all fun e => e.2 != u := by
        rw [h.min?_ready hsorted]
        simp only [edgesInto_eq_zero_iff]
      simp only [takeReady, drain, ← hnext]
      cases hmin : f.ready.min? with
      | none => rfl
      | some u =>
          have hu : u ∈ f.ready := (List.min?_eq_some_iff.mp hmin).1
          have hpending : u ∈ pending := ((h.ready u).mp hu).1
          refine congrArg (u :: ·) (ih ?_ (hsorted.sublist List.erase_sublist) ?_)
          · have htaken := h.take hnodup hu
            rw [funext (edgesInto_eq_add rest u), hrest u hpending] at htaken
            exact htaken.releaseAll
          · intro v hv
            have hne : v ≠ u := (hnodup.mem_erase_iff.mp hv).1
            rw [← hrest v (List.mem_of_mem_erase hv), List.filter_filter]
            refine List.filter_congr fun e _ => ?_
            by_cases hsource : e.1 = v
            · simp [hsource, hne]
            · simp [hsource]

/-- An order is a draining that reaches every node. -/
theorem linearExtension?_eq_drain (n : Nat) (edges : List (Nat × Nat)) :
    linearExtension? n edges =
      if (drain n (List.range n) edges).length = n then some (drain n (List.range n) edges)
      else none := by
  rw [linearExtension?, takeReady_eq_drain n (start_tracks n edges) List.pairwise_lt_range
    fun _ _ => rfl]

/-- Draining ends when nothing is pending. -/
theorem drain_of_length_le {steps : Nat} {pending : List Nat} (edges : List (Nat × Nat))
    (h : pending.length ≤ steps) :
    drain steps pending edges = drain pending.length pending edges := by
  induction steps generalizing pending edges with
  | zero => rw [Nat.le_zero.mp h]
  | succ steps ih =>
      cases pending with
      | nil => simp [drain]
      | cons v rest =>
          simp only [drain, List.length_cons]
          cases hfind : (v :: rest).find? fun u => edges.all fun e => e.2 != u with
          | none => rfl
          | some u =>
              have hlength : ((v :: rest).erase u).length = rest.length := by
                rw [List.length_erase_of_mem (List.mem_of_find?_eq_some hfind)]
                rfl
              have hle : ((v :: rest).erase u).length ≤ steps := by
                rw [List.length_cons] at h
                omega
              simp only [ih _ hle, hlength]

/-- The loop ends by itself. After as many nodes as there are, nothing is ready. -/
theorem takeReady_of_le {n steps : Nat} (edges : List (Nat × Nat)) (h : n ≤ steps) :
    takeReady edges steps (.start n edges) = takeReady edges n (.start n edges) := by
  have hdrain : ∀ k, takeReady edges k (.start n edges) = drain k (List.range n) edges :=
    fun k => takeReady_eq_drain k (start_tracks n edges) List.pairwise_lt_range fun _ _ => rfl
  rw [hdrain, hdrain, drain_of_length_le edges (by rwa [List.length_range]), List.length_range]

end Graph

end CyclePlan
