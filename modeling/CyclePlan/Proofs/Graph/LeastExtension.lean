import Mathlib.Data.List.Lex
import CyclePlan.Proofs.Graph.Extension

/-!
# The Least Linear Extension

Which of the possible orders is found.

Taking the least node that is ready is a greedy choice, and here greed pays: of
all orders in which every edge goes forward, the one that is found comes first in
the lexicographic order. An order that starts otherwise starts with a node that
no edge leads to, so that node was ready as well and it is greater. An order that
starts alike goes on with an order of the nodes that are left
(`drain_eq_or_lex`).

Only one order can come first, so it depends on nothing but the number of nodes
and the edges as a relation. How often an edge is listed, and where, makes no
difference (`Sorts.unique`).

## Main definitions

* `IsLinearExtension`: An order in which every edge goes forward.
* `IsLeastExtension`: The first of them.
* `Sorts`: An order is found if there is one, and it is the first.

## Theorems

* `drain_eq_or_lex`: The greedy choice is never worse.
* `IsLeastExtension.unique`: There is one first order.
* `linearExtension?_sorts`: It is found.
* `Sorts.unique`: Two ways to find it agree.
-/

namespace CyclePlan

namespace Graph

/-- An order lists every node below `n` once, and of two related nodes the first
    comes before the second. -/
structure IsLinearExtension (n : Nat) (R : Nat → Nat → Prop) (order : List Nat) : Prop where
  perm : order.Perm (List.range n)
  forward : ∀ u v, R u v → order.idxOf u < order.idxOf v

/-- No other such order comes before it in the lexicographic order. -/
structure IsLeastExtension (n : Nat) (R : Nat → Nat → Prop) (order : List Nat) : Prop
    extends IsLinearExtension n R order where
  least : ∀ other, IsLinearExtension n R other → order = other ∨ List.Lex (· < ·) order other

/-- There is an answer exactly if no path comes back to where it started, and it is
    the least order. -/
structure Sorts (n : Nat) (R : Nat → Nat → Prop) (answer : Option (List Nat)) : Prop where
  isSome_iff : answer.isSome ↔ ∀ u, ¬ Relation.TransGen R u u
  least : ∀ order, answer = some order → IsLeastExtension n R order

section

variable {n : Nat} {R : Nat → Nat → Prop} {order other : List Nat}

theorem IsLinearExtension.nodup (h : IsLinearExtension n R order) : order.Nodup :=
  h.perm.nodup_iff.mpr List.nodup_range

/-- Nothing is related to itself or to a node before it. -/
theorem IsLinearExtension.pairwise (h : IsLinearExtension n R order) :
    (∀ u, ¬ R u u) ∧ order.Pairwise fun u v => ¬ R v u := by
  refine ⟨fun u hloop => Nat.lt_irrefl _ (h.forward u u hloop), ?_⟩
  rw [List.pairwise_iff_getElem]
  intro i j hi hj hij hback
  have hlt := h.forward _ _ hback
  rw [h.nodup.idxOf_getElem, h.nodup.idxOf_getElem] at hlt
  omega

/-- Two least orders are the same one. -/
theorem IsLeastExtension.unique (h : IsLeastExtension n R order)
    (hother : IsLeastExtension n R other) : order = other := by
  rcases h.least other hother.toIsLinearExtension with heq | hlt
  · exact heq
  · rcases hother.least order h.toIsLinearExtension with heq | hgt
    · exact heq.symm
    · exact absurd hgt (asymm hlt)

/-- Two answers to the same question agree. -/
theorem Sorts.unique {answer answer' : Option (List Nat)} (h : Sorts n R answer)
    (h' : Sorts n R answer') : answer = answer' := by
  have hsome : answer.isSome ↔ answer'.isSome := h.isSome_iff.trans h'.isSome_iff.symm
  cases hanswer : answer with
  | none => cases hanswer' : answer' with
    | none => rfl
    | some order' => simp [hanswer, hanswer'] at hsome
  | some order => cases hanswer' : answer' with
    | none => simp [hanswer, hanswer'] at hsome
    | some order' => rw [(h.least order hanswer).unique (h'.least order' hanswer')]

end

/-- An order in which every edge goes forward can only start with a node that no edge
    leads to. -/
theorem first_isFree {edges : List (Nat × Nat)} {w : Nat} {rest : List Nat}
    (hsource : ∀ e ∈ edges, e.1 ∈ w :: rest) (hloop : (w, w) ∉ edges)
    (hfirst : ∀ u ∈ rest, (u, w) ∉ edges) : (edges.all fun e => e.2 != w) = true := by
  rw [List.all_eq_true]
  intro e he
  rw [bne_iff_ne]
  rintro rfl
  rcases List.mem_cons.mp (hsource e he) with heq | hmem
  · refine hloop ?_
    have heta : e = (e.2, e.2) := Prod.ext heq rfl
    rwa [← heta]
  · exact hfirst e.1 hmem he

/-- Draining comes to an order that is not after any other in which every edge
    goes forward. -/
theorem drain_eq_or_lex {pending other : List Nat} {edges : List (Nat × Nat)}
    (hsorted : pending.Pairwise (· < ·)) (hsource : ∀ e ∈ edges, e.1 ∈ pending)
    (hperm : other.Perm pending) (hloop : ∀ u, (u, u) ∉ edges)
    (hforward : other.Pairwise fun u v => (v, u) ∉ edges) :
    drain pending.length pending edges = other ∨
      List.Lex (· < ·) (drain pending.length pending edges) other := by
  induction hlen : pending.length generalizing pending other edges with
  | zero =>
      have hnil : other = [] := List.length_eq_zero_iff.mp (hperm.length_eq.trans hlen)
      exact .inl hnil.symm
  | succ k ih =>
      cases other with
      | nil => rw [← hperm.length_eq] at hlen; cases hlen
      | cons w rest =>
          have hpending : w ∈ pending := hperm.subset List.mem_cons_self
          rcases List.pairwise_cons.mp hforward with ⟨hfirst, hrest⟩
          have hfree := first_isFree (fun e he => hperm.symm.subset (hsource e he)) (hloop w) hfirst
          simp only [drain]
          cases hfind : pending.find? fun u => edges.all fun e => e.2 != u with
          | none => exact absurd hfree (List.find?_eq_none.mp hfind w hpending)
          | some u =>
              have hmem : u ∈ pending := List.mem_of_find?_eq_some hfind
              -- Both nodes were ready, and draining takes the lesser one.
              have hle : u ≤ w := le_of_find?_eq_some hsorted hfind hpending hfree
              rcases Nat.lt_or_eq_of_le hle with hlt | rfl
              · exact .inr (.rel hlt)
              · have hlength : (pending.erase u).length = k := by
                  rw [List.length_erase_of_mem hmem]
                  omega
                have hleft : rest.Perm (pending.erase u) := by
                  simpa using hperm.erase u
                have hkept : ∀ e ∈ edges.filter fun e => e.1 != u, e.1 ∈ pending.erase u := by
                  intro e he
                  rcases List.mem_filter.mp he with ⟨he, hne⟩
                  exact (List.mem_erase_of_ne (bne_iff_ne.mp hne)).mpr (hsource e he)
                have hnext := ih (hsorted.sublist List.erase_sublist) hkept hleft
                  (fun v hv => hloop v (List.mem_of_mem_filter hv))
                  (hrest.imp fun hnot hv => hnot (List.mem_of_mem_filter hv)) hlength
                exact hnext.imp (congrArg (u :: ·)) .cons

section

variable {n : Nat} {edges : List (Nat × Nat)}

/-- Edges between the nodes are sorted. -/
theorem linearExtension?_sorts (hinside : ∀ e ∈ edges, e.1 < n ∧ e.2 < n) :
    Sorts n (fun u v => (u, v) ∈ edges) (linearExtension? n edges) := by
  refine ⟨?_, fun order horder => ⟨⟨linearExtension?_perm horder, ?_⟩, ?_⟩⟩
  · rw [Option.isSome_iff_exists]
    exact exists_linearExtension?_iff hinside
  · exact fun u v hedge =>
      linearExtension?_rank horder hedge (hinside _ hedge).1 (hinside _ hedge).2
  · intro other hother
    have hdrain : order = drain n (List.range n) edges := by
      rw [linearExtension?_eq_drain] at horder
      split at horder
      · exact (Option.some.inj horder).symm
      · cases horder
    have hlex := drain_eq_or_lex (List.pairwise_lt_range (n := n))
      (fun e he => List.mem_range.mpr (hinside e he).1) hother.perm hother.pairwise.1
      hother.pairwise.2
    rwa [List.length_range, ← hdrain] at hlex

/-- A repeated edge counts twice until its source is taken. A loop never goes. -/
example : linearExtension? 3 [(0, 2), (1, 0), (0, 2)] = some [1, 0, 2] ∧
    linearExtension? 2 [(1, 1)] = none := by decide

end

end Graph

end CyclePlan
