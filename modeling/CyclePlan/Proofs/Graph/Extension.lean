import Mathlib.Data.Finset.Card
import Mathlib.Data.Finset.Range
import Mathlib.Data.List.Nodup
import Mathlib.Data.List.Perm.Basic
import Mathlib.Data.Nat.Find
import Mathlib.Logic.Relation
import CyclePlan.Proofs.Graph.Draining

/-!
# Linear Extensions of Acyclic Edges

When draining reaches every node, and what the order is worth then.

The order is stated through ranks. A rank is any numbering in which every edge
goes up; that edges have one is what acyclic means here. An order that reaches
every node gives a rank, the position of each node in it
(`linearExtension?_rank`), and conversely edges with a rank never stop the
draining, because of the pending nodes one with the least rank has no edge left
that leads to it (`exists_linearExtension?`).

Only the edges that start at a pending node can stop anything. Draining removes
them together with their start, so this is an invariant and the one hypothesis
that the converse needs beside the rank.

## Theorems

* `drain_perm`: What is drained and what is left are the pending nodes.
* `drain_pairwise`: No edge goes back in the drained order.
* `linearExtension?_perm`: The order lists every node once.
* `linearExtension?_rank`: The order gives a rank.
* `exists_linearExtension?`: A rank gives an order.
* `exists_rank_of_acyclic`: What has no cycle has a rank.
* `exists_linearExtension?_iff`: There is an order exactly if there is no cycle.
-/

namespace CyclePlan

namespace Graph

/-- What is drained and what is left are the pending nodes. -/
theorem drain_perm (steps : Nat) (pending : List Nat) (edges : List (Nat × Nat)) :
    ∃ left, (drain steps pending edges ++ left).Perm pending := by
  induction steps generalizing pending edges with
  | zero => exact ⟨pending, List.Perm.refl _⟩
  | succ steps ih =>
      simp only [drain]
      cases hfind : pending.find? fun u => edges.all fun e => e.2 != u with
      | none => exact ⟨pending, List.Perm.refl _⟩
      | some u =>
          rcases ih (pending.erase u) (edges.filter fun e => e.1 != u) with ⟨left, hleft⟩
          have hmem : u ∈ pending := List.mem_of_find?_eq_some hfind
          exact ⟨left, (hleft.cons u).trans (List.perm_cons_erase hmem).symm⟩

/-- No edge leads from a node to one that was drained before it, or to
    itself. -/
theorem drain_pairwise (steps : Nat) (pending : List Nat) (edges : List (Nat × Nat))
    (hnodup : pending.Nodup) :
    (∀ u ∈ drain steps pending edges, (u, u) ∉ edges) ∧
      (drain steps pending edges).Pairwise fun u v => (v, u) ∉ edges := by
  induction steps generalizing pending edges with
  | zero => exact ⟨fun u hu => absurd hu List.not_mem_nil, List.Pairwise.nil⟩
  | succ steps ih =>
      simp only [drain]
      cases hfind : pending.find? fun u => edges.all fun e => e.2 != u with
      | none => exact ⟨fun u hu => absurd hu List.not_mem_nil, List.Pairwise.nil⟩
      | some u =>
          have hfree : ∀ w, (w, u) ∉ edges := by
            intro w hw
            have hfound := List.find?_some (p := fun u => edges.all fun e => e.2 != u) hfind
            exact bne_iff_ne.mp (List.all_eq_true.mp hfound (w, u) hw) rfl
          rcases ih (pending.erase u) (edges.filter fun e => e.1 != u)
            (hnodup.erase u) with ⟨hself, hpair⟩
          -- What is drained later is another node, so its edges were not removed.
          have hne : ∀ v ∈ drain steps (pending.erase u) (edges.filter fun e => e.1 != u),
              v ≠ u := by
            intro v hv
            rcases drain_perm steps (pending.erase u) (edges.filter fun e => e.1 != u) with
              ⟨left, hleft⟩
            have hmem := hleft.subset (List.mem_append_left left hv)
            exact fun heq => hnodup.not_mem_erase (heq ▸ hmem)
          have hkept : ∀ v w, v ≠ u → (v, w) ∈ edges →
              (v, w) ∈ edges.filter fun e => e.1 != u := by
            intro v w hv hedge
            exact List.mem_filter.mpr ⟨hedge, by simpa using hv⟩
          constructor
          · intro v hv
            rcases List.mem_cons.mp hv with rfl | hv
            · exact hfree v
            · exact fun hedge => hself v hv (hkept v v (hne v hv) hedge)
          · refine List.pairwise_cons.mpr ⟨fun v _ => hfree v, ?_⟩
            refine hpair.imp_of_mem fun {v w} _ hw hnot hedge => ?_
            exact hnot (hkept w v (hne w hw) hedge)

/-- With a rank, every pending node is drained. -/
theorem length_drain_of_rank (rank : Nat → Nat) (pending : List Nat) (edges : List (Nat × Nat))
    (hsource : ∀ e ∈ edges, e.1 ∈ pending) (hrank : ∀ e ∈ edges, rank e.1 < rank e.2) :
    (drain pending.length pending edges).length = pending.length := by
  induction hlen : pending.length generalizing pending edges with
  | zero => rfl
  | succ k ih =>
      simp only [drain]
      cases hfind : pending.find? fun u => edges.all fun e => e.2 != u with
      | none =>
          -- A pending node of least rank cannot be entered by an edge.
          exfalso
          have hpos : ∃ r, ∃ u ∈ pending, rank u = r := by
            cases pending with
            | nil => simp at hlen
            | cons u rest => exact ⟨rank u, u, List.mem_cons_self, rfl⟩
          classical
          rcases Nat.find_spec hpos with ⟨u, hu, hru⟩
          have hentered := List.find?_eq_none.mp hfind u hu
          rw [List.all_eq_true] at hentered
          apply hentered
          intro e he
          have hless := hrank e he
          have hleast : ¬ rank e.1 < Nat.find hpos := fun hlt =>
            Nat.find_min hpos hlt ⟨e.1, hsource e he, rfl⟩
          rw [bne_iff_ne]
          intro heq
          rw [heq] at hless
          omega
      | some u =>
          have hmem : u ∈ pending := List.mem_of_find?_eq_some hfind
          have herase : (pending.erase u).length = k := by
            rw [List.length_erase_of_mem hmem]
            omega
          rw [List.length_cons, ih (pending.erase u) _ ?_ ?_ herase]
          · intro e he
            rcases List.mem_filter.mp he with ⟨he, hne⟩
            exact (List.mem_erase_of_ne (by simpa using hne)).mpr (hsource e he)
          · exact fun e he => hrank e (List.mem_of_mem_filter he)

/-- A relation among finitely many nodes has a rank if it has no cycle. -/
theorem exists_rank_of_acyclic {R : Nat → Nat → Prop} {n : Nat}
    (hinside : ∀ u v, R u v → u < n ∧ v < n) (h : ∀ u, ¬ Relation.TransGen R u u) :
    ∃ rank : Nat → Nat, ∀ u v, R u v → rank u < rank v := by
  classical
  -- A node is ranked by the number of nodes that have to come before it.
  let before (u : Nat) : Finset Nat := (Finset.range n).filter fun w => Relation.TransGen R w u
  refine ⟨fun u => (before u).card, fun u v hedge => ?_⟩
  refine Finset.card_lt_card (Finset.ssubset_iff_of_subset ?_ |>.mpr ⟨u, ?_, ?_⟩)
  · intro w hw
    rcases Finset.mem_filter.mp hw with ⟨hrange, hpath⟩
    exact Finset.mem_filter.mpr ⟨hrange, hpath.tail hedge⟩
  · exact Finset.mem_filter.mpr ⟨Finset.mem_range.mpr (hinside u v hedge).1, .single hedge⟩
  · exact fun hself => h u (Finset.mem_filter.mp hself).2

variable {n : Nat} {edges : List (Nat × Nat)} {order : List Nat}

/-- An order that is found lists every node once. -/
theorem linearExtension?_perm (h : linearExtension? n edges = some order) :
    order.Perm (List.range n) := by
  rw [linearExtension?_eq_drain] at h
  split at h
  · next hlen =>
    cases h
    rcases drain_perm n (List.range n) edges with ⟨left, hleft⟩
    have hnil : left = [] := by
      have hcount := hleft.length_eq
      rw [List.length_append, hlen, List.length_range] at hcount
      exact List.length_eq_zero_iff.mp (by omega)
    rwa [hnil, List.append_nil] at hleft
  · cases h

/-- An order that is found gives a rank, the position in it. -/
theorem linearExtension?_rank (h : linearExtension? n edges = some order) {e : Nat × Nat}
    (he : e ∈ edges) (hsource : e.1 < n) (htarget : e.2 < n) :
    order.idxOf e.1 < order.idxOf e.2 := by
  have hperm := linearExtension?_perm h
  have hpair := drain_pairwise n (List.range n) edges List.nodup_range
  have horder : order = drain n (List.range n) edges := by
    rw [linearExtension?_eq_drain] at h
    split at h
    · cases h
      rfl
    · cases h
  rw [← horder] at hpair
  have h1 : e.1 ∈ order := hperm.mem_iff.mpr (List.mem_range.mpr hsource)
  have h2 : e.2 ∈ order := hperm.mem_iff.mpr (List.mem_range.mpr htarget)
  -- Otherwise the edge would go back in the order, or be a loop.
  by_contra hle
  have hlt1 := List.idxOf_lt_length_of_mem h1
  have hlt2 := List.idxOf_lt_length_of_mem h2
  rcases Nat.lt_or_eq_of_le (Nat.le_of_not_lt hle) with hlt | heq
  · have hnot := List.pairwise_iff_getElem.mp hpair.2 _ _ hlt2 hlt1 hlt
    rw [List.getElem_idxOf hlt1, List.getElem_idxOf hlt2] at hnot
    exact hnot he
  · have hsame : e.2 = e.1 := (List.idxOf_inj h2).mp heq
    refine hpair.1 e.1 h1 ?_
    have heta : e = (e.1, e.1) := Prod.ext rfl hsame
    rwa [heta] at he

/-- Edges with a rank have an order. -/
theorem exists_linearExtension? (rank : Nat → Nat) (hsource : ∀ e ∈ edges, e.1 < n)
    (hrank : ∀ e ∈ edges, rank e.1 < rank e.2) :
    ∃ order, linearExtension? n edges = some order := by
  have hlen := length_drain_of_rank rank (List.range n) edges
    (fun e he => List.mem_range.mpr (hsource e he)) hrank
  rw [List.length_range] at hlen
  exact ⟨drain n (List.range n) edges, by rw [linearExtension?_eq_drain, if_pos hlen]⟩

/-- There is an order exactly if no path along the edges comes back to where it
    started. -/
theorem exists_linearExtension?_iff (hinside : ∀ e ∈ edges, e.1 < n ∧ e.2 < n) :
    (∃ order, linearExtension? n edges = some order) ↔
      ∀ u, ¬ Relation.TransGen (fun u v => (u, v) ∈ edges) u u := by
  constructor
  · rintro ⟨order, horder⟩ u hcycle
    have hraise : ∀ v, Relation.TransGen (fun u v => (u, v) ∈ edges) u v →
        order.idxOf u < order.idxOf v := by
      intro v hpath
      induction hpath with
      | single hedge =>
          exact linearExtension?_rank horder hedge (hinside _ hedge).1 (hinside _ hedge).2
      | tail _ hedge ih =>
          exact ih.trans
            (linearExtension?_rank horder hedge (hinside _ hedge).1 (hinside _ hedge).2)
    exact Nat.lt_irrefl _ (hraise u hcycle)
  · intro hacyclic
    rcases exists_rank_of_acyclic (fun u v hedge => hinside (u, v) hedge) hacyclic with
      ⟨rank, hrank⟩
    exact exists_linearExtension? rank (fun e he => (hinside e he).1) fun e he => hrank e.1 e.2 he

end Graph

end CyclePlan
