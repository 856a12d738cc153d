import Mathlib.Data.List.Nodup
import CyclePlan.Graph.View

/-!
# Walks Through Stripped Nodes

What the walk behind a view meets.

The walk keeps a stack of open ends and a list of unseen nodes, and both change
at every step, so neither is what the walk is about. `LeadsTo` is: a path whose
inner nodes are passed through and whose last node stops it, all of them
unseen. The walk meets exactly the nodes that an open end leads to
(`mem_walk_iff`).

Crossing a node off the unseen ones loses no path. A path that visits the node
can be cut at its last visit, and the rest starts at one of its successors,
which is where the walk goes on (`LeadsTo.avoid`).

## Main definitions

* `LeadsTo`: A path of unseen nodes that passes through all but the last.

## Theorems

* `LeadsTo.avoid`: Cutting a path at a node that is crossed off.
* `mem_walk_iff`: The nodes that a walk meets.
* `walk_nodup`: None of them is met twice.
-/

namespace CyclePlan

namespace Graph

variable (next : Nat → List Nat) (stops : Nat → Bool)

/-- A path of unseen nodes leads from one node to another, through nodes that
    do not stop it to one that does. -/
inductive LeadsTo (unseen : List Nat) : Nat → Nat → Prop
  /-- The path ends where it started. -/
  | stop {s : Nat} (hmem : s ∈ unseen) (hstops : stops s = true) : LeadsTo unseen s s
  /-- The path passes through its first node. -/
  | pass {t u s : Nat} (hmem : t ∈ unseen) (hstops : stops t = false) (hnext : u ∈ next t)
    (hrest : LeadsTo unseen u s) : LeadsTo unseen t s

variable {next stops} {unseen : List Nat} {t s : Nat}

namespace LeadsTo

theorem stops_last (h : LeadsTo next stops unseen t s) : stops s = true := by
  induction h with
  | stop _ hstops => exact hstops
  | pass _ _ _ _ ih => exact ih

theorem mem_first (h : LeadsTo next stops unseen t s) : t ∈ unseen := by
  cases h with
  | stop hmem _ => exact hmem
  | pass hmem _ _ _ => exact hmem

theorem mem_last (h : LeadsTo next stops unseen t s) : s ∈ unseen := by
  induction h with
  | stop hmem _ => exact hmem
  | pass _ _ _ _ ih => exact ih

theorem mono {more : List Nat} (hsub : unseen ⊆ more) (h : LeadsTo next stops unseen t s) :
    LeadsTo next stops more t s := by
  induction h with
  | stop hmem hstops => exact .stop (hsub hmem) hstops
  | pass hmem hstops hnext _ ih => exact .pass (hsub hmem) hstops hnext ih

/-- A path to another node avoids a node that is crossed off, or it is cut at
    its last visit of that node. -/
theorem avoid (a : Nat) (h : LeadsTo next stops unseen t s) (hne : s ≠ a) :
    LeadsTo next stops (unseen.erase a) t s ∨
      (stops a = false ∧ ∃ u ∈ next a, LeadsTo next stops (unseen.erase a) u s) := by
  induction h with
  | stop hmem hstops => exact Or.inl (.stop ((List.mem_erase_of_ne hne).mpr hmem) hstops)
  | pass hmem hstops hnext _ ih =>
      rename_i t u s _
      -- The rest comes first, since it is the last visit that counts.
      rcases ih hne with hrest | hcut
      · by_cases hta : t = a
        · subst hta
          exact Or.inr ⟨hstops, u, hnext, hrest⟩
        · exact Or.inl (.pass ((List.mem_erase_of_ne hta).mpr hmem) hstops hnext hrest)
      · exact Or.inr hcut

end LeadsTo

/-- A walk meets exactly the nodes that one of its open ends leads to. -/
theorem mem_walk_iff {stack : List Nat} (hnodup : unseen.Nodup) :
    s ∈ walk next stops unseen stack ↔ ∃ t ∈ stack, LeadsTo next stops unseen t s := by
  induction unseen, stack using walk.induct next stops with
  | case1 unseen =>
      -- No open end is left.
      rw [walk]
      constructor
      · intro h
        exact absurd h List.not_mem_nil
      · rintro ⟨t, ht, _⟩
        exact absurd ht List.not_mem_nil
  | case2 unseen a stack hmem hstops ih =>
      -- The open end stops the walk, so it is met.
      rw [walk, if_pos hmem, if_pos hstops, List.mem_cons, ih (hnodup.erase a)]
      constructor
      · rintro (rfl | ⟨t, ht, hleads⟩)
        · exact ⟨s, List.mem_cons_self, .stop hmem hstops⟩
        · exact ⟨t, List.mem_cons_of_mem _ ht, hleads.mono List.erase_subset⟩
      · rintro ⟨t, ht, hleads⟩
        by_cases hsa : s = a
        · exact Or.inl hsa
        · right
          rcases hleads.avoid a hsa with hrest | ⟨hpass, _⟩
          · rcases List.mem_cons.mp ht with rfl | ht
            · exact absurd hrest.mem_first hnodup.not_mem_erase
            · exact ⟨t, ht, hrest⟩
          · rw [hstops] at hpass
            cases hpass
  | case3 unseen a stack hmem hpass ih =>
      -- The walk passes through and goes on with the successors.
      have hpass' : stops a = false := Bool.not_eq_true _ ▸ hpass
      rw [walk, if_pos hmem, if_neg hpass, ih (hnodup.erase a)]
      constructor
      · rintro ⟨t, ht, hleads⟩
        have hback := hleads.mono (List.erase_subset (a := a))
        rcases List.mem_append.mp ht with ht | ht
        · exact ⟨a, List.mem_cons_self, .pass hmem hpass' (List.mem_reverse.mp ht) hback⟩
        · exact ⟨t, List.mem_cons_of_mem _ ht, hback⟩
      · rintro ⟨t, ht, hleads⟩
        have hsa : s ≠ a := by
          intro heq
          rw [← heq, hleads.stops_last] at hpass'
          cases hpass'
        rcases hleads.avoid a hsa with hrest | ⟨_, u, hu, hrest⟩
        · rcases List.mem_cons.mp ht with rfl | ht
          · exact absurd hrest.mem_first hnodup.not_mem_erase
          · exact ⟨t, List.mem_append_right _ ht, hrest⟩
        · exact ⟨u, List.mem_append_left _ (List.mem_reverse.mpr hu), hrest⟩
  | case4 unseen a stack hmem ih =>
      -- The open end was crossed off before, so no path starts there.
      rw [walk, if_neg hmem, ih hnodup]
      constructor
      · rintro ⟨t, ht, hleads⟩
        exact ⟨t, List.mem_cons_of_mem _ ht, hleads⟩
      · rintro ⟨t, ht, hleads⟩
        rcases List.mem_cons.mp ht with rfl | ht
        · exact absurd hleads.mem_first hmem
        · exact ⟨t, ht, hleads⟩

/-- No node is met twice. -/
theorem walk_nodup {stack : List Nat} (hnodup : unseen.Nodup) :
    (walk next stops unseen stack).Nodup := by
  induction unseen, stack using walk.induct next stops with
  | case1 unseen =>
      rw [walk]
      exact List.nodup_nil
  | case2 unseen a stack hmem hstops ih =>
      rw [walk, if_pos hmem, if_pos hstops, List.nodup_cons]
      refine ⟨fun hagain => ?_, ih (hnodup.erase a)⟩
      -- What is met later is unseen after `a` was crossed off.
      rcases (mem_walk_iff (hnodup.erase a)).mp hagain with ⟨_, _, hleads⟩
      exact hnodup.not_mem_erase hleads.mem_last
  | case3 unseen a stack hmem hpass ih =>
      rw [walk, if_pos hmem, if_neg hpass]
      exact ih (hnodup.erase a)
  | case4 unseen a stack hmem ih =>
      rw [walk, if_neg hmem]
      exact ih hnodup

end Graph

end CyclePlan
