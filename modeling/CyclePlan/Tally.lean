import CyclePlan.NameMap

/-!
# Tallies

How often each key occurs in a list, and the greatest of the numbers under each name.

Operations are counted where they compete, in one cycle of a block or in one column of
the reservation table, and what is reported of these counts is the greatest for each
class of units. A key that does not occur is not listed, so no count is zero.

## Main definitions

* `tally`: How often each key of a list occurs.
* `NameMap.ofPeaks`: The greatest of the numbers listed under each name.

## Theorems

* `mem_tally_iff`, `tally_le_iff`: The entries of a tally.
* `NameMap.get?_ofPeaks_eq_none_iff`, `NameMap.getD_ofPeaks_le_iff`: Which names have a
  greatest number, and how great it is.
-/

namespace CyclePlan

section

variable {κ : Type} [DecidableEq κ] {counts : List (κ × Nat)} {key k : κ} {n : Nat}

/-- Counts one more under a key. -/
def countKey (counts : List (κ × Nat)) (key : κ) : List (κ × Nat) :=
  match counts with
  | [] => [(key, 1)]
  | (k, n) :: rest => if k = key then (k, n + 1) :: rest else (k, n) :: countKey rest key

/-- How often each key occurs, in the order in which the keys are met. -/
def tally (keys : List κ) : List (κ × Nat) := keys.foldl countKey []

theorem keys_countKey (counts : List (κ × Nat)) (key : κ) :
    (countKey counts key).map (·.1) =
      if key ∈ counts.map (·.1) then counts.map (·.1) else counts.map (·.1) ++ [key] := by
  induction counts with
  | nil => rfl
  | cons e rest ih =>
      rw [countKey]
      by_cases h : e.1 = key
      · simp [h]
      · simp only [if_neg h, List.map_cons, ih, List.mem_cons, Ne.symm h, false_or]
        split <;> rfl

/-- The other keys keep their numbers, and this one has one more. -/
theorem mem_countKey_iff (hdistinct : (counts.map (·.1)).Nodup) :
    (k, n) ∈ countKey counts key ↔
      if k = key then ((∃ m, (k, m) ∈ counts ∧ n = m + 1) ∨ key ∉ counts.map (·.1) ∧ n = 1)
      else (k, n) ∈ counts := by
  induction counts with
  | nil => by_cases h : k = key <;> simp [countKey, h]
  | cons e rest ih =>
      obtain ⟨first, m⟩ := e
      rcases List.nodup_cons.mp hdistinct with ⟨hfresh, hrest⟩
      -- The key is not listed twice, so its number is here or further on, not both.
      have hlater : ∀ m', (first, m') ∉ rest := fun m' hm' =>
        hfresh (List.mem_map.mpr ⟨_, hm', rfl⟩)
      rw [countKey]
      by_cases hfirst : first = key
      · subst hfirst
        by_cases h : k = first
        · subst h
          simp [hlater]
        · simp [h]
      · rw [if_neg hfirst, List.mem_cons, ih hrest]
        by_cases h : k = key
        · subst h
          simp [Ne.symm hfirst]
        · simp [h]

/-- The entries list the keys that have been met, each with how often it has. -/
structure IsTally (met : List κ) (counts : List (κ × Nat)) : Prop where
  /-- No key is listed twice. -/
  distinct : (counts.map (·.1)).Nodup
  /-- Each number is how often its key has been met. -/
  counted : ∀ k n, (k, n) ∈ counts ↔ n = met.count k ∧ 0 < n

theorem IsTally.mem_keys_iff {met : List κ} (h : IsTally met counts) :
    key ∈ counts.map (·.1) ↔ 0 < met.count key := by
  rw [List.mem_map]
  constructor
  · rintro ⟨⟨_, n⟩, hn, rfl⟩
    rcases (h.counted _ n).mp hn with ⟨rfl, hpos⟩
    exact hpos
  · intro hpos
    exact ⟨(key, _), (h.counted _ _).mpr ⟨rfl, hpos⟩, rfl⟩

/-- Counting one more key keeps the entries right. -/
theorem IsTally.countKey {met : List κ} (h : IsTally met counts) (key : κ) :
    IsTally (met ++ [key]) (countKey counts key) where
  distinct := by
    rw [keys_countKey]
    split
    · exact h.distinct
    · next hnew =>
      refine List.nodup_append.mpr ⟨h.distinct, by simp, ?_⟩
      rintro k hk _ hkey rfl
      exact hnew (List.mem_singleton.mp hkey ▸ hk)
  counted k n := by
    rw [mem_countKey_iff h.distinct, List.count_append, List.count_singleton, h.mem_keys_iff]
    by_cases hkey : k = key
    · subst hkey
      simp only [if_true, h.counted, beq_self_eq_true]
      constructor
      · rintro (⟨m, ⟨rfl, _⟩, rfl⟩ | ⟨hnone, rfl⟩) <;> omega
      · rintro ⟨rfl, _⟩
        by_cases hpos : 0 < met.count k
        · exact .inl ⟨_, ⟨rfl, hpos⟩, rfl⟩
        · exact .inr ⟨hpos, by omega⟩
    · simp [hkey, Ne.symm hkey, h.counted]

theorem IsTally.foldl {met : List κ} (h : IsTally met counts) (keys : List κ) :
    IsTally (met ++ keys) (keys.foldl CyclePlan.countKey counts) := by
  induction keys generalizing met counts with
  | nil => simpa using h
  | cons key keys ih => simpa using ih (h.countKey key)

/-- A tally lists the keys that occur, each with how often it does. -/
theorem mem_tally_iff {keys : List κ} :
    (k, n) ∈ tally keys ↔ n = keys.count k ∧ 0 < n := by
  have hempty : IsTally ([] : List κ) [] := ⟨List.nodup_nil, by simp⟩
  exact (hempty.foldl keys).counted k n

/-- Numbers in a tally are bounded exactly if so often at most do keys occur. -/
theorem tally_le_iff {keys : List κ} {p : κ → Prop} {bound : Nat} :
    (∀ e ∈ tally keys, p e.1 → e.2 ≤ bound) ↔ ∀ k, p k → keys.count k ≤ bound := by
  constructor
  · intro h k hk
    rcases Nat.eq_zero_or_pos (keys.count k) with hzero | hpos
    · omega
    · exact h (k, keys.count k) (mem_tally_iff.mpr ⟨rfl, hpos⟩) hk
  · rintro h ⟨k, n⟩ he hk
    rw [(mem_tally_iff.mp he).1]
    exact h k hk

end

namespace NameMap

variable {m : NameMap Nat} {entries : List (String × Nat)} {name : String}

/-- Makes the number under a name at least as great as a given one. -/
def raise (m : NameMap Nat) (name : String) (n : Nat) : NameMap Nat :=
  m.insert name (max ((m.get? name).getD 0) n)

/-- The greatest of the numbers listed under each name. -/
def ofPeaks (entries : List (String × Nat)) : NameMap Nat :=
  entries.foldl (fun m e => m.raise e.1 e.2) empty

@[simp] theorem get?_raise (m : NameMap Nat) (name other : String) (n : Nat) :
    (m.raise name n).get? other =
      if name = other then some (max ((m.get? name).getD 0) n) else m.get? other :=
  get?_insert m name other _

theorem get?_foldl_raise_eq_none_iff :
    (entries.foldl (fun m e => m.raise e.1 e.2) m).get? name = none ↔
      m.get? name = none ∧ ∀ e ∈ entries, e.1 ≠ name := by
  induction entries generalizing m with
  | nil => simp
  | cons e entries ih =>
      rw [List.foldl_cons, ih, get?_raise, List.forall_mem_cons]
      by_cases h : e.1 = name <;> simp [h]

theorem getD_foldl_raise_le_iff {bound : Nat} :
    ((entries.foldl (fun m e => m.raise e.1 e.2) m).get? name).getD 0 ≤ bound ↔
      (m.get? name).getD 0 ≤ bound ∧ ∀ e ∈ entries, e.1 = name → e.2 ≤ bound := by
  induction entries generalizing m with
  | nil => simp
  | cons e entries ih =>
      rw [List.foldl_cons, ih, get?_raise, List.forall_mem_cons]
      by_cases h : e.1 = name
      · subst h
        rw [if_pos rfl, Option.getD_some, Nat.max_le, and_assoc, forall_prop_of_true rfl]
      · simp [h]

/-- A name has no greatest number exactly if nothing is listed under it. -/
theorem get?_ofPeaks_eq_none_iff :
    (ofPeaks entries).get? name = none ↔ ∀ e ∈ entries, e.1 ≠ name := by
  simp [ofPeaks, get?_foldl_raise_eq_none_iff]

/-- The greatest number under a name is within a bound exactly if all of them are. -/
theorem getD_ofPeaks_le_iff {bound : Nat} :
    ((ofPeaks entries).get? name).getD 0 ≤ bound ↔
      ∀ e ∈ entries, e.1 = name → e.2 ≤ bound := by
  simp [ofPeaks, getD_foldl_raise_le_iff]

end NameMap

end CyclePlan
