import CyclePlan.Config

/-!
# Reading Back Shapes

What is written by shape is read by shape.

Writing a value and reading it again gives the value, provided that it lies in the range of
what can be read: integers of sixty-four bits, and raw values that list the members of their
objects in ascending order and are not nested too deeply. A map is written in the order of its
names, so reading it inserts every name behind those that are there.

A structure is written with all of its fields. If some of them are taken out of the object,
then a field that has a default takes it, and nothing else changes
(`Record.default?_without`). A field that has no default is missed
(`Record.required?_without`).

## Main definitions

* `Json.isSorted`: Every object lists its members by name.
* `Json.dropMembers`, `Record.without`: Without some of the members.

## Theorems

* `NameMap.ofList_entries`: A map is made again from its entries.
* `Json.toMap?_ofMap`, `RunConfig.rawValue?_eq_self`: Maps and raw values are read back.
* `Record.ofJson?_dropMembers`, `Record.default?_without`, `Record.required?_without`:
  Structures with fields left out.
-/

namespace CyclePlan

/-! ### Maps -/

namespace NameMap

variable {β : Type}

/-- A name behind all others is put at the end. -/
theorem place_of_forall_lt {entries : List (String × β)} {name : String} (value : β)
    (h : ∀ e ∈ entries, e.1 < name) : place name value entries = entries ++ [(name, value)] := by
  induction entries with
  | nil => rfl
  | cons e rest ih =>
      rw [List.forall_mem_cons] at h
      have hne : e.1 ≠ name := fun heq => String.lt_irrefl name (heq ▸ h.1)
      have hnot : ¬ name < e.1 := fun hlt => String.lt_irrefl name (String.lt_trans hlt h.1)
      rw [place, if_neg hne, if_neg hnot, ih h.2, List.cons_append]

theorem entries_foldl_insert {entries : List (String × β)} {m : NameMap β}
    (h : (m.entries ++ entries).Pairwise fun a b => a.1 < b.1) :
    (entries.foldl (fun m e => m.insert e.1 e.2) m).entries = m.entries ++ entries := by
  induction entries generalizing m with
  | nil => rw [List.foldl_nil, List.append_nil]
  | cons e rest ih =>
      have hlast : (m.insert e.1 e.2).entries = m.entries ++ [e] :=
        place_of_forall_lt e.2 fun e' he' =>
          (List.pairwise_append.mp h).2.2 e' he' e List.mem_cons_self
      rw [List.foldl_cons, ih, hlast, List.append_assoc, List.singleton_append]
      rw [hlast, List.append_assoc, List.singleton_append]
      exact h

theorem entries_ofList {entries : List (String × β)}
    (h : entries.Pairwise fun a b => a.1 < b.1) : (ofList entries).entries = entries :=
  entries_foldl_insert h

/-- A map is made again from its entries. -/
theorem ofList_entries (m : NameMap β) : ofList m.entries = m := by
  have h := entries_ofList m.ascending
  rcases m with ⟨entries, _⟩
  rcases hm : ofList entries with ⟨entries', _⟩
  rw [hm] at h
  cases h
  rfl

end NameMap

namespace Json

variable {β : Type}

theorem mapM_entries {read : Json → Option β} {write : β → Json} {entries : List (String × β)}
    (h : ∀ e ∈ entries, read (write e.2) = some e.2) :
    (entries.map fun e => (e.1, write e.2)).mapM (fun m => (read m.2).map (m.1, ·)) =
      some entries := by
  induction entries with
  | nil => rfl
  | cons e rest ih =>
      rw [List.forall_mem_cons] at h
      rw [List.map_cons, List.mapM_cons, ih h.2, h.1]
      rfl

/-- A map whose values are read back is read back itself. -/
theorem toMap?_ofMap {read : Json → Option β} {write : β → Json} {m : NameMap β}
    (h : ∀ e ∈ m.entries, read (write e.2) = some e.2) : toMap? read (ofMap write m) = some m := by
  rw [ofMap, toMap?, mapM_entries h]
  exact congrArg some m.ofList_entries

/-! ### Plain values -/

theorem toSigned?_int {n : Int} :
    (Json.int n).toSigned? = some n ↔ Int64.minValue.toInt ≤ n ∧ n ≤ Int64.maxValue.toInt := by
  rw [toSigned?, toInt?]
  split <;> simp_all

theorem toCount?_ofNat {n : Nat} (h : n < UInt64.size) : (ofNat n).toCount? = some n := by
  have hrange : (0 : Int) ≤ n ∧ (n : Int) ≤ UInt64.size - 1 := by omega
  rw [ofNat, toCount?, toInt?, if_pos hrange, Option.map_some, Int.toNat_natCast]

/-! ### Raw values -/

mutual

/-- Whether every object lists its members in ascending order of their names. -/
def isSorted : Json → Bool
  | .arr items => areSorted items
  | .obj members =>
    decide (members.Pairwise fun a b => a.1 < b.1) && areSortedMembers members
  | _ => true

/-- Whether all of the values are sorted. -/
def areSorted : List Json → Bool
  | [] => true
  | j :: rest => isSorted j && areSorted rest

/-- Whether all of the members are sorted. -/
def areSortedMembers : List (String × Json) → Bool
  | [] => true
  | (_, j) :: rest => isSorted j && areSortedMembers rest

end

end Json

namespace RunConfig

mutual

/-- Sorting changes nothing in a sorted value. -/
theorem sortMembers_eq_self : ∀ {j : Json}, j.isSorted = true → rawValue?.sortMembers j = j
  | .arr items, h => by
    rw [Json.isSorted] at h
    rw [rawValue?.sortMembers, sortItems_eq_self h]
  | .obj members, h => by
    rw [Json.isSorted, Bool.and_eq_true, decide_eq_true_iff] at h
    rw [rawValue?.sortMembers, sortEach_eq_self h.2, NameMap.entries_ofList h.1]
  | .null, _ => rfl
  | .bool _, _ => rfl
  | .int _, _ => rfl
  | .float _, _ => rfl
  | .str _, _ => rfl
  | .unreadable, _ => rfl

theorem sortItems_eq_self : ∀ {items : List Json}, Json.areSorted items = true →
    rawValue?.sortItems items = items
  | [], _ => rfl
  | j :: rest, h => by
    rw [Json.areSorted, Bool.and_eq_true] at h
    rw [rawValue?.sortItems, sortMembers_eq_self h.1, sortItems_eq_self h.2]

theorem sortEach_eq_self : ∀ {members : List (String × Json)},
    Json.areSortedMembers members = true → rawValue?.sortEach members = members
  | [], _ => rfl
  | (name, j) :: rest, h => by
    rw [Json.areSortedMembers, Bool.and_eq_true] at h
    rw [rawValue?.sortEach, sortMembers_eq_self h.1, sortEach_eq_self h.2]

end

/-- A raw value is taken as it is if it is sorted and not nested too deeply. -/
theorem rawValue?_eq_self {j : Json} (hreadable : j.isReadable = true) (hsorted : j.isSorted = true)
    (hdepth : j.depth + 2 ≤ maxDepth) : rawValue? j = some j := by
  rw [rawValue?, if_pos ⟨hreadable, hdepth⟩, sortMembers_eq_self hsorted]

end RunConfig

/-! ### Structures -/

/-- An object without the members of some names. -/
def Json.dropMembers (gone : List String) : Json → Json
  | .obj members => .obj (members.filter fun m => !gone.contains m.1)
  | j => j

theorem NameMap.find?_filter {β : Type} (gone : List String) (name : String)
    (entries : List (String × β)) :
    find? name (entries.filter fun e => !gone.contains e.1) =
      if name ∈ gone then none else find? name entries := by
  induction entries with
  | nil => simp [find?]
  | cons e rest ih =>
      by_cases hgone : e.1 ∈ gone
      · rw [List.filter_cons_of_neg (by simpa using hgone), ih, find?]
        by_cases hname : e.1 = name
        · subst hname
          simp [hgone]
        · simp [hname]
      · rw [List.filter_cons_of_pos (by simpa using hgone), find?, find?, ih]
        by_cases hname : e.1 = name
        · subst hname
          simp [hgone]
        · simp [hname]

namespace Record

variable {β : Type} {members : List (String × Json)} {names gone : List String} {name : String}
  {j : Json}

/-- The fields of a structure that are left when some are taken out. -/
def without (members : List (String × Json)) (gone : List String) : Record :=
  ⟨false, members.filter fun m => !gone.contains m.1⟩

/-- A structure is read with the fields that are left. -/
theorem ofJson?_dropMembers (hnodup : names.Nodup) (hnames : members.map (·.1) = names)
    (gone : List String) :
    ofJson? names ((Json.obj members).dropMembers gone) = some (without members gone) := by
  have hknown : (members.filter fun m => !gone.contains m.1).filter
      (fun m => names.contains m.1) = members.filter fun m => !gone.contains m.1 := by
    refine List.filter_eq_self.mpr fun m hm => ?_
    rw [← hnames, List.contains_iff_mem]
    exact List.mem_map_of_mem (List.mem_filter.mp hm).1
  have hdistinct : ((members.filter fun m => !gone.contains m.1).map (·.1)).Nodup := by
    rw [← hnames] at hnodup
    exact (List.filter_sublist.map _).nodup hnodup
  rw [Json.dropMembers, ofJson?]
  simp only [hknown]
  rw [if_pos hdistinct, without]

/-- A field that has a default takes it if it is taken out. -/
theorem default?_without (hj : NameMap.find? name members = some j) (read : Json → Option β)
    (default : β) :
    (without members gone).default? name read default =
      if name ∈ gone then some default else read j := by
  rw [default?, field?, without, NameMap.find?_filter, hj]
  by_cases hgone : name ∈ gone <;> simp [hgone]

theorem default?_of_read (hj : NameMap.find? name members = some j) {read : Json → Option β}
    {value : β} (hread : read j = some value) (default : β) :
    (without members gone).default? name read default =
      some (if name ∈ gone then default else value) := by
  rw [default?_without hj, hread, apply_ite some]

/-- A field that has none is missed. -/
theorem required?_without (hj : NameMap.find? name members = some j) (read : Json → Option β) :
    (without members gone).required? name read = if name ∈ gone then none else read j := by
  rw [required?, field?, without, NameMap.find?_filter, hj]
  by_cases hgone : name ∈ gone <;> simp [hgone]

end Record

end CyclePlan
