/-!
# Maps by name

Finite maps from names to values, listed in the order of the names.

Start cycles, capacities, sink bounds and counts are all keyed by name, and
everything written from them lists the names in ascending order of their
characters. The map keeps its entries in that order, so that reading it off is
the identity, and inserting a name again replaces its value. The order is part
of the type, so no name is listed twice.

## Main definitions

* `NameMap`: The entries, in ascending order of their names.
* `NameMap.get?`: The value under a name.
* `NameMap.insert`: Adds a name or replaces its value.
* `NameMap.ofList`: Inserts entries one after the other.

## Theorems

* `NameMap.place_ascending`: Placing an entry keeps the order.
* `NameMap.get?_insert`: What an insertion changes.
* `NameMap.get?_eq_some_iff`: Entries are found under their names.
-/

namespace CyclePlan

/-- A finite map whose entries are listed by name. -/
structure NameMap (β : Type) where
  /-- The entries, in ascending order of their names. -/
  entries : List (String × β) := []
  /-- Every name comes before those that are listed after it. -/
  ascending : entries.Pairwise fun a b => a.1 < b.1 := by exact List.Pairwise.nil
  deriving DecidableEq, Repr

namespace NameMap

variable {β γ : Type}

instance : Inhabited (NameMap β) := ⟨{}⟩

/-- The map without entries. -/
def empty : NameMap β := {}

/-- The value under a name in a list of entries. -/
def find? (name : String) : List (String × β) → Option β
  | [] => none
  | (key, value) :: rest => if key = name then some value else find? name rest

/-- The value under a name. -/
def get? (m : NameMap β) (name : String) : Option β := find? name m.entries

/-- Puts an entry before the first greater name, in place of an equal one. -/
def place (name : String) (value : β) : List (String × β) → List (String × β)
  | [] => [(name, value)]
  | (key, old) :: rest =>
    if key = name then (name, value) :: rest
    else if name < key then (name, value) :: (key, old) :: rest
    else (key, old) :: place name value rest

theorem mem_place {name : String} {value : β} {entries : List (String × β)} {e : String × β}
    (h : e ∈ place name value entries) : e = (name, value) ∨ e ∈ entries := by
  induction entries with
  | nil => simpa [place] using h
  | cons entry rest ih =>
      simp only [place] at h
      split at h
      · rcases List.mem_cons.mp h with he | he
        · exact Or.inl he
        · exact Or.inr (List.mem_cons_of_mem _ he)
      · split at h
        · exact List.mem_cons.mp h
        · rcases List.mem_cons.mp h with he | he
          · exact Or.inr (he ▸ List.mem_cons_self)
          · exact (ih he).imp_right (List.mem_cons_of_mem _)

/-- Placing an entry keeps the order of the names. -/
theorem place_ascending (name : String) (value : β) {entries : List (String × β)}
    (h : entries.Pairwise fun a b => a.1 < b.1) :
    (place name value entries).Pairwise fun a b => a.1 < b.1 := by
  induction entries with
  | nil => exact List.pairwise_singleton _ _
  | cons entry rest ih =>
      obtain ⟨hfirst, hrest⟩ := List.pairwise_cons.mp h
      simp only [place]
      split
      · next heq => exact List.pairwise_cons.mpr ⟨fun e he => heq ▸ hfirst e he, hrest⟩
      · next hne =>
        split
        · next hlt =>
          refine List.pairwise_cons.mpr ⟨fun e he => ?_, h⟩
          rcases List.mem_cons.mp he with rfl | he
          · exact hlt
          · exact String.lt_trans hlt (hfirst e he)
        · next hnlt =>
          -- The name comes later, so it is after the first one.
          have hle : entry.1 ≤ name := String.not_lt.mp hnlt
          have hlt : entry.1 < name := Std.lt_of_le_of_ne hle hne
          refine List.pairwise_cons.mpr ⟨fun e he => ?_, ih hrest⟩
          rcases mem_place he with rfl | he
          · exact hlt
          · exact hfirst e he

/-- Adds a name or replaces its value. -/
def insert (m : NameMap β) (name : String) (value : β) : NameMap β :=
  ⟨place name value m.entries, place_ascending name value m.ascending⟩

/-- Inserts entries one after the other, so that of a repeated name the last
    value stays. -/
def ofList (entries : List (String × β)) : NameMap β :=
  entries.foldl (fun m e => m.insert e.1 e.2) empty

/-- The number of names. -/
def size (m : NameMap β) : Nat := m.entries.length

/-- Whether there are no names. -/
def isEmpty (m : NameMap β) : Bool := m.entries.isEmpty

/-- The values, in the order of their names. -/
def values (m : NameMap β) : List β := m.entries.map (·.2)

/-- Another value under every name. -/
def map (f : β → γ) (m : NameMap β) : NameMap γ :=
  ⟨m.entries.map fun e => (e.1, f e.2), List.pairwise_map.mpr m.ascending⟩

theorem find?_place (name other : String) (value : β) (entries : List (String × β)) :
    find? other (place name value entries) =
      if name = other then some value else find? other entries := by
  induction entries with
  | nil => simp [place, find?]
  | cons e rest ih =>
    obtain ⟨key, old⟩ := e
    simp only [place]
    split
    · next h => subst h; by_cases h' : key = other <;> simp [find?, h']
    · split
      · simp [find?]
      · next h _ =>
        simp only [find?, ih]
        by_cases h' : key = other
        · subst h'; simp [Ne.symm h]
        · simp [h']

/-- An insertion changes the value under its own name and nothing else. -/
@[simp] theorem get?_insert (m : NameMap β) (name other : String) (value : β) :
    (m.insert name value).get? other = if name = other then some value else m.get? other :=
  find?_place name other value m.entries

@[simp] theorem get?_empty (name : String) : (empty : NameMap β).get? name = none := rfl

theorem find?_eq_some_iff {entries : List (String × β)}
    (h : entries.Pairwise fun a b => a.1 < b.1) {name : String} {value : β} :
    find? name entries = some value ↔ (name, value) ∈ entries := by
  induction entries with
  | nil => simp [find?]
  | cons entry rest ih =>
      rcases List.pairwise_cons.mp h with ⟨hfirst, hrest⟩
      rw [find?, List.mem_cons, ← ih hrest]
      split
      · next heq =>
        -- The names that follow are greater, so none of them is this one.
        have hlater : find? name rest ≠ some value := by
          rw [ne_eq, ih hrest]
          intro hmem
          have hlt := hfirst (name, value) hmem
          rw [heq] at hlt
          exact String.lt_irrefl name hlt
        constructor
        · intro hvalue
          exact Or.inl (Prod.ext heq.symm (Option.some.inj hvalue).symm)
        · rintro (rfl | hvalue)
          · rfl
          · exact absurd hvalue hlater
      · next hne =>
        constructor
        · exact Or.inr
        · rintro (rfl | hvalue)
          · exact absurd rfl hne
          · exact hvalue

/-- Every entry is found under its name. -/
theorem get?_eq_some_iff {m : NameMap β} {name : String} {value : β} :
    m.get? name = some value ↔ (name, value) ∈ m.entries := find?_eq_some_iff m.ascending

end NameMap

end CyclePlan
