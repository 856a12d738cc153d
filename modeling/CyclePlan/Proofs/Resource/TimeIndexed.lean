import CyclePlan.Proofs.Pinning
import CyclePlan.Proofs.Resource.Activation

/-!
# The Formulation by Cycle

What the trial adds that spells out start cycles, and when it is accepted.

The trial is four loops deep: over blocks, limited classes, nodes and cycles. Only
what a round adds is of interest, so every level is described by the variables and
rows it adds (`Trial.Appends`), and a loop adds what its rounds do, one after the
other (`forM_appends`). The whole trial then has its lists, and what these ask for is
read off level by level: every node of a limited class starts within the horizon of
its block, and in no block, class and cycle more nodes start than the capacity
allows (`View.formulation_iff`).

A round is refused only if one of its names is taken or a number is not finite. The
activations of all rounds are different, so if no name is taken before the first
round, none is taken by another round.

## Main definitions

* `View.issues`, `View.IssuesWithin`: How many nodes start in a cycle, and that
  capacities suffice.
* `View.unitActivations`, `View.unitRows`, `View.formulationVars`,
  `View.formulationRows`: What is added.
* `Trial.Appends`: A trial has added variables and rows.
* `View.formulationRoles`: What the variables stand for.

## Theorems

* `blockHorizons_of_ok`, `exists_blockHorizons`: The horizons of the blocks.
* `perform_addTimeIndexed_ok`: What an accepted formulation adds.
* `View.formulation_iff`: What it asks for.
* `View.formulationRoles_nodup`: No two of them stand for the same.
* `exists_addTimeIndexed_of_isFinite`, `exists_addTimeIndexed`: When it is accepted.
-/

namespace CyclePlan

variable {α : Type}

/-! ### Blocks, classes and horizons -/

namespace View

theorem mem_blocks_iff {v : View α} {block : Nat} :
    block ∈ v.blocks ↔ ∃ n ∈ v.nodes, n.block = block := by
  rw [blocks, ascending, List.mem_mergeSort, List.mem_eraseDups, List.mem_map]

theorem blocks_nodup (v : View α) : v.blocks.Nodup :=
  (List.mergeSort_perm _ _).nodup_iff.mpr (nodup_eraseDups _)

theorem mem_unitNodes_iff {v : View α} {block : Nat} {unit name : String} :
    name ∈ v.unitNodes block unit ↔
      ∃ n ∈ v.nodes, n.name = name ∧ n.block = block ∧ n.kind.unit? = some unit := by
  rw [unitNodes, List.mem_map]
  refine exists_congr fun n => ?_
  rw [List.mem_filter, Bool.and_eq_true, beq_iff_eq, beq_iff_eq]
  exact ⟨fun h => ⟨h.1.1, h.2, h.1.2⟩, fun h => ⟨⟨h.1, h.2.2⟩, h.2.1⟩⟩

theorem unitNodes_nodup {v : View α} (hnames : (v.nodes.map (·.name)).Nodup) (block : Nat)
    (unit : String) : (v.unitNodes block unit).Nodup :=
  (List.filter_sublist.map _).nodup hnames

/-- The number of operations of a class and block that start in a cycle. -/
def issues (v : View Rat) (y : String → Rat) (block : Nat) (unit : String) (cycle : Int) : Nat :=
  v.nodes.countP fun n =>
    n.block == block && n.kind.unit? == some unit && y (startVar n.name) == cycle

/-- In every block and cycle, no more operations of a limited class start than there
    are units. -/
def IssuesWithin (v : View Rat) (limits : Limits) (y : String → Rat) : Prop :=
  ∀ block unit capacity, limits.capacity? unit = some capacity →
    ∀ cycle, v.issues y block unit cycle ≤ capacity

theorem countP_unitNodes (v : View Rat) (y : String → Rat) (block : Nat) (unit : String) (t : Nat) :
    (v.unitNodes block unit).countP (fun n => y (startVar n) == t) = v.issues y block unit t := by
  rw [unitNodes, List.countP_map, List.countP_filter, issues]
  refine List.countP_congr fun n _ => ?_
  rw [Function.comp, Bool.and_comm, Int.cast_natCast]

/-- Only start cycles count. -/
theorem issues_congr {v : View Rat} {y z : String → Rat} {block : Nat} {unit : String}
    (h : ∀ n ∈ v.nodes, n.kind.unit? = some unit → y (startVar n.name) = z (startVar n.name))
    (cycle : Int) : v.issues y block unit cycle = v.issues z block unit cycle := by
  refine List.countP_congr fun n hn => ?_
  rw [Bool.and_eq_true, Bool.and_eq_true, Bool.and_eq_true, Bool.and_eq_true]
  refine and_congr_right fun hclass => ?_
  rw [h n hn (beq_iff_eq.mp hclass.2)]

end View

section

variable [Scalar α] {h : Handle α} {limits : Limits} {explicit : Option Int}

/-- The horizon of a block before it is cut off at zero. -/
def rawHorizon (h : Handle α) (limits : Limits) (explicit : Option Int) (block : Nat) :
    Except (SchedulingError α) Int :=
  match explicit with
  | some horizon => .ok horizon
  | none => derivedHorizon h limits block

theorem blockHorizons_eq :
    blockHorizons h limits explicit = h.view.blocks.mapM fun b =>
      (rawHorizon h limits explicit b).map fun k => (b, k.toNat) := by
  rw [blockHorizons]
  congr 1
  funext b
  cases explicit with
  | some horizon => rfl
  | none =>
      change (derivedHorizon h limits b >>= fun k => pure (b, k.toNat)) = _
      rw [rawHorizon]
      cases derivedHorizon h limits b <;> rfl

theorem blockHorizons_of_ok (horizon : Nat → Int)
    (hall : ∀ b ∈ h.view.blocks, rawHorizon h limits explicit b = .ok (horizon b)) :
    blockHorizons h limits explicit
      = .ok (h.view.blocks.map fun b => (b, (horizon b).toNat)) := by
  rw [blockHorizons_eq]
  refine mapM_ok_iff.mpr ⟨fun b => (b, (horizon b).toNat), fun b hb => ?_, rfl⟩
  rw [hall b hb]
  rfl

/-- Horizons that are found are found block by block. -/
theorem exists_blockHorizons {hs : List (Nat × Nat)}
    (hrun : blockHorizons h limits explicit = .ok hs) :
    ∃ horizon : Nat → Nat, hs = h.view.blocks.map fun b => (b, horizon b) := by
  rw [blockHorizons_eq] at hrun
  rcases mapM_ok_iff.mp hrun with ⟨c, hall, rfl⟩
  refine ⟨fun b => (c b).2, List.map_congr_left fun b hb => ?_⟩
  have hb := hall b hb
  cases hraw : rawHorizon h limits explicit b with
  | error e =>
      rw [hraw] at hb
      cases hb
  | ok k =>
      rw [hraw] at hb
      have heq : (b, k.toNat) = c b := Except.ok.inj hb
      simp only [← heq]

end

/-! ### What is added -/

namespace View

/-- The activations of a class in a block. -/
def unitActivations (v : View α) (block horizon : Nat) (unit : String) : List (Variable Rat) :=
  (v.unitNodes block unit).flatMap (activations horizon)

/-- The rows of a class in a block. -/
def unitRows (v : View α) (block horizon : Nat) (unit : String) (capacity : Nat) : List Row :=
  if (v.unitNodes block unit).isEmpty then []
  else
    ((v.unitNodes block unit).flatMap fun n => [Row.once horizon n, Row.link horizon n]) ++
      (List.range (horizon + 1)).map (Row.share (v.unitNodes block unit) capacity)

/-- The variables of the formulation. -/
def formulationVars (v : View α) (limits : Limits) (hs : List (Nat × Nat)) : List (Variable Rat) :=
  hs.flatMap fun b => limits.toList.flatMap fun e => v.unitActivations b.1 b.2 e.1

/-- The rows of the formulation. -/
def formulationRows (v : View α) (limits : Limits) (hs : List (Nat × Nat)) : List Row :=
  hs.flatMap fun b => limits.toList.flatMap fun e => v.unitRows b.1 b.2 e.1 e.2

end View

/-- A trial has added variables and rows. -/
structure Trial.Appends (t t' : Trial Rat) (vars : List (Variable Rat)) (rows : List Row) :
    Prop where
  handle : t'.handle = { t.handle with model := t'.handle.model }
  model : t.handle.model.Appends t'.handle.model vars rows

namespace Trial.Appends

variable {t t' t'' : Trial Rat} {vars vars' : List (Variable Rat)} {rows rows' : List Row}

theorem refl (t : Trial Rat) : t.Appends t [] [] := ⟨rfl, Model.Appends.refl _⟩

theorem trans (h : t.Appends t' vars rows) (h' : t'.Appends t'' vars' rows') :
    t.Appends t'' (vars ++ vars') (rows ++ rows') := by
  refine ⟨?_, h.model.trans h'.model⟩
  rw [h'.handle, h.handle]

theorem view (h : t.Appends t' vars rows) : t'.handle.view = t.handle.view := by rw [h.handle]

theorem constrain {r : Row} {u : Unit}
    (h : perform (TrialM.constrain r.terms r.relation r.rhs) t = (.ok u, t')) :
    t.Appends t' [] [r] := by
  rcases perform_constrain_ok_iff.mp h with ⟨hr, rfl⟩
  exact ⟨rfl, Model.Appends.withRow hr⟩

end Trial.Appends

section

variable {t t' : Trial Rat} {v : View Rat} {limits : Limits} {block horizon capacity : Nat}
  {unit node : String}

/-- A loop adds what its rounds add. -/
theorem forM_appends {β : Type} {f : β → TrialM Rat PUnit} (vars : β → List (Variable Rat))
    (rows : β → List Row)
    (hround : ∀ b t t', t.handle.view = v → perform (f b) t = (.ok ⟨⟩, t') →
      t.Appends t' (vars b) (rows b))
    {bs : List β} (hview : t.handle.view = v) (h : perform (bs.forM f) t = (.ok ⟨⟩, t')) :
    t.Appends t' (bs.flatMap vars) (bs.flatMap rows) := by
  induction bs generalizing t with
  | nil =>
      cases h
      exact Trial.Appends.refl _
  | cons b bs ih =>
      rcases perform_forM_cons_ok_iff.mp h with ⟨t₁, hfirst, hrest⟩
      have hstep := hround b t t₁ hview hfirst
      rw [List.flatMap_cons, List.flatMap_cons]
      exact hstep.trans (ih (hstep.view.trans hview) hrest)

theorem declare_appends {cycle : Nat} {u : PUnit}
    (h : perform (do
        let _ ← TrialM.onModel (Model.addVariable (startsAtVar node cycle) none none .binary) :
      TrialM Rat PUnit) t = (.ok u, t')) :
    t.Appends t' [activation node cycle] [] := by
  rcases perform_bind_ok_iff.mp h with ⟨id, t₁, hadd, hrest⟩
  cases hrest
  rcases perform_onModel_ok_iff.mp hadd with ⟨m, hm, rfl⟩
  rcases Model.perform_addBinary_ok_iff.mp hm with ⟨_, fresh, rfl⟩
  exact ⟨rfl, Model.Appends.withVariable t.handle.model (activation node cycle) fresh⟩

theorem addActivations_appends {u : Unit}
    (h : perform (addActivations horizon node) t = (.ok u, t')) :
    t.Appends t' (activations horizon node) [Row.once horizon node, Row.link horizon node] := by
  rcases perform_bind_ok_iff.mp h with ⟨_, t₁, hvars, hrest⟩
  rcases perform_bind_ok_iff.mp hrest with ⟨_, t₂, honce, hlink⟩
  have hdeclared := forM_appends (v := t.handle.view) (fun c => [activation node c])
    (fun _ => []) (fun c t t' _ hc => declare_appends hc) rfl hvars
  rw [← List.map_eq_flatMap, List.flatMap_eq_nil_iff.mpr fun _ _ => rfl] at hdeclared
  have hrows := (Trial.Appends.constrain (r := Row.once horizon node) honce).trans
    (Trial.Appends.constrain (r := Row.link horizon node) hlink)
  have hall := hdeclared.trans hrows
  rwa [List.nil_append, List.append_nil] at hall

theorem addUnitCycles_appends {u : Unit} (hview : t.handle.view = v)
    (h : perform (addUnitCycles block horizon unit capacity) t = (.ok u, t')) :
    t.Appends t' (v.unitActivations block horizon unit)
      (v.unitRows block horizon unit capacity) := by
  rw [addUnitCycles, perform_bind_of_ok (perform_get t)] at h
  simp only [hview] at h
  rw [View.unitActivations, View.unitRows]
  split at h
  · next hempty =>
    cases h
    rw [if_pos hempty, List.isEmpty_iff.mp hempty]
    exact Trial.Appends.refl t
  · next hsome =>
    rcases perform_bind_ok_iff.mp h with ⟨_, t₁, hnodes, hcycles⟩
    have hfirst := forM_appends _ _ (fun n t t' _ hn => addActivations_appends hn) hview hnodes
    have hsecond := forM_appends (fun _ => [])
      (fun c => [Row.share (v.unitNodes block unit) capacity c])
      (fun c t t' _ hc => Trial.Appends.constrain
        (r := Row.share (v.unitNodes block unit) capacity c) hc) (hfirst.view.trans hview) hcycles
    rw [List.flatMap_eq_nil_iff.mpr fun _ _ => rfl, ← List.map_eq_flatMap] at hsecond
    have hall := hfirst.trans hsecond
    rw [List.append_nil] at hall
    rwa [if_neg hsome]

/-- An accepted formulation has added its variables and rows. -/
theorem perform_addTimeIndexed_ok {explicit : Option Int} {ids : List Nat} {h h' : Handle Rat}
    (hrun : perform (addTimeIndexed limits explicit) h = (.ok ids, h')) :
    ∃ hs, blockHorizons h limits explicit = .ok hs ∧ h' = { h with model := h'.model } ∧
      h.model.Appends h'.model (h.view.formulationVars limits hs)
        (h.view.formulationRows limits hs) := by
  rw [addTimeIndexed, perform_bind_of_ok (perform_get h)] at hrun
  split at hrun
  · cases hrun
  · next hs hhorizons =>
    rcases perform_bind_ok_iff.mp hrun with ⟨⟨_, added⟩, h₁, hattempt, hanswer⟩
    cases hanswer
    rcases perform_attempt_ok_iff.mp hattempt with ⟨t, hbuild, rfl, rfl⟩
    have hgrown := forM_appends (v := h.view) _ _
      (fun b t t' hview hb => forM_appends _ _
        (fun e t t' hview he => addUnitCycles_appends hview he) hview hb) rfl hbuild
    exact ⟨hs, hhorizons, hgrown.handle, hgrown.model⟩

end

/-! ### What it asks for -/

namespace View

variable {v : View Rat} {limits : Limits} {block horizon capacity : Nat} {unit : String}
  {y : String → Rat}

/-- The activations and rows of a class in a block spell out start cycles, and bound
    how many of them are the same. -/
theorem unit_iff :
    ((∀ w ∈ v.unitActivations block horizon unit, w.Admits (y w.name) ∧ ∃ k : Int, y w.name = k) ∧
        ∀ r ∈ v.unitRows block horizon unit capacity, r.Holds y) ↔
      (∀ n ∈ v.unitNodes block unit, StartsWithin horizon n y) ∧
        ∀ t ≤ horizon, v.issues y block unit t ≤ capacity := by
  by_cases hempty : (v.unitNodes block unit).isEmpty
  · -- Without nodes nothing is added, and nothing starts.
    have hnil := List.isEmpty_iff.mp hempty
    have hnone : ∀ t : Nat, v.issues y block unit t = 0 := by
      intro t
      rw [← countP_unitNodes, hnil, List.countP_nil]
    simp only [unitActivations, unitRows, hnil, List.isEmpty_nil, if_true, List.flatMap_nil,
      List.not_mem_nil, false_implies, implies_true, true_and, hnone, Nat.zero_le]
  · rw [unitActivations, unitRows, if_neg hempty, List.forall_mem_flatMap, List.forall_mem_append,
      List.forall_mem_flatMap, List.forall_mem_map, ← and_assoc, ← forall₂_and]
    have hnodes : (∀ n ∈ v.unitNodes block unit,
        (∀ w ∈ activations horizon n, w.Admits (y w.name) ∧ ∃ k : Int, y w.name = k) ∧
          ∀ r ∈ [Row.once horizon n, Row.link horizon n], r.Holds y) ↔
        ∀ n ∈ v.unitNodes block unit, StartsWithin horizon n y := by
      refine forall₂_congr fun n _ => ?_
      rw [← activations_iff, List.forall_mem_cons, List.forall_mem_singleton]
    rw [hnodes]
    refine and_congr_right fun hstarts => forall_congr' fun t => ?_
    rw [List.mem_range, Nat.lt_succ_iff]
    refine imp_congr_right fun ht => ?_
    rw [share_holds_iff hstarts ht, countP_unitNodes]

theorem formulation_iff_units {hs : List (Nat × Nat)} :
    ((∀ w ∈ v.formulationVars limits hs, w.Admits (y w.name) ∧ ∃ k : Int, y w.name = k) ∧
        ∀ r ∈ v.formulationRows limits hs, r.Holds y) ↔
      ∀ b ∈ hs, ∀ e ∈ limits.toList, (∀ n ∈ v.unitNodes b.1 e.1, StartsWithin b.2 n y) ∧
        ∀ t ≤ b.2, v.issues y b.1 e.1 t ≤ e.2 := by
  simp only [formulationVars, formulationRows, List.forall_mem_flatMap, ← forall₂_and, unit_iff]

/-- Nothing starts outside the blocks, and nothing outside the horizon. -/
theorem issues_eq_zero (horizon : Nat → Nat) {cycle : Int}
    (hstarts : ∀ n ∈ v.nodes, n.kind.unit? = some unit → StartsWithin (horizon n.block) n.name y)
    (hout : block ∈ v.blocks → ∀ t : Nat, t ≤ horizon block → cycle ≠ t) :
    v.issues y block unit cycle = 0 := by
  rw [issues, List.countP_eq_zero]
  intro n hn
  simp only [Bool.and_eq_true, beq_iff_eq]
  rintro ⟨⟨rfl, hunit⟩, hcycle⟩
  rcases (hstarts n hn hunit).start with ⟨t, ht, hstart⟩
  rw [hstart] at hcycle
  exact hout (mem_blocks_iff.mpr ⟨n, hn, rfl⟩) t ht (by exact_mod_cast hcycle.symm)

/-- The formulation asks every node of a limited class to start within the horizon of
    its block, and keeps to the capacities. -/
theorem formulation_iff {horizon : Nat → Nat} :
    ((∀ w ∈ v.formulationVars limits (v.blocks.map fun b => (b, horizon b)),
          w.Admits (y w.name) ∧ ∃ k : Int, y w.name = k) ∧
        ∀ r ∈ v.formulationRows limits (v.blocks.map fun b => (b, horizon b)), r.Holds y) ↔
      (∀ n ∈ v.nodes, (limits.capacityOf? n.kind).isSome = true →
          StartsWithin (horizon n.block) n.name y) ∧ v.IssuesWithin limits y := by
  rw [formulation_iff_units, List.forall_mem_map]
  constructor
  · intro h
    have hstarts : ∀ n ∈ v.nodes, (limits.capacityOf? n.kind).isSome = true →
        StartsWithin (horizon n.block) n.name y := by
      intro n hn hlimited
      rcases Limits.capacityOf?_isSome_iff.mp hlimited with ⟨e, he, hunit⟩
      exact (h n.block (mem_blocks_iff.mpr ⟨n, hn, rfl⟩) e he).1 n.name
        (mem_unitNodes_iff.mpr ⟨n, hn, rfl, rfl, hunit⟩)
    refine ⟨hstarts, fun block unit capacity hcapacity cycle => ?_⟩
    have hmem := NameMap.get?_eq_some_iff.mp hcapacity
    by_cases hin : block ∈ v.blocks ∧ ∃ t : Nat, t ≤ horizon block ∧ cycle = t
    · rcases hin with ⟨hblock, t, ht, rfl⟩
      exact (h block hblock (unit, capacity) hmem).2 t ht
    · -- The other cycles have no row, but nothing starts there either.
      rw [issues_eq_zero horizon]
      · exact Nat.zero_le _
      · exact fun n hn hunit =>
          hstarts n hn (Limits.capacityOf?_isSome_iff.mpr ⟨(unit, capacity), hmem, hunit⟩)
      · exact fun hblock t ht hcycle => hin ⟨hblock, t, ht, hcycle⟩
  · rintro ⟨hstarts, hissues⟩ b _ e he
    refine ⟨fun name hname => ?_, fun t _ => ?_⟩
    · rcases mem_unitNodes_iff.mp hname with ⟨n, hn, rfl, rfl, hunit⟩
      exact hstarts n hn (Limits.capacityOf?_isSome_iff.mpr ⟨e, he, hunit⟩)
    · exact hissues b e.1 e.2 (NameMap.get?_eq_some_iff.mpr he) t

/-- The variables are the activations of the nodes of limited classes. -/
theorem mem_formulationVars_iff {horizon : Nat → Nat} {w : Variable Rat} :
    w ∈ v.formulationVars limits (v.blocks.map fun b => (b, horizon b)) ↔
      ∃ n ∈ v.nodes, (limits.capacityOf? n.kind).isSome = true ∧
        ∃ t ≤ horizon n.block, w = activation n.name t := by
  simp only [formulationVars, unitActivations, List.mem_flatMap, List.mem_map, activations,
    List.mem_range, Nat.lt_succ_iff]
  constructor
  · rintro ⟨_, ⟨b, _, rfl⟩, e, he, name, hname, t, ht, rfl⟩
    rcases mem_unitNodes_iff.mp hname with ⟨n, hn, rfl, rfl, hunit⟩
    exact ⟨n, hn, Limits.capacityOf?_isSome_iff.mpr ⟨e, he, hunit⟩, t, ht, rfl⟩
  · rintro ⟨n, hn, hlimited, t, ht, rfl⟩
    rcases Limits.capacityOf?_isSome_iff.mp hlimited with ⟨e, he, hunit⟩
    exact ⟨_, ⟨n.block, mem_blocks_iff.mpr ⟨n, hn, rfl⟩, rfl⟩, e, he, n.name,
      mem_unitNodes_iff.mpr ⟨n, hn, rfl, rfl, hunit⟩, t, ht, rfl⟩

end View

/-! ### When it is accepted -/

namespace View

variable {v : View α} {limits : Limits} {block horizon : Nat} {unit : String} {r : Role}

/-- The activations of a class in a block, as roles. -/
def unitRoles (v : View α) (block horizon : Nat) (unit : String) : List Role :=
  (v.unitNodes block unit).flatMap fun node => (List.range (horizon + 1)).map (Role.startsAt node)

/-- The activations of the formulation, as roles. -/
def formulationRoles (v : View α) (limits : Limits) (hs : List (Nat × Nat)) : List Role :=
  hs.flatMap fun b => limits.toList.flatMap fun e => v.unitRoles b.1 b.2 e.1

theorem exists_node_of_mem_unitRoles (h : r ∈ v.unitRoles block horizon unit) :
    ∃ n ∈ v.nodes, n.block = block ∧ n.kind.unit? = some unit ∧ ∃ t, r = .startsAt n.name t := by
  rcases List.mem_flatMap.mp h with ⟨node, hnode, hr⟩
  rcases List.mem_map.mp hr with ⟨t, _, rfl⟩
  rcases mem_unitNodes_iff.mp hnode with ⟨n, hn, rfl, hblock, hunit⟩
  exact ⟨n, hn, hblock, hunit, t, rfl⟩

theorem exists_startsAt_of_mem_formulationRoles {hs : List (Nat × Nat)}
    (h : r ∈ v.formulationRoles limits hs) : ∃ node t, r = .startsAt node t := by
  rcases List.mem_flatMap.mp h with ⟨_, _, h⟩
  rcases List.mem_flatMap.mp h with ⟨_, _, h⟩
  rcases exists_node_of_mem_unitRoles h with ⟨n, _, _, _, t, rfl⟩
  exact ⟨n.name, t, rfl⟩

theorem unitRoles_nodup (hnames : (v.nodes.map (·.name)).Nodup) (block horizon : Nat)
    (unit : String) : (v.unitRoles block horizon unit).Nodup := by
  -- A node has one role for each cycle, and two nodes share none.
  rw [unitRoles, List.nodup_flatMap]
  refine ⟨fun node _ => List.nodup_range.map fun t u h => (Role.startsAt.inj h).2, ?_⟩
  refine (unitNodes_nodup hnames block unit).imp fun {a b} hne r ha hb => hne ?_
  rcases List.mem_map.mp ha with ⟨_, _, rfl⟩
  rcases List.mem_map.mp hb with ⟨_, _, heq⟩
  exact (Role.startsAt.inj heq).1.symm

/-- No role is given twice. -/
theorem formulationRoles_nodup (limits : Limits) (hnames : (v.nodes.map (·.name)).Nodup)
    (horizon : Nat → Nat) :
    (v.formulationRoles limits (v.blocks.map fun b => (b, horizon b))).Nodup := by
  -- A role belongs to one node, and that is in one block and of one class.
  have hshared : ∀ {b b' H H' : Nat} {u u' : String} {r : Role}, r ∈ v.unitRoles b H u →
      r ∈ v.unitRoles b' H' u' → b = b' ∧ u = u' := by
    intro b b' H H' u u' r h h'
    rcases exists_node_of_mem_unitRoles h with ⟨n, hn, rfl, hunit, t, rfl⟩
    rcases exists_node_of_mem_unitRoles h' with ⟨n', hn', rfl, hunit', t', heq⟩
    have hsame := List.inj_on_of_nodup_map hnames hn hn' (Role.startsAt.inj heq).1
    rw [← hsame, hunit] at hunit'
    exact ⟨by rw [hsame], Option.some.inj hunit'⟩
  rw [formulationRoles, List.nodup_flatMap]
  constructor
  · intro b _
    rw [List.nodup_flatMap]
    refine ⟨fun e _ => unitRoles_nodup hnames _ _ _, ?_⟩
    refine (List.pairwise_map.mp limits.toList_nodup).imp fun {e e'} hne r h h' => ?_
    exact hne (hshared h h').2
  · rw [List.pairwise_map]
    refine v.blocks_nodup.imp fun {b b'} hne r h h' => ?_
    rcases List.mem_flatMap.mp h with ⟨_, _, h⟩
    rcases List.mem_flatMap.mp h' with ⟨_, _, h'⟩
    exact hne (hshared h h').1

end View

/-- A trial over the handle of a view. -/
def Setting.trial (v : View α) : Setting (Trial α) α :=
  ⟨fun t => t.handle.model, fun t => t.handle.view = v⟩

section

variable {β : Type} {v : View α} {old new : List Role}

theorem Declares.onModel {act : ModelM α β} (h : Declares (.alone α) old new act) :
    Declares (.trial v) old new (TrialM.onModel act) := by
  intro t ht hknown hfresh
  rcases h t.handle.model trivial hknown hfresh with ⟨b, m, hrun, _, hknows⟩
  exact ⟨b, _, perform_onModel_ok_iff.mpr ⟨m, hrun, rfl⟩, ht, hknows⟩

/-- A trial can be told what to do by the view. -/
theorem Declares.ofView {act : View α → TrialM α β} (h : Declares (.trial v) old new (act v)) :
    Declares (.trial v) old new (do act (← get).handle.view) := by
  intro t ht hknown hfresh
  have hview : t.handle.view = v := ht
  rw [perform_bind_of_ok (perform_get t), hview]
  exact h t ht hknown hfresh

variable [Scalar α] {limits : Limits} {block horizon capacity : Nat} {unit : String}

theorem Declares.constrain {named : List (String × α)} {rhs : α} (relation : Relation)
    (hnamed : ∀ t ∈ named, ∃ r ∈ old, t.1 = r.var)
    (hfinite : ∀ t ∈ named, Scalar.isFinite t.2 = true) (hrhs : Scalar.isFinite rhs = true) :
    Declares (.trial v) old [] (TrialM.constrain named relation rhs) := by
  refine (Declares.addConstraint relation hnamed hfinite hrhs).onModel.andThen fun id t ht _ _ => ?_
  exact ⟨⟨⟩, _, perform_modify _ _, ht, fun name => by simp [Setting.trial]⟩

variable [Scalar.FiniteWords α]

/-- The activations of a node are accepted with the rows over them. -/
theorem declares_addActivations {n : View.Node α} (hn : n ∈ v.nodes)
    (hcycles : ∀ t ≤ horizon, Scalar.isFinite (-Scalar.ofInt t : α) = true) :
    Declares (.trial v) v.startRoles ((List.range (horizon + 1)).map (Role.startsAt n.name))
      (addActivations horizon n.name) := by
  have hround : ∀ t ∈ List.range (horizon + 1),
      Declares (.trial v) v.startRoles [Role.startsAt n.name t] (do
        let _ ← TrialM.onModel
          (Model.addVariable (startsAtVar n.name t) none (none : Option α) .binary)) :=
    fun t _ => (Declares.addVariable (.startsAt n.name t)
      (boundsError?_binary _)).onModel.followed fun _ => .pure _
  have hloop := Declares.forM hround (by
    rw [← List.map_eq_flatMap]
    exact List.nodup_range.map fun t u h => (Role.startsAt.inj h).2)
  rw [← List.map_eq_flatMap] at hloop
  -- The rows mention the new variables and the start cycle.
  have hactive : ∀ t ∈ List.range (horizon + 1), ∃ r ∈
      v.startRoles ++ (List.range (horizon + 1)).map (Role.startsAt n.name),
      startsAtVar n.name t = r.var := fun t ht =>
    ⟨_, List.mem_append_right _ (List.mem_map_of_mem ht), rfl⟩
  refine hloop.followed fun _ => (Declares.constrain .eq ?_ ?_ Scalar.FiniteUnits.one).andThen
    fun _ => Declares.constrain .eq ?_ ?_ Scalar.FiniteWords.zero
  · exact List.forall_mem_map.mpr hactive
  · exact List.forall_mem_map.mpr fun _ _ => Scalar.FiniteUnits.one
  · exact List.forall_mem_cons.mpr
      ⟨⟨_, List.mem_append_left _ (View.start_mem_startRoles hn), rfl⟩,
        List.forall_mem_map.mpr hactive⟩
  · exact List.forall_mem_cons.mpr ⟨Scalar.FiniteUnits.one, List.forall_mem_map.mpr fun t ht =>
      hcycles t (Nat.lt_succ_iff.mp (List.mem_range.mp ht))⟩

theorem declares_addUnitCycles (hnames : (v.nodes.map (·.name)).Nodup)
    (hcapacity : Scalar.isFinite (Scalar.ofInt capacity : α) = true)
    (hcycles : ∀ t ≤ horizon, Scalar.isFinite (-Scalar.ofInt t : α) = true) :
    Declares (.trial v) v.startRoles (v.unitRoles block horizon unit)
      (addUnitCycles block horizon unit capacity) := by
  let act (w : View α) : TrialM α Unit := do
    unless (w.unitNodes block unit).isEmpty do
      (w.unitNodes block unit).forM (addActivations horizon)
      (List.range (horizon + 1)).forM fun t => TrialM.constrain
        ((w.unitNodes block unit).map fun n => (startsAtVar n t, 1)) .le (Scalar.ofInt capacity)
  suffices h : Declares (.trial v) v.startRoles (v.unitRoles block horizon unit) (act v) from
    h.ofView
  have hnodup := View.unitRoles_nodup hnames block horizon unit
  rw [View.unitRoles] at hnodup ⊢
  by_cases hempty : (v.unitNodes block unit).isEmpty = true
  · simp only [act]
    rw [if_pos hempty, List.isEmpty_iff.mp hempty]
    exact Declares.pure _
  · simp only [act]
    rw [if_neg hempty]
    have hnodes : ∀ node ∈ v.unitNodes block unit, Declares (.trial v) v.startRoles
        ((List.range (horizon + 1)).map (Role.startsAt node)) (addActivations horizon node) := by
      intro node hnode
      rcases View.mem_unitNodes_iff.mp hnode with ⟨n, hn, rfl, _⟩
      exact declares_addActivations hn hcycles
    refine (Declares.forM hnodes hnodup).followed fun _ => Declares.forM_nil fun t ht => ?_
    refine Declares.constrain .le (List.forall_mem_map.mpr fun node hnode => ?_)
      (List.forall_mem_map.mpr fun _ _ => Scalar.FiniteUnits.one) hcapacity
    exact ⟨.startsAt node t, List.mem_append_right _
      (List.mem_flatMap.mpr ⟨node, hnode, List.mem_map_of_mem ht⟩), rfl⟩

/-- The formulation is accepted if there are horizons, no name is taken, and its cycles and
    capacities are finite as numbers. -/
theorem exists_addTimeIndexed_of_isFinite {explicit : Option Int} {horizon : Nat → Nat}
    {h : Handle α} (hnames : (h.view.nodes.map (·.name)).Nodup)
    (hstarts : Discipline.StartsKnown h.view h.model)
    (hfresh : ∀ node t, ¬ h.model.Knows (startsAtVar node t))
    (hhorizons : blockHorizons h limits explicit
      = .ok (h.view.blocks.map fun b => (b, horizon b)))
    (hcapacities : ∀ e ∈ limits.toList, Scalar.isFinite (Scalar.ofInt e.2 : α) = true)
    (hcycles : ∀ b ∈ h.view.blocks, ∀ t ≤ horizon b,
      Scalar.isFinite (-Scalar.ofInt t : α) = true) :
    ∃ ids h', perform (addTimeIndexed limits explicit) h = (.ok ids, h') := by
  have hnodup := View.formulationRoles_nodup limits hnames horizon
  have hloop : Declares (.trial h.view) h.view.startRoles
      (h.view.formulationRoles limits (h.view.blocks.map fun b => (b, horizon b)))
      ((h.view.blocks.map fun b => (b, horizon b)).forM fun b =>
        limits.toList.forM fun e => addUnitCycles b.1 b.2 e.1 e.2) := by
    refine Declares.forM (fun b hb => Declares.forM (fun e he => ?_)
      ((List.nodup_flatMap.mp hnodup).1 b hb)) hnodup
    rcases List.mem_map.mp hb with ⟨block, hblock, rfl⟩
    exact declares_addUnitCycles hnames (hcapacities e he) (hcycles block hblock)
  rcases hloop { handle := h } rfl (List.forall_mem_map.mpr hstarts) (fun r hr => by
    rcases View.exists_startsAt_of_mem_formulationRoles hr with ⟨node, t, rfl⟩
    exact hfresh node t) with ⟨_, t, hbuild, _⟩
  refine ⟨t.added, t.handle, ?_⟩
  rw [addTimeIndexed, perform_bind_of_ok (perform_get h)]
  simp only [hhorizons]
  exact perform_bind_ok_iff.mpr
    ⟨_, _, perform_attempt_ok_iff.mpr ⟨t, hbuild, rfl, rfl⟩, rfl⟩

end

/-- Rational numbers are finite, so only horizons and names matter. -/
theorem exists_addTimeIndexed {limits : Limits} {explicit : Option Int} {horizon : Nat → Nat}
    {h : Handle Rat} (hnames : (h.view.nodes.map (·.name)).Nodup)
    (hstarts : Discipline.StartsKnown h.view h.model)
    (hfresh : ∀ node t, ¬ h.model.Knows (startsAtVar node t))
    (hhorizons : blockHorizons h limits explicit
      = .ok (h.view.blocks.map fun b => (b, horizon b))) :
    ∃ ids h', perform (addTimeIndexed limits explicit) h = (.ok ids, h') :=
  exists_addTimeIndexed_of_isFinite hnames hstarts hfresh hhorizons (fun _ _ => rfl)
    fun _ _ _ _ => rfl

end CyclePlan
