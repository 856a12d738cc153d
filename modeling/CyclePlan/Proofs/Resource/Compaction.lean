import CyclePlan.Proofs.Engine.Potentials
import CyclePlan.Proofs.Resource.TimeIndexed

/-!
# Compact Schedules

How late an operation has to start because of capacities.

Start cycles that keep to dependencies and capacities can be far apart for no
reason. Moving a single operation to an earlier cycle does no harm as long as its
producers are done and no other operation of a limited class starts there, and it
makes the sum of the start cycles smaller. So whatever is given, there are compact
start cycles below it (`View.exists_isCompact`): in every cycle that an operation lets
pass it waits for a producer, or some limited operation starts.

In compact start cycles an operation starts no later than without any capacities, but
for one cycle for each limited operation that starts before it
(`View.IsCompact.le_started`). Cycles are counted one by one. A cycle in which a
limited operation starts is paid for by that operation. In any other cycle the
operation waits for a producer, and then the bound of the producer applies, which is
the same bound at an earlier cycle or one that its latency fits in. So it does not
matter in which blocks the limited operations are or how blocks delay each other.

Conversely, with units for every limited operation there are such start cycles at all:
one operation after the other, far enough apart (`View.exists_keeps`).

## Main definitions

* `View.issued`: How many operations start in a cycle.
* `View.Keeps`: Start cycles that keep to dependencies and capacities.
* `View.IsCompact`: No operation can be moved alone.
* `View.started`: The limited operations that start before a cycle.

## Theorems

* `View.keeps_iff`: What that means for values by name.
* `View.exists_isCompact`: There are compact start cycles below any others.
* `View.IsCompact.le_add_limitedCount`: How late operations start in them.
* `View.exists_keeps`: Units for every limited operation suffice.
-/

namespace CyclePlan

/-- Items of one kind are fewer if some item of another kind is not of that kind, and
    all that are of the one are of the other. -/
theorem countP_lt_countP {β : Type} {p q : β → Bool} {l : List β}
    (himp : ∀ a ∈ l, p a = true → q a = true) {b : β} (hb : b ∈ l) (hq : q b = true)
    (hp : p b = false) : l.countP p < l.countP q := by
  have hsame : l.countP p = (l.filter q).countP p := by
    rw [List.countP_filter]
    refine List.countP_congr fun a ha => ?_
    rw [Bool.and_eq_true]
    exact ⟨fun h => ⟨h, himp a ha h⟩, fun h => h.1⟩
  rw [hsame, List.countP_eq_length_filter (p := q)]
  exact List.countP_lt_length_iff.mpr ⟨b, List.mem_filter.mpr ⟨hb, hq⟩, hp⟩

namespace View

open Arc

variable {v : View Rat} {limits : Limits} {sameBlockOnly : Bool} {c : Node Rat → Int}
  {y : String → Rat} {n : Node Rat}

/-- The number of operations of a class and block that start in a cycle. -/
def issued (v : View Rat) (c : Node Rat → Int) (block : Nat) (unit : String) (cycle : Int) : Nat :=
  v.nodes.countP fun n => n.block == block && n.kind.unit? == some unit && c n == cycle

theorem issues_eq_issued (hy : v.Times c y) (block : Nat) (unit : String) (cycle : Int) :
    v.issues y block unit cycle = v.issued c block unit cycle := by
  refine List.countP_congr fun n hn => ?_
  have hvalue : (y (startVar n.name) == (cycle : Rat)) = (c n == cycle) := by
    rw [hy n hn, Bool.eq_iff_iff, beq_iff_eq, beq_iff_eq, Int.cast_inj]
  rw [hvalue]

/-- Start cycles keep to the dependencies and to the capacities. -/
structure Keeps (v : View Rat) (limits : Limits) (sameBlockOnly : Bool) (c : Node Rat → Int) :
    Prop where
  nonneg : ∀ n ∈ v.nodes, 0 ≤ c n
  pairs : ∀ p ∈ v.emitted sameBlockOnly, c p.1 + ⌈p.1.latency⌉ ≤ c p.2
  issued : ∀ block unit capacity, limits.capacity? unit = some capacity →
    ∀ cycle, v.issued c block unit cycle ≤ capacity

theorem keeps_iff (hy : v.Times c y) :
    v.Keeps limits sameBlockOnly c ↔
      Discipline.StartsHold v sameBlockOnly y ∧ v.IssuesWithin limits y := by
  have hpairs : (∀ p ∈ v.emitted sameBlockOnly, c p.1 + ⌈p.1.latency⌉ ≤ c p.2) ↔
      Meets (lag 0) c (v.forwardArcs sameBlockOnly) := by
    rw [Meets, forwardArcs, List.forall_mem_map]
    refine forall₂_congr fun p _ => ?_
    rw [lag_arcOf_false]
    exact Iff.rfl
  have hissues : v.IssuesWithin limits y ↔ ∀ block unit capacity,
      limits.capacity? unit = some capacity → ∀ cycle, v.issued c block unit cycle ≤ capacity := by
    simp only [IssuesWithin, issues_eq_issued hy]
  rw [Discipline.startsHold_iff_meets 0 hy, hissues, ← hpairs]
  exact ⟨fun h => ⟨⟨h.nonneg, h.pairs⟩, h.issued⟩, fun h => ⟨h.1.1, h.1.2, h.2⟩⟩

/-- Without capacities only the dependencies are kept to. -/
theorem keeps_none_iff (hy : v.Times c y) :
    v.Keeps .none sameBlockOnly c ↔ Discipline.StartsHold v sameBlockOnly y := by
  rw [keeps_iff hy]
  exact and_iff_left fun _ _ _ hcapacity => nomatch hcapacity

theorem capacityOf?_of_unit {unit : String} (hunit : n.kind.unit? = some unit) :
    limits.capacityOf? n.kind = limits.capacity? unit := by
  rw [Limits.capacityOf?, hunit]
  rfl

/-! ### Compact start cycles -/

/-- In every cycle that an operation lets pass, a limited operation starts or a producer
    is not done yet. -/
structure IsCompact (v : View Rat) (limits : Limits) (sameBlockOnly : Bool)
    (c : Node Rat → Int) : Prop extends v.Keeps limits sameBlockOnly c where
  waits : ∀ n ∈ v.nodes, ∀ t, 0 ≤ t → t < c n →
    (∃ m ∈ v.nodes, (limits.capacityOf? m.kind).isSome = true ∧ c m = t) ∨
      ∃ p ∈ v.emitted sameBlockOnly, p.2 = n ∧ t < c p.1 + ⌈p.1.latency⌉

open Classical in
/-- An operation can be moved alone to an earlier cycle for which its producers are done
    and in which no limited operation starts. -/
theorem Keeps.update (h : v.Keeps limits sameBlockOnly c) {t : Int} (ht : 0 ≤ t) (hlt : t < c n)
    (hfree : ∀ m ∈ v.nodes, (limits.capacityOf? m.kind).isSome = true → c m ≠ t)
    (hready : ∀ p ∈ v.emitted sameBlockOnly, p.2 = n → c p.1 + ⌈p.1.latency⌉ ≤ t) :
    v.Keeps limits sameBlockOnly (Function.update c n t) := by
  have hle : ∀ m, Function.update c n t m ≤ c m := update_le_self_iff.mpr (le_of_lt hlt)
  refine ⟨fun m hm => ?_, fun p hp => ?_, fun block unit capacity hcapacity cycle => ?_⟩
  · -- The new cycle is not negative, and the others are as they were.
    by_cases hmn : m = n
    · rwa [hmn, Function.update_self]
    · rw [Function.update_of_ne hmn]
      exact h.nonneg m hm
  · -- What the operation waits for is done; what waits for it may only start earlier.
    by_cases htarget : p.2 = n
    · have hdone := hready p hp htarget
      have hsource := hle p.1
      rw [htarget, Function.update_self]
      omega
    · have hrow := h.pairs p hp
      have hsource := hle p.1
      rw [Function.update_of_ne htarget]
      omega
  · -- In the new cycle the operation is alone; in any other there is nothing new.
    refine le_trans ?_ (h.issued block unit capacity hcapacity (if cycle = t then c n else cycle))
    refine List.countP_mono_left fun m hm hcount => ?_
    simp only [Bool.and_eq_true, beq_iff_eq] at hcount ⊢
    rcases hcount with ⟨⟨hblock, hunit⟩, hcycle⟩
    refine ⟨⟨hblock, hunit⟩, ?_⟩
    by_cases hmn : m = n
    · rw [hmn, Function.update_self] at hcycle
      rw [if_pos hcycle.symm, hmn]
    · rw [Function.update_of_ne hmn] at hcycle
      have hlimited : (limits.capacityOf? m.kind).isSome = true := by
        rw [capacityOf?_of_unit hunit, hcapacity, Option.isSome_some]
      rw [if_neg fun heq => hfree m hm hlimited (hcycle.trans heq), hcycle]

open Classical in
/-- Below any start cycles that keep to dependencies and capacities there are compact
    ones. -/
theorem exists_isCompact (hc : v.Keeps limits sameBlockOnly c) :
    ∃ d, v.IsCompact limits sameBlockOnly d ∧ ∀ n ∈ v.nodes, d n ≤ c n := by
  let total (d : Node Rat → Int) : Nat := (v.nodes.map fun n => (d n).toNat).sum
  -- Take start cycles with the least sum.
  rcases (measure total).wf.has_min
      {d | v.Keeps limits sameBlockOnly d ∧ ∀ n ∈ v.nodes, d n ≤ c n} ⟨c, hc, fun _ _ => le_refl _⟩
    with ⟨d, ⟨hd, hle⟩, hmin⟩
  refine ⟨d, ⟨hd, fun n hn t ht hlt => ?_⟩, hle⟩
  by_contra hnot
  rw [not_or] at hnot
  rcases hnot with ⟨hbusy, hwait⟩
  have hmoved := hd.update ht hlt (fun m hm hlimited heq => hbusy ⟨m, hm, hlimited, heq⟩)
    (fun p hp htarget => not_lt.mp fun hlate => hwait ⟨p, hp, htarget, hlate⟩)
  -- Otherwise moving the operation would make the sum smaller.
  have hbelow : ∀ m, Function.update d n t m ≤ d m := update_le_self_iff.mpr (le_of_lt hlt)
  refine hmin _ ⟨hmoved, fun m hm => le_trans (hbelow m) (hle m hm)⟩ ?_
  refine List.sum_lt_sum _ _ (fun m _ => Int.toNat_le_toNat (hbelow m)) ⟨n, hn, ?_⟩
  simp only [Function.update_self]
  omega

/-! ### How late operations start -/

/-- The number of operations of limited classes that start before a cycle. -/
def started (v : View Rat) (limits : Limits) (c : Node Rat → Int) (t : Int) : Nat :=
  v.nodes.countP fun n => (limits.capacityOf? n.kind).isSome && decide (c n < t)

theorem started_le_limitedCount (t : Int) : v.started limits c t ≤ v.limitedCount limits :=
  List.countP_mono_left fun _ _ h => (Bool.and_eq_true_iff.mp h).1

theorem started_mono {t u : Int} (h : t ≤ u) : v.started limits c t ≤ v.started limits c u := by
  refine List.countP_mono_left fun n _ hcount => ?_
  rw [Bool.and_eq_true, decide_eq_true_iff] at hcount ⊢
  exact ⟨hcount.1, lt_of_lt_of_le hcount.2 h⟩

/-- A limited operation that starts in a cycle has started after it. -/
theorem started_lt_of_starts {m : Node Rat} (hm : m ∈ v.nodes)
    (hlimited : (limits.capacityOf? m.kind).isSome = true) :
    v.started limits c (c m) < v.started limits c (c m + 1) := by
  refine countP_lt_countP (fun n _ hcount => ?_) hm ?_ ?_
  · rw [Bool.and_eq_true, decide_eq_true_iff] at hcount ⊢
    exact ⟨hcount.1, lt_trans hcount.2 (lt_add_one _)⟩
  · rw [hlimited, Bool.true_and, decide_eq_true_iff]
    exact lt_add_one _
  · rw [decide_eq_false (lt_irrefl _), Bool.and_false]

/-- Up to its start, an operation is behind start cycles without capacities by no more
    than the number of limited operations that have started. -/
theorem IsCompact.le_started (h : v.IsCompact limits sameBlockOnly c)
    (hlatency : ∀ n ∈ v.nodes, 0 ≤ n.latency) {rank : String → Nat}
    (hrank : ∀ p ∈ v.forwardPairs, rank p.1.name < rank p.2.name) {s : Node Rat → Int}
    (hs : v.Keeps .none sameBlockOnly s) (hn : n ∈ v.nodes) (t : Nat) (ht : (t : Int) ≤ c n) :
    (t : Int) ≤ s n + v.started limits c t := by
  -- Producers have a lower rank, and cycles are counted one by one.
  induction hr : rank n.name using Nat.strong_induction_on generalizing n t with
  | _ r ih =>
      induction t with
      | zero =>
          have hsign := hs.nonneg n hn
          omega
      | succ t iht =>
          have hbefore := iht (by omega)
          rcases h.waits n hn t (by omega) (by omega) with ⟨m, hm, hlimited, hstart⟩ |
            ⟨p, hp, htarget, hlate⟩
          · -- The cycle is paid for by the operation that starts in it.
            have hpaid := started_lt_of_starts (c := c) hm hlimited
            rw [hstart] at hpaid
            push_cast
            omega
          · -- The cycle is not paid for, but a producer is behind no less.
            have hpair := List.mem_of_mem_filter hp
            have hsource := (mem_nodes_of_forwardPairs hpair).1
            have hlower : rank p.1.name < r := by
              rw [← hr, ← htarget]
              exact hrank p hpair
            have hsign := h.nonneg p.1 hsource
            have hceil : 0 ≤ ⌈p.1.latency⌉ := Int.ceil_nonneg (hlatency p.1 hsource)
            have hrow := hs.pairs p hp
            rw [htarget] at hrow
            by_cases hwait : ((t + 1 : Nat) : Int) ≤ c p.1
            · -- The producer has not started either.
              have hproducer := ih _ hlower hsource (t + 1) hwait rfl
              omega
            · -- It has started, so the bound is that of its start, and its latency is left.
              have hat : ((c p.1).toNat : Int) = c p.1 := Int.toNat_of_nonneg hsign
              have hproducer := ih _ hlower hsource (c p.1).toNat (le_of_eq hat) rfl
              have hmono : v.started limits c (c p.1) ≤ v.started limits c ((t + 1 : Nat) : Int) :=
                started_mono (le_of_lt (not_le.mp hwait))
              rw [hat] at hproducer
              push_cast at hmono ⊢
              omega

/-- In compact start cycles, every operation starts within the start cycles without
    capacities and one cycle for each limited operation. -/
theorem IsCompact.le_add_limitedCount (h : v.IsCompact limits sameBlockOnly c)
    (hlatency : ∀ n ∈ v.nodes, 0 ≤ n.latency) {rank : String → Nat}
    (hrank : ∀ p ∈ v.forwardPairs, rank p.1.name < rank p.2.name) {s : Node Rat → Int}
    (hs : v.Keeps .none sameBlockOnly s) (hn : n ∈ v.nodes) :
    c n ≤ s n + v.limitedCount limits := by
  have hat : ((c n).toNat : Int) = c n := Int.toNat_of_nonneg (h.nonneg n hn)
  have hle := h.le_started hlatency hrank hs hn (c n).toNat (le_of_eq hat)
  have hall : v.started limits c ((c n).toNat : Int) ≤ v.limitedCount limits :=
    started_le_limitedCount _
  omega

/-! ### One after the other -/

open Classical in
/-- Where no two operations start in the same cycle, no more than one starts in any. -/
theorem issued_le_one (hnodes : v.nodes.Nodup)
    (hinj : ∀ m ∈ v.nodes, ∀ n ∈ v.nodes, c m = c n → m = n) (block : Nat) (unit : String)
    (cycle : Int) : v.issued c block unit cycle ≤ 1 := by
  rw [issued, List.countP_eq_length_filter, ← List.toFinset_card_of_nodup (hnodes.filter _),
    Finset.card_le_one]
  intro m hm n hn
  rw [List.mem_toFinset, List.mem_filter, Bool.and_eq_true, beq_iff_eq] at hm hn
  exact hinj m hm.1 n hn.1 (hm.2.2.trans hn.2.2.symm)

/-- Nodes can be numbered differently so that pairs go up. -/
theorem exists_injective_rank (hnames : (v.nodes.map (·.name)).Nodup) {rank : String → Nat}
    (hrank : ∀ p ∈ v.forwardPairs, rank p.1.name < rank p.2.name) :
    ∃ place : Node Rat → Nat, (∀ p ∈ v.forwardPairs, place p.1 < place p.2) ∧
      ∀ m ∈ v.nodes, ∀ n ∈ v.nodes, place m = place n → m = n := by
  let names := v.nodes.map (·.name)
  have hindex : ∀ n ∈ v.nodes, names.idxOf n.name < names.length := fun n hn =>
    List.idxOf_lt_length_of_mem (List.mem_map_of_mem hn)
  -- Among nodes of the same rank, the place in the list decides.
  refine ⟨fun n => rank n.name * names.length + names.idxOf n.name, fun p hp => ?_,
    fun m hm n hn heq => ?_⟩
  · rcases mem_nodes_of_forwardPairs hp with ⟨hsource, _⟩
    have hstep := Nat.mul_le_mul_right names.length (Nat.succ_le_of_lt (hrank p hp))
    have hlt := hindex p.1 hsource
    rw [Nat.succ_mul] at hstep
    change rank p.1.name * names.length + names.idxOf p.1.name
      < rank p.2.name * names.length + names.idxOf p.2.name
    omega
  · have hmod : ∀ {k : Node Rat}, k ∈ v.nodes →
        (rank k.name * names.length + names.idxOf k.name) % names.length
          = names.idxOf k.name := by
      intro k hk
      rw [Nat.mul_add_mod_self_right, Nat.mod_eq_of_lt (hindex k hk)]
    have hsame : names.idxOf m.name = names.idxOf n.name := by
      rw [← hmod hm, ← hmod hn]
      exact congrArg (· % names.length) heq
    have hname := (List.idxOf_inj (List.mem_map_of_mem hm)).mp hsame
    exact List.inj_on_of_nodup_map hnames hm hn hname

/-- If every limited operation has a unit to start on, there are start cycles that keep
    to dependencies and capacities. -/
theorem exists_keeps (hnames : (v.nodes.map (·.name)).Nodup)
    (hlatency : ∀ n ∈ v.nodes, 0 ≤ n.latency) {rank : String → Nat}
    (hrank : ∀ p ∈ v.forwardPairs, rank p.1.name < rank p.2.name)
    (hunits : ∀ n ∈ v.nodes, limits.capacityOf? n.kind ≠ some 0) (sameBlockOnly : Bool) :
    ∃ c, v.Keeps limits sameBlockOnly c := by
  rcases exists_injective_rank hnames hrank with ⟨place, hplace, hinj⟩
  -- One operation after the other, with more cycles between them than any of them takes.
  let gap : Int := (v.nodes.map fun n => ⌈n.latency⌉).sum + 1
  have hceil : ∀ n ∈ v.nodes, 0 ≤ ⌈n.latency⌉ := fun n hn => Int.ceil_nonneg (hlatency n hn)
  have hgap : ∀ n ∈ v.nodes, ⌈n.latency⌉ < gap := by
    intro n hn
    refine Int.lt_add_one_of_le (List.single_le_sum ?_ _ (List.mem_map_of_mem hn))
    exact List.forall_mem_map.mpr hceil
  have hpos : 0 < gap := by
    have hsum : 0 ≤ (v.nodes.map fun n => ⌈n.latency⌉).sum :=
      List.sum_nonneg (List.forall_mem_map.mpr hceil)
    omega
  have hapart : ∀ m ∈ v.nodes, ∀ n ∈ v.nodes, place m * gap = place n * gap → m = n := by
    intro m hm n hn heq
    have hsame := mul_right_cancel₀ (ne_of_gt hpos) heq
    exact hinj m hm n hn (by exact_mod_cast hsame)
  refine ⟨fun n => place n * gap, fun n _ => ?_, fun p hp => ?_,
    fun block unit capacity hcapacity cycle => ?_⟩
  · exact mul_nonneg (Int.natCast_nonneg _) (le_of_lt hpos)
  · have hpair := List.mem_of_mem_filter hp
    have hfits := hgap p.1 (mem_nodes_of_forwardPairs hpair).1
    have hnext : (place p.1 : Int) + 1 ≤ place p.2 := by exact_mod_cast hplace p hpair
    have hstep := mul_le_mul_of_nonneg_right hnext (le_of_lt hpos)
    rw [add_mul, one_mul] at hstep
    change (place p.1 : Int) * gap + ⌈p.1.latency⌉ ≤ (place p.2 : Int) * gap
    omega
  · rcases Nat.eq_zero_or_pos (v.issued (fun n => place n * gap) block unit cycle) with
      hzero | hsome
    · rw [hzero]
      exact Nat.zero_le _
    · -- Some operation of the class starts, so the class has a unit.
      rcases List.countP_pos_iff.mp hsome with ⟨n, hn, hcount⟩
      rw [Bool.and_eq_true, Bool.and_eq_true, beq_iff_eq, beq_iff_eq] at hcount
      have hunit := hunits n hn
      rw [capacityOf?_of_unit hcount.1.2, hcapacity] at hunit
      have hone := issued_le_one (List.Nodup.of_map _ hnames) hapart block unit cycle
      have hpositive : 0 < capacity := Nat.pos_of_ne_zero fun hzero => hunit (by rw [hzero])
      exact le_trans hone hpositive

end View

end CyclePlan
