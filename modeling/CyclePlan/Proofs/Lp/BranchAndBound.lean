import CyclePlan.Proofs.Lp.Rounds
import CyclePlan.Proofs.Simplex.Exactness

/-!
# Branch and Bound Is Right

What a search answers if the relaxations that it asks for are right.

No tolerance is given, so a value that passes for whole is whole, and rounding
the found assignment does not change it. The boxes of a search are parts of the
first one (`IsPart`), which holds all integral points of the model. At any time
an integral point lies in one of the boxes on the stack, or the assignment that
has been found is as good (`State.IsSound`). A box is dropped if its relaxation
is not better than the found assignment by more than a margin; the margin is one
where the objective of integral points is whole, and zero otherwise, so no better
integral point is dropped with it (`isMargin`). A box other than the first is
never dropped for being unbounded, since the first one would be unbounded, too.

When the stack is empty, all integral points are accounted for.

## Main definitions

* `Model.IsIntegralPoint`: Values satisfy a model, with whole integer variables.
* `IsPart`: A box is a part of another.
* `IsMargin`: A margin that drops no better integral point.
* `State.Covers`, `State.IsSound`: What is known at any time of a search.

## Theorems

* `State.IsSound.round`: What a round keeps.
* `solve_correct`: What is answered is right.
-/

namespace CyclePlan

/-- Values, one for each variable, satisfy a model, and integer variables are
    whole. -/
structure Model.IsIntegralPoint (m : Model Rat) (values : List Rat) : Prop where
  length : values.length = m.vars.length
  point : m.IsPoint fun v => values.getD v 0
  integral : m.IsIntegral fun v => values.getD v 0

namespace BranchAndBound

/-! ### Boxes -/

section Modify

variable {α β : Type} {R : α → β → Prop} {f : α → α} {l : List α} {l' : List β}

/-- Changing one item of a list, where the other list stays related to it. -/
theorem forall₂_modify (h : List.Forall₂ R l l') (j : Nat)
    (hj : ∀ a b, l[j]? = some a → l'[j]? = some b → R a b → R (f a) b) :
    List.Forall₂ R (l.modify j f) l' := by
  induction h generalizing j with
  | nil => cases j <;> exact .nil
  | cons hab hrest ih =>
      cases j with
      | zero => exact .cons (hj _ _ rfl rfl hab) hrest
      | succ j => exact .cons hab (ih j hj)

theorem forall₂_of_modify {j : Nat} (h : List.Forall₂ R (l.modify j f) l')
    (hj : ∀ a b, l[j]? = some a → l'[j]? = some b → R (f a) b → R a b) :
    List.Forall₂ R l l' := by
  induction l generalizing l' j with
  | nil => cases j <;> exact h
  | cons a l ih =>
      cases j with
      | zero =>
          rw [List.modify_zero_cons] at h
          cases h with
          | cons hab hrest => exact .cons (hj _ _ rfl rfl hab) hrest
      | succ j =>
          rw [List.modify_succ_cons] at h
          cases h with
          | cons hab hrest => exact .cons hab (ih hrest hj)

end Modify

/-- The values within a box are within another one. -/
structure IsPart (root box : Box Rat) : Prop where
  length : box.length = root.length
  within : ∀ values, List.Forall₂ Bounds.Admits box values → List.Forall₂ Bounds.Admits root values

variable {root box : Box Rat} {values : List Rat} {j : Nat} {x : Rat}

theorem floor_le (x : Rat) : Scalar.floor x ≤ x := Rat.floor_le x

theorem lt_floor_add_one (x : Rat) : x < Scalar.floor x + 1 :=
  (Rat.lt_floor_add_one x).trans_eq (Rat.intCast_add x.floor 1)

/-- Splitting at a value that lies in a box only makes it smaller. -/
theorem IsPart.split (h : IsPart root box) (hvalues : List.Forall₂ Bounds.Admits box values)
    (hx : values[j]? = some x) :
    IsPart root (split box j x).1 ∧ IsPart root (split box j x).2 := by
  have hown : ∀ b, box[j]? = some b → b.Admits x := by
    intro b hb
    rcases List.getElem?_eq_some_iff.mp hb with ⟨hi, rfl⟩
    rcases List.getElem?_eq_some_iff.mp hx with ⟨hi', rfl⟩
    exact hvalues.get hi hi'
  have hbelow : ∀ b, box[j]? = some b → ∀ y,
      Bounds.Admits { b with upper := some (Scalar.floor x) } y → b.Admits y := fun b hb y hy =>
    ⟨hy.above, fun u hu => (hy.below _ rfl).trans ((floor_le x).trans ((hown b hb).below u hu))⟩
  have habove : ∀ b, box[j]? = some b → ∀ y,
      Bounds.Admits { b with lower := some (Scalar.floor x + 1) } y → b.Admits y := fun b hb y hy =>
    ⟨fun l hl => ((hown b hb).above l hl).trans ((lt_floor_add_one x).le.trans (hy.above _ rfl)),
      hy.below⟩
  exact ⟨⟨(List.length_modify _ _ _).trans h.length, fun y hy => h.within y (forall₂_of_modify hy
      fun b z hb _ hz => hbelow b hb z hz)⟩,
    ⟨(List.length_modify _ _ _).trans h.length, fun y hy => h.within y (forall₂_of_modify hy
      fun b z hb _ hz => habove b hb z hz)⟩⟩

/-- Splitting loses no values that are whole where it splits. -/
theorem within_split (h : List.Forall₂ Bounds.Admits box values)
    (hwhole : ∀ z, values[j]? = some z → ∃ n : Int, z = n) (x : Rat) :
    List.Forall₂ Bounds.Admits (split box j x).1 values ∨
      List.Forall₂ Bounds.Admits (split box j x).2 values := by
  by_cases hall : ∀ z, values[j]? = some z → z ≤ Scalar.floor x
  · exact .inl (forall₂_modify h j fun b z _ hz hb => ⟨hb.above, fun u hu => by
      cases hu
      exact hall z hz⟩)
  · rw [not_forall] at hall
    rcases hall with ⟨z, hall⟩
    rw [Classical.not_imp, not_le] at hall
    rcases hall with ⟨hz, hlt⟩
    refine .inr (forall₂_modify h j fun b z' _ hz' hb => ⟨fun l hl => ?_, hb.below⟩)
    cases hl
    cases hz.symm.trans hz'
    rcases hwhole z hz with ⟨n, rfl⟩
    have hint : x.floor + 1 ≤ n := Rat.intCast_lt_intCast.mp hlt
    exact (Rat.intCast_add x.floor 1).symm.trans_le (Rat.intCast_le_intCast.mpr hint)

/-! ### The first box -/

variable {m : Model Rat} {v : Variable Rat}

/-- Moving bounds to whole numbers loses no value that the variable may have. -/
theorem admits_rootBounds (h : v.Admits x) (hwhole : v.isIntegral = true → ∃ n : Int, x = n) :
    (rootBounds 0 v).Admits x := by
  rw [rootBounds]
  split
  · next hkind =>
    rcases hwhole hkind with ⟨n, rfl⟩
    constructor
    · intro l hl
      rcases Option.map_eq_some_iff.mp hl with ⟨l', hl', rfl⟩
      rw [sub_zero]
      exact Rat.intCast_le_intCast.mpr (Rat.ceil_le_iff.mpr (h.above l' hl'))
    · intro u hu
      rcases Option.map_eq_some_iff.mp hu with ⟨u', hu', rfl⟩
      rw [add_zero]
      exact Rat.intCast_le_intCast.mpr (Rat.le_floor_iff.mpr (h.below u' hu'))
  · exact ⟨h.above, h.below⟩

theorem admits_of_rootBounds (h : (rootBounds 0 v).Admits x) : v.Admits x := by
  rw [rootBounds] at h
  split at h
  · constructor
    · intro l hl
      have hceil := h.above _ (Option.map_eq_some_iff.mpr ⟨l, hl, rfl⟩)
      rw [sub_zero] at hceil
      exact (Rat.ceil_le_iff.mp (le_refl l.ceil)).trans hceil
    · intro u hu
      have hfloor := h.below _ (Option.map_eq_some_iff.mpr ⟨u, hu, rfl⟩)
      rw [add_zero] at hfloor
      exact hfloor.trans (floor_le u)
  · exact ⟨h.above, h.below⟩

/-- The first box holds all integral points. -/
theorem isPointWithin_rootBox (h : m.IsIntegralPoint values) :
    m.IsPointWithin (rootBox 0 m) values := by
  refine ⟨?_, h.point.meets⟩
  rw [rootBox, List.forall₂_map_left_iff, List.forall₂_iff_get]
  refine ⟨h.length.symm, fun i hi hi' => ?_⟩
  have hv := List.getElem?_eq_getElem hi
  have hx : values.getD i 0 = values.get ⟨i, hi'⟩ := by
    rw [List.getD_eq_getElem?_getD, List.getElem?_eq_getElem hi', Option.getD_some]
    rfl
  rw [← hx]
  exact admits_rootBounds (h.point.admits i _ hv) (h.integral i _ hv)

/-- Points within the first box are points of the model. -/
theorem isPoint_of_rootBox (h : m.IsPointWithin (rootBox 0 m) values) :
    m.IsPoint fun v => values.getD v 0 := by
  refine ⟨fun i v hv => ?_, h.meets⟩
  have hwithin := h.within
  rw [rootBox, List.forall₂_map_left_iff, List.forall₂_iff_get] at hwithin
  rcases List.getElem?_eq_some_iff.mp hv with ⟨hi, rfl⟩
  have hi' : i < values.length := hwithin.1 ▸ hi
  have hx : values.getD i 0 = values.get ⟨i, hi'⟩ := by
    rw [List.getD_eq_getElem?_getD, List.getElem?_eq_getElem hi', Option.getD_some]
    rfl
  rw [hx]
  exact admits_of_rootBounds (hwithin.2 i hi hi')

/-! ### The margin -/

theorem flip_eq (m : Model Rat) : flip m = m.objective.direction.sign := rfl

/-- A margin that drops no better integral point. -/
structure IsMargin (m : Model Rat) (margin : Rat) : Prop where
  nonneg : 0 ≤ margin
  keeps : ∀ y z, m.IsIntegralPoint y → m.IsIntegralPoint z →
    flip m * m.objectiveAt z - margin < flip m * m.objectiveAt y →
      flip m * m.objectiveAt z ≤ flip m * m.objectiveAt y

/-- Whole terms at whole values have a whole value. -/
theorem exists_int_evaluate {terms : List (Nat × Rat)} {x : Nat → Rat}
    (h : ∀ t ∈ terms, (∃ n : Int, t.2 = n) ∧ ∃ n : Int, x t.1 = n) :
    ∃ n : Int, Model.evaluate terms x = n := by
  induction terms with
  | nil => exact ⟨0, rfl⟩
  | cons t rest ih =>
      rcases List.forall_mem_cons.mp h with ⟨⟨⟨c, hc⟩, ⟨k, hk⟩⟩, hrest⟩
      rcases ih hrest with ⟨n, hn⟩
      refine ⟨c * k + n, ?_⟩
      rw [Model.evaluate_cons, hc, hk, hn]
      push_cast
      rfl

/-- Coefficients that are nearly whole. -/
theorem exists_int_objectiveAt (hint : hasIntegralObjective m = true)
    (hcoeff : ∀ t ∈ m.objective.terms, ∀ n : Int, |t.2 - n| < 1e-12 → t.2 = n)
    (h : m.IsIntegralPoint values) : ∃ n : Int, flip m * m.objectiveAt values = n := by
  have hterms : ∃ n : Int, m.objectiveAt values = n := by
    rw [Model.objectiveAt, Model.objectiveValue]
    refine exists_int_evaluate fun t ht => ?_
    have hown := List.all_eq_true.mp hint t ht
    dsimp only at hown
    rw [Bool.and_eq_true, decide_eq_true_iff, Scalar.abs_rat] at hown
    refine ⟨⟨_, hcoeff t ht _ hown.2⟩, ?_⟩
    cases hv : m.vars[t.1]? with
    | none =>
        rw [hv] at hown
        cases hown.1
    | some v =>
        rw [hv] at hown
        exact h.integral t.1 v hv hown.1
  rcases hterms with ⟨n, hn⟩
  rw [hn, flip_eq]
  cases m.objective.direction with
  | minimize => exact ⟨n, one_mul _⟩
  | maximize => exact ⟨-n, by rw [Direction.sign]; push_cast; ring⟩

theorem isMargin (hcoeff : ∀ t ∈ m.objective.terms, ∀ n : Int, |t.2 - n| < 1e-12 → t.2 = n) :
    IsMargin m (if hasIntegralObjective m = true then 1 - 0 else 0) := by
  split
  · next hint =>
    refine ⟨by norm_num, fun y z hy hz hlt => ?_⟩
    rcases exists_int_objectiveAt hint hcoeff hy with ⟨p, hp⟩
    rcases exists_int_objectiveAt hint hcoeff hz with ⟨q, hq⟩
    rw [hp, hq] at hlt ⊢
    have hint : q - 1 < p := by
      rw [sub_zero] at hlt
      exact_mod_cast hlt
    exact_mod_cast Int.le_of_sub_one_lt hint
  · exact ⟨le_refl 0, fun y z _ _ hlt => by rw [sub_zero] at hlt; exact hlt.le⟩

/-! ### The search -/

variable {relax : Relaxer Rat} {margin : Rat} {s s' : State}

/-- A best point of a box is as good as any point in it. -/
theorem objectiveAt_le {y : List Rat} (h : m.IsBestWithin box values)
    (hy : m.IsPointWithin box y) :
    flip m * m.objectiveAt values ≤ flip m * m.objectiveAt y := by
  rw [flip_eq]
  exact not_lt.mp (mt (Direction.prefers_iff _ _ _).mpr (h.best y hy))

theorem length_rootBox (tolerance : Rat) (m : Model Rat) :
    (rootBox tolerance m).length = m.vars.length := List.length_map _

/-- The relaxations of parts of the first box are right. -/
def IsRight (relax : Relaxer Rat) (m : Model Rat) : Prop :=
  ∀ box : Box Rat, box.length = m.vars.length → (relax m box).IsExact m box

/-- The answer to the relaxation of a part is a best point of it. -/
theorem isBestWithin_of_answer (hrelax : IsRight relax m) (hpart : IsPart (rootBox 0 m) box)
    {objective : Rat} (answer : relax m box = .optimal values objective) :
    m.IsBestWithin box values ∧ objective = m.objectiveAt values := by
  have hexact := hrelax box (hpart.length.trans (length_rootBox 0 m))
  rw [answer] at hexact
  exact hexact

/-- Integer variables of a found assignment are whole. -/
theorem round_eq_of_isFrom {P : Box Rat → Prop} {b : Incumbent Rat} (h : b.IsFrom relax 0 m P)
    {i : Nat} (hv : m.vars[i]? = some v) (hx : b.values[i]? = some x)
    (hkind : v.isIntegral = true) : Scalar.round x = x := by
  rcases h with ⟨box, objective, _, _, hwhole, _⟩
  exact (sub_eq_zero.mp (abs_nonpos_iff.mp (abs_sub_round_le hwhole hv hx hkind))).symm

/-- A point within the first box whose integer variables are whole is an integral
    point. -/
theorem isIntegralPoint_of_rootBox (h : m.IsPointWithin (rootBox 0 m) values)
    (hwhole : ∀ (i : Nat) (v : Variable Rat) (x : Rat), m.vars[i]? = some v →
      values[i]? = some x → v.isIntegral = true → Scalar.round x = x) :
    m.IsIntegralPoint values := by
  have hlength := h.within.length_eq.symm.trans (length_rootBox 0 m)
  refine ⟨hlength, isPoint_of_rootBox h, fun i v hv hkind => ?_⟩
  have hi : i < values.length := hlength ▸ (List.getElem?_eq_some_iff.mp hv).1
  have hx := List.getElem?_eq_getElem hi
  refine ⟨Scalar.roundRat values[i], ?_⟩
  dsimp only
  rw [List.getD_eq_getElem?_getD, hx, Option.getD_some]
  exact (hwhole i v _ hv hx hkind).symm

/-- A found assignment is an integral point. -/
theorem isIntegralPoint_of_isFrom (hrelax : IsRight relax m) {b : Incumbent Rat}
    (hfrom : b.IsFrom relax 0 m (IsPart (rootBox 0 m))) :
    m.IsIntegralPoint b.values ∧ b.bound = flip m * m.objectiveAt b.values := by
  have ⟨box, objective, hpart, answer, _, hbound⟩ := hfrom
  rcases isBestWithin_of_answer hrelax hpart answer with ⟨hbest, rfl⟩
  exact ⟨isIntegralPoint_of_rootBox ⟨hpart.within _ hbest.within, hbest.meets⟩
    fun i v x hv hx hkind => round_eq_of_isFrom hfrom hv hx hkind, hbound⟩

/-- A point lies in a box on the stack, or the found assignment is as good. -/
def State.Covers (m : Model Rat) (s : State) (y : List Rat) : Prop :=
  (∃ box ∈ s.stack, List.Forall₂ Bounds.Admits box y) ∨
    ∃ b ∈ s.best, b.bound ≤ flip m * m.objectiveAt y

/-- Only the box on top is taken away in a round. -/
theorem State.Covers.of_cons {nodes : Nat} {best : Option (Incumbent Rat)}
    {stack : List (Box Rat)} {y : List Rat} (h : State.Covers m ⟨nodes, best, box :: stack⟩ y) :
    List.Forall₂ Bounds.Admits box y ∨ State.Covers m ⟨nodes + 1, best, stack⟩ y := by
  rcases h with ⟨other, hmem, hin⟩ | hold
  · rcases List.mem_cons.mp hmem with rfl | hrest
    · exact .inl hin
    · exact .inr (.inl ⟨other, hrest, hin⟩)
  · exact .inr (.inr hold)

/-- What is known at any time of a search. -/
structure State.IsSound (relax : Relaxer Rat) (m : Model Rat) (s : State) : Prop where
  within : s.IsWithin relax 0 m (IsPart (rootBox 0 m))
  covers : ∀ y, m.IsIntegralPoint y → s.Covers m y
  first : s.nodes = 0 → s.stack = [rootBox 0 m]
  bounded : s.nodes ≠ 0 → ¬ m.IsUnboundedWithin (rootBox 0 m)

/-- A search starts with all integral points in the first box. -/
theorem isSound_start : State.IsSound relax m ⟨0, none, [rootBox 0 m]⟩ where
  within := .start ⟨rfl, fun _ h => h⟩
  covers _ hy := .inl ⟨_, List.mem_singleton_self _, (isPointWithin_rootBox hy).within⟩
  first _ := rfl
  bounded h := absurd rfl h

/-- Splitting keeps to parts of the first box. -/
theorem isPart_split (hrelax : IsRight relax m) :
    ∀ box values objective j x, IsPart (rootBox 0 m) box →
      relax m box = .optimal values objective → fractional? 0 m values = some (j, x) →
        IsPart (rootBox 0 m) (split box j x).1 ∧ IsPart (rootBox 0 m) (split box j x).2 := by
  intro box values objective j x hpart answer hfraction
  rcases isBestWithin_of_answer hrelax hpart answer with ⟨hbest, _⟩
  rcases exists_of_fractional? hfraction with ⟨v, _, hx, _⟩
  exact hpart.split hbest.within hx

/-- The integer variable that a box is split at is whole at integral points. -/
theorem whole_of_fractional? {y : List Rat} (hy : m.IsIntegralPoint y)
    (hfraction : fractional? 0 m values = some (j, x)) (z : Rat) (hz : y[j]? = some z) :
    ∃ n : Int, z = n := by
  rcases exists_of_fractional? hfraction with ⟨v, hv, _, hkind⟩
  rcases hy.integral j v hv hkind with ⟨n, hn⟩
  dsimp only at hn
  rw [List.getD_eq_getElem?_getD, hz, Option.getD_some] at hn
  exact ⟨n, hn⟩

/-- No integral point is lost in a round. -/
theorem State.IsSound.covers_round (hrelax : IsRight relax m) (hmargin : IsMargin m margin)
    (h : s.IsSound relax m) (hround : Round relax 0 margin m s s') {y : List Rat}
    (hy : m.IsIntegralPoint y) : s'.Covers m y := by
  have hcovers := h.covers y hy
  have hpart := h.within.stack
  cases hround with
  | @infeasible nodes best box stack answer =>
      rcases hcovers.of_cons with hin | hrest
      · have hexact := hrelax box ((hpart _ List.mem_cons_self).length.trans (length_rootBox 0 m))
        rw [answer] at hexact
        exact absurd ⟨hin, hy.point.meets⟩ (hexact y)
      · exact hrest
  | @unbounded nodes best box stack answer later =>
      -- The first box would be unbounded, too.
      have hexact := hrelax box ((hpart _ List.mem_cons_self).length.trans (length_rootBox 0 m))
      rw [answer] at hexact
      refine absurd (fun K => ?_) (h.bounded later)
      rcases hexact K with ⟨values, hvalues, hbetter⟩
      exact ⟨values, ⟨(hpart _ List.mem_cons_self).within _ hvalues.within, hvalues.meets⟩, hbetter⟩
  | @pruned nodes best box stack values objective answer worse =>
      rcases hcovers.of_cons with hin | hrest
      · rcases isBestWithin_of_answer hrelax (hpart _ List.mem_cons_self) answer with
          ⟨hvalues, rfl⟩
        have hle := objectiveAt_le hvalues ⟨hin, hy.point.meets⟩
        cases best with
        | none => cases worse
        | some b =>
            rcases isIntegralPoint_of_isFrom hrelax (h.within.best b rfl) with ⟨hb, hbound⟩
            have hlt := of_decide_eq_true worse
            rw [hbound] at hlt
            exact .inr ⟨b, rfl, hbound.trans_le (hmargin.keeps y _ hy hb (hlt.trans_le hle))⟩
      · exact hrest
  | @found nodes best box stack values objective answer better whole =>
      rcases isBestWithin_of_answer hrelax (hpart _ List.mem_cons_self) answer with
        ⟨hvalues, rfl⟩
      rcases hcovers.of_cons with hin | hstack | ⟨b, hb, hle⟩
      · exact .inr ⟨_, rfl, objectiveAt_le hvalues ⟨hin, hy.point.meets⟩⟩
      · exact .inl hstack
      · cases hb
        have hnew := not_lt.mp (of_decide_eq_false better)
        exact .inr ⟨_, rfl, (hnew.trans (sub_le_self _ hmargin.nonneg)).trans hle⟩
  | @branched nodes best box stack values objective j x answer better fraction =>
      rcases hcovers.of_cons with hin | ⟨other, hmem, hin⟩ | hold
      · rcases within_split hin (whole_of_fractional? hy fraction) x with hbelow | habove
        · exact .inl ⟨_, List.mem_cons_self, hbelow⟩
        · exact .inl ⟨_, List.mem_cons_of_mem _ List.mem_cons_self, habove⟩
      · exact .inl ⟨other, List.mem_cons_of_mem _ (List.mem_cons_of_mem _ hmem), hin⟩
      · exact .inr hold

/-- If the first box gets an answer with which a search goes on, it is not
    unbounded. -/
theorem State.IsSound.bounded_round (hrelax : IsRight relax m) (h : s.IsSound relax m)
    (hround : Round relax 0 margin m s s') : ¬ m.IsUnboundedWithin (rootBox 0 m) := by
  by_cases hn : s.nodes = 0
  · have hroot := hrelax (rootBox 0 m) (length_rootBox 0 m)
    have hstack := h.first hn
    cases hround with
    | infeasible answer =>
        cases hstack
        rw [answer] at hroot
        intro hunbounded
        rcases hunbounded 0 with ⟨values, hvalues, _⟩
        exact hroot values hvalues
    | unbounded answer later => exact absurd hn later
    | pruned answer | found answer | branched answer =>
        cases hstack
        rw [answer] at hroot
        intro hunbounded
        rcases hunbounded (m.objectiveAt _) with ⟨other, hother, hbetter⟩
        exact hroot.1.best other hother hbetter
  · exact h.bounded hn

/-- What a round keeps. -/
theorem State.IsSound.round (hrelax : IsRight relax m) (hmargin : IsMargin m margin)
    (h : s.IsSound relax m) (hround : Round relax 0 margin m s s') : s'.IsSound relax m where
  within := h.within.round (isPart_split hrelax) hround
  covers _ hy := h.covers_round hrelax hmargin hround hy
  first hn := by cases hround <;> cases hn
  bounded _ := h.bounded_round hrelax hround

/-- What is known where a search ends. -/
theorem isSound_of_rounds (hrelax : IsRight relax m) (hmargin : IsMargin m margin)
    (hrounds : Relation.ReflTransGen (Round relax 0 margin m) ⟨0, none, [rootBox 0 m]⟩ s) :
    s.IsSound relax m := by
  induction hrounds with
  | refl => exact isSound_start
  | tail _ hround ih => exact ih.round hrelax hmargin hround

/-- What the end of a search means. -/
theorem verdict_correct (hrelax : IsRight relax m) (hmargin : IsMargin m margin)
    (maxNodes : Nat) :
    match search relax 0 margin m maxNodes 0 none [rootBox 0 m] with
    | .exhausted none _ => ¬ ∃ y, m.IsIntegralPoint y
    | .exhausted (some b) _ => b.IsFrom relax 0 m (IsPart (rootBox 0 m)) ∧
        ∀ y, m.IsIntegralPoint y → b.bound ≤ flip m * m.objectiveAt y
    | .truncated best _ => ∀ b ∈ best, b.IsFrom relax 0 m (IsPart (rootBox 0 m))
    | .unbounded _ => relax m (rootBox 0 m) = .unbounded
    | .stalled _ => True := by
  rcases exists_end relax 0 margin m maxNodes ⟨0, none, [rootBox 0 m]⟩ with ⟨s, hrounds, hend⟩
  have hsound := isSound_of_rounds hrelax hmargin hrounds
  dsimp only at hend
  split
  · next heq =>
    rw [heq] at hend
    cases hend
    rintro ⟨y, hy⟩
    rcases hsound.covers y hy with ⟨box, hmem, _⟩ | ⟨b, hb, _⟩
    · exact absurd hmem List.not_mem_nil
    · cases hb
  · next b nodes heq =>
    rw [heq] at hend
    cases hend
    refine ⟨hsound.within.best b rfl, fun y hy => ?_⟩
    rcases hsound.covers y hy with ⟨box, hmem, _⟩ | ⟨b, hb, hle⟩
    · exact absurd hmem List.not_mem_nil
    · cases hb
      exact hle
  · next best nodes heq =>
    rw [heq] at hend
    exact hend.1 ▸ hsound.within.best
  · next nodes heq =>
    rw [heq] at hend
    rcases hend with ⟨hn, box, stack, hstack, answer⟩
    cases (hsound.first hn).symm.trans hstack
    exact answer
  · exact trivial

/-- What is answered for a found assignment carries it, and it is an integral point. -/
theorem carries_of_isFrom (hrelax : IsRight relax m) {b : Incumbent Rat}
    (hfrom : b.IsFrom relax 0 m (IsPart (rootBox 0 m))) (status : SolverStatus) (nodes : Nat) :
    (solutionOf m status nodes b).Carries m (fun v => b.values.getD v 0) ∧
      m.IsIntegralPoint b.values := by
  have hpoint := (isIntegralPoint_of_isFrom hrelax hfrom).1
  exact ⟨carries_solutionOf hpoint.length
    (fun i v x hv hx hkind => round_eq_of_isFrom hfrom hv hx hkind) status nodes b.bound, hpoint⟩

/-- A found assignment whose bound nothing beats is a best one. -/
theorem not_prefers_of_isFrom (hrelax : IsRight relax m) {b : Incumbent Rat}
    (hfrom : b.IsFrom relax 0 m (IsPart (rootBox 0 m)))
    (hbest : ∀ y, m.IsIntegralPoint y → b.bound ≤ flip m * m.objectiveAt y) :
    ∀ other, m.IsIntegralPoint other →
      ¬ m.objective.direction.Prefers (m.objectiveAt other) (m.objectiveAt b.values) := by
  intro other hother
  rw [Direction.prefers_iff, ← flip_eq, not_lt, ← (isIntegralPoint_of_isFrom hrelax hfrom).2]
  exact hbest other hother

/-- An optimum that is answered is one, if the relaxations are right. -/
theorem exists_best_of_optimal {maxNodes : Nat} (hrelax : IsRight relax m)
    (hcoeff : ∀ t ∈ m.objective.terms, ∀ n : Int, |t.2 - n| < 1e-12 → t.2 = n)
    (hstatus : (solve relax ⟨maxNodes, 0⟩ m).status = .optimal) :
    ∃ values, (solve relax ⟨maxNodes, 0⟩ m).Carries m (fun v => values.getD v 0) ∧
      m.IsIntegralPoint values ∧ ∀ other, m.IsIntegralPoint other →
        ¬ m.objective.direction.Prefers (m.objectiveAt other) (m.objectiveAt values) := by
  have hcorrect := verdict_correct hrelax (isMargin hcoeff) maxNodes
  rw [solve] at hstatus ⊢
  dsimp only at hstatus ⊢
  -- No other end of a search is called optimal.
  split at hstatus <;> cases hstatus
  next b nodes heq =>
  rw [heq] at hcorrect
  rcases hcorrect with ⟨hfrom, hbest⟩
  rcases carries_of_isFrom hrelax hfrom .optimal nodes with ⟨hcarried, hpoint⟩
  exact ⟨b.values, hcarried, hpoint, not_prefers_of_isFrom hrelax hfrom hbest⟩

/-- What is answered is right, if the relaxations of the model are: a denial, an
    optimum, an assignment and the lack of a bound. -/
theorem solve_correct (relax : Relaxer Rat) (m : Model Rat) (maxNodes : Nat)
    (hrelax : IsRight relax m)
    (hcoeff : ∀ t ∈ m.objective.terms, ∀ n : Int, |t.2 - n| < 1e-12 → t.2 = n) :
    ((solve relax ⟨maxNodes, 0⟩ m).status = .infeasible → ¬ ∃ values, m.IsIntegralPoint values) ∧
    ((solve relax ⟨maxNodes, 0⟩ m).status = .optimal →
      ∃ values, (solve relax ⟨maxNodes, 0⟩ m).Carries m (fun v => values.getD v 0) ∧
        m.IsIntegralPoint values ∧ ∀ other, m.IsIntegralPoint other →
          ¬ m.objective.direction.Prefers (m.objectiveAt other) (m.objectiveAt values)) ∧
    ((solve relax ⟨maxNodes, 0⟩ m).status = .feasible →
      ∃ values, (solve relax ⟨maxNodes, 0⟩ m).Carries m (fun v => values.getD v 0) ∧
        m.IsIntegralPoint values) ∧
    ((solve relax ⟨maxNodes, 0⟩ m).status = .unbounded →
      relax m (rootBox 0 m) = .unbounded) ∧
    (solve relax ⟨maxNodes, 0⟩ m).nodes ≤ maxNodes := by
  have hcorrect := verdict_correct hrelax (isMargin hcoeff) maxNodes
  have hnodes := nodes_search_le relax 0 (if hasIntegralObjective m = true then 1 - 0 else 0) m
    maxNodes 0 none [rootBox 0 m]
  rw [Nat.zero_add] at hnodes
  rw [solve]
  dsimp only
  split
  · next b nodes heq =>
    rw [heq] at hcorrect hnodes
    rcases hcorrect with ⟨hfrom, hbest⟩
    rcases carries_of_isFrom hrelax hfrom .optimal nodes with ⟨hcarried, hpoint⟩
    exact ⟨fun h => (by cases h), fun _ => ⟨b.values, hcarried, hpoint,
      not_prefers_of_isFrom hrelax hfrom hbest⟩, fun h => (by cases h), fun h => (by cases h),
      hnodes⟩
  · next b nodes heq =>
    rw [heq] at hcorrect hnodes
    exact ⟨fun h => (by cases h), fun h => (by cases h),
      fun _ => ⟨b.values, carries_of_isFrom hrelax (hcorrect b rfl) .feasible nodes⟩,
      fun h => (by cases h), hnodes⟩
  · next nodes heq =>
    rw [heq] at hcorrect hnodes
    exact ⟨fun _ => hcorrect, fun h => (by cases h), fun h => (by cases h), fun h => (by cases h),
      hnodes⟩
  · next nodes heq =>
    rw [heq] at hnodes
    exact ⟨fun h => (by cases h), fun h => (by cases h), fun h => (by cases h),
      fun h => (by cases h), hnodes⟩
  · next nodes heq =>
    rw [heq] at hcorrect hnodes
    exact ⟨fun h => (by cases h), fun h => (by cases h), fun h => (by cases h), fun _ => hcorrect,
      hnodes⟩
  · next nodes heq =>
    rw [heq] at hnodes
    exact ⟨fun h => (by cases h), fun h => (by cases h), fun h => (by cases h),
      fun h => (by cases h), hnodes⟩

/-- Whole coefficients are not merely nearly whole. -/
theorem eq_of_abs_sub_lt {c n : Int} (h : |(c : Rat) - n| < 1e-12) : (c : Rat) = n := by
  have hone : |c - n| < 1 := by
    have hcast : ((|c - n| : Int) : Rat) < 1 := by
      push_cast
      exact h.trans (by norm_num)
    exact_mod_cast hcast
  rw [sub_eq_zero.mp (Int.abs_lt_one_iff.mp hone)]

/-- Two integer variables that share a capacity. -/
def knapsack : Model Rat where
  vars := [⟨"x", .integer, some 0, none⟩, ⟨"y", .integer, some 0, none⟩]
  distinct := by decide
  constraints := [(1, ⟨[(0, 6), (1, 5)], .le, 14⟩)]
  objective := ⟨.maximize, [(0, 5), (1, 4)]⟩

/-- The relaxation would take a fraction of the first variable. -/
theorem knapsack_solved : IsRight (Model.relax .exact 20) knapsack ∧
    (∀ t ∈ knapsack.objective.terms, ∀ n : Int, |t.2 - n| < 1e-12 → t.2 = n) ∧
    ∃ values, (solve (Model.relax .exact 20) ⟨30, 0⟩ knapsack).Carries knapsack
        (fun v => values.getD v 0) ∧
      knapsack.IsIntegralPoint values ∧ ∀ other, knapsack.IsIntegralPoint other →
        ¬ Direction.maximize.Prefers (knapsack.objectiveAt other)
          (knapsack.objectiveAt values) := by
  have hrelax : IsRight (Model.relax .exact 20) knapsack := fun box _ =>
    knapsack.relax_isExact box 20
  have hcoeff : ∀ t ∈ knapsack.objective.terms, ∀ n : Int, |t.2 - n| < 1e-12 → t.2 = n := by
    intro t ht n
    simp only [knapsack, List.mem_cons, List.not_mem_nil, or_false] at ht
    rcases ht with rfl | rfl
    · exact eq_of_abs_sub_lt (c := 5)
    · exact eq_of_abs_sub_lt (c := 4)
  exact ⟨hrelax, hcoeff,
    (solve_correct (Model.relax .exact 20) knapsack 30 hrelax hcoeff).2.1 (by decide +kernel)⟩

end BranchAndBound

end CyclePlan
