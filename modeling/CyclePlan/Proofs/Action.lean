/-!
# Performing Actions

What an action does to the state it is performed on.

Models, engines, handles and trials are all changed by actions of one shape: an
answer or a refusal, over a state that keeps what was done before a refusal. A
statement about such an action has to name both results, so the action is
opened here once, for every error and every state, and the rest of the theory
cites the equations instead of unfolding the monads.

Two ways of reasoning follow. `perform_bind_ok_iff` cuts a run that succeeded
into the runs of its parts, which is how the result of a call is computed.
`Moves` speaks about all runs, refused ones included: a relation between states
that every part respects is respected by the whole.

## Main definitions

* `perform`: The answer of an action and the state it leaves.
* `Moves`: Every run of an action respects a relation between states.

## Theorems

* `perform_bind_ok_iff`: A sequence succeeds exactly if both parts do.
* `perform_forM_cons_ok_iff`: The same for a loop over a list.
* `perform_bind_error_iff`, `exists_round_of_forM_error`, `exists_round_of_range_error`:
  Where they are refused.
* `forIn_yield`, `forM_range_induction`: Loops over a list, and what counting ones preserve.
* `exists_perform_mapM`, `mapM_ok_iff`: A loop that collects answers succeeds if its
  rounds do, and what it collects.
* `Moves.bind`, `Moves.forM`, `Moves.mapM`: Relations are respected by sequences and loops.
-/

namespace CyclePlan

variable {ε ε' σ β γ : Type}

/-- What an action answers and the state it leaves behind. -/
def perform (act : ExceptT ε (StateM σ) β) (s : σ) : Except ε β × σ :=
  Id.run (act.run.run s)

@[simp] theorem perform_pure (b : β) (s : σ) :
    perform (pure b : ExceptT ε (StateM σ) β) s = (.ok b, s) := rfl

@[simp] theorem perform_throw (e : ε) (s : σ) :
    perform (throw e : ExceptT ε (StateM σ) β) s = (.error e, s) := rfl

@[simp] theorem perform_get (s : σ) :
    perform (get : ExceptT ε (StateM σ) σ) s = (.ok s, s) := rfl

@[simp] theorem perform_set (s t : σ) :
    perform (set t : ExceptT ε (StateM σ) PUnit) s = (.ok ⟨⟩, t) := rfl

@[simp] theorem perform_modify (f : σ → σ) (s : σ) :
    perform (modify f : ExceptT ε (StateM σ) PUnit) s = (.ok ⟨⟩, f s) := rfl

/-- An answer that is there was not refused. -/
theorem eq_ok_of_toOption {x : Except ε β} {b : β} (h : x.toOption = some b) : x = .ok b := by
  cases x with
  | error _ => cases h
  | ok _ =>
      cases h
      rfl

/-- So an action that has an answer was accepted, in some state. -/
theorem exists_perform_of_toOption {act : ExceptT ε (StateM σ) β} {s : σ} {b : β}
    (h : (perform act s).1.toOption = some b) : ∃ t, perform act s = (.ok b, t) :=
  ⟨_, Prod.ext (eq_ok_of_toOption h) rfl⟩

/-- An answer that is not there was refused. -/
theorem exists_error_of_toOption {x : Except ε β} (h : x.toOption = none) :
    ∃ e, x = .error e := by
  cases x with
  | error e => exact ⟨e, rfl⟩
  | ok _ => cases h

/-- A sequence goes on with the answer of its first part, or stops there. -/
theorem perform_bind (act : ExceptT ε (StateM σ) β) (next : β → ExceptT ε (StateM σ) γ)
    (s : σ) :
    perform (act >>= next) s =
      match perform act s with
      | (.ok b, t) => perform (next b) t
      | (.error e, t) => (.error e, t) := by
  rcases h : perform act s with ⟨answer, t⟩
  change Id.run (StateT.run (ExceptT.bindCont next (perform act s).1) (perform act s).2) = _
  rw [h]
  cases answer with
  | ok b => rfl
  | error e => rfl

theorem perform_bind_of_ok {act : ExceptT ε (StateM σ) β} {b : β} {s t : σ}
    (h : perform act s = (.ok b, t)) (next : β → ExceptT ε (StateM σ) γ) :
    perform (act >>= next) s = perform (next b) t := by
  rw [perform_bind, h]

theorem perform_bind_of_error {act : ExceptT ε (StateM σ) β} {e : ε} {s t : σ}
    (h : perform act s = (.error e, t)) (next : β → ExceptT ε (StateM σ) γ) :
    perform (act >>= next) s = (.error e, t) := by
  rw [perform_bind, h]

/-- What a sequence does depends on the result of its first part only. -/
theorem perform_bind_congr {act act' : ExceptT ε (StateM σ) β} {s t : σ}
    (h : perform act s = perform act' t) (next : β → ExceptT ε (StateM σ) γ) :
    perform (act >>= next) s = perform (act' >>= next) t := by
  rw [perform_bind, perform_bind, h]

/-- A sequence succeeds exactly if both of its parts do. -/
theorem perform_bind_ok_iff {act : ExceptT ε (StateM σ) β}
    {next : β → ExceptT ε (StateM σ) γ} {s u : σ} {c : γ} :
    perform (act >>= next) s = (.ok c, u) ↔
      ∃ b t, perform act s = (.ok b, t) ∧ perform (next b) t = (.ok c, u) := by
  rcases h : perform act s with ⟨answer, t⟩
  cases answer with
  | ok b =>
      rw [perform_bind_of_ok h]
      constructor
      · intro hnext
        exact ⟨b, t, rfl, hnext⟩
      · rintro ⟨b', t', heq, hnext⟩
        cases heq
        exact hnext
  | error e =>
      rw [perform_bind_of_error h]
      constructor
      · intro hfalse
        cases hfalse
      · rintro ⟨b', t', heq, _⟩
        cases heq

/-- A sequence is refused where one of its parts is. -/
theorem perform_bind_error_iff {act : ExceptT ε (StateM σ) β}
    {next : β → ExceptT ε (StateM σ) γ} {s u : σ} {e : ε} :
    perform (act >>= next) s = (.error e, u) ↔
      perform act s = (.error e, u) ∨
        ∃ b t, perform act s = (.ok b, t) ∧ perform (next b) t = (.error e, u) := by
  rcases h : perform act s with ⟨answer, t⟩
  cases answer with
  | ok b =>
      rw [perform_bind_of_ok h]
      constructor
      · intro hnext
        exact .inr ⟨b, t, rfl, hnext⟩
      · rintro (hact | ⟨b', t', heq, hnext⟩)
        · cases hact
        · cases heq
          exact hnext
  | error e' =>
      rw [perform_bind_of_error h]
      simp

/-- What comes after a guard is reached exactly if the guard lets it pass. -/
theorem perform_unless_ok_iff {c : Prop} [Decidable c] {stop : ExceptT ε (StateM σ) β}
    {act : ExceptT ε (StateM σ) γ} {next : β → ExceptT ε (StateM σ) γ} {s u : σ} {d : γ}
    (hstop : ∀ b t, perform stop s ≠ (.ok b, t)) :
    perform (if c then act else stop >>= next) s = (.ok d, u) ↔
      c ∧ perform act s = (.ok d, u) := by
  by_cases hc : c
  · rw [if_pos hc]
    exact ⟨fun h => ⟨hc, h⟩, fun h => h.2⟩
  · rw [if_neg hc]
    constructor
    · intro h
      rcases perform_bind_ok_iff.mp h with ⟨b, t, hb, _⟩
      exact absurd hb (hstop b t)
    · rintro ⟨h, _⟩
      exact absurd h hc

theorem perform_guard_ok_iff {c : Prop} [Decidable c] {stop : ExceptT ε (StateM σ) β}
    {act : ExceptT ε (StateM σ) γ} {next : β → ExceptT ε (StateM σ) γ} {s u : σ} {d : γ}
    (hstop : ∀ b t, perform stop s ≠ (.ok b, t)) :
    perform (if c then stop >>= next else act) s = (.ok d, u) ↔
      ¬ c ∧ perform act s = (.ok d, u) := by
  rw [← perform_unless_ok_iff hstop, ite_not]

@[simp] theorem perform_forM_nil (f : β → ExceptT ε (StateM σ) PUnit) (s : σ) :
    perform (([] : List β).forM f) s = (.ok ⟨⟩, s) := rfl

theorem perform_forM_cons (f : β → ExceptT ε (StateM σ) PUnit) (b : β) (bs : List β) (s : σ) :
    perform ((b :: bs).forM f) s = perform (f b >>= fun _ => bs.forM f) s := rfl

theorem perform_forM_append (f : β → ExceptT ε (StateM σ) PUnit) (bs more : List β) (s : σ) :
    perform ((bs ++ more).forM f) s = perform (bs.forM f >>= fun _ => more.forM f) s :=
  congrArg (perform · s) List.forM_append

/-- A loop succeeds exactly if its first round and the rest do. -/
theorem perform_forM_cons_ok_iff {f : β → ExceptT ε (StateM σ) PUnit} {b : β} {bs : List β}
    {s u : σ} :
    perform ((b :: bs).forM f) s = (.ok ⟨⟩, u) ↔
      ∃ t, perform (f b) s = (.ok ⟨⟩, t) ∧ perform (bs.forM f) t = (.ok ⟨⟩, u) := by
  rw [perform_forM_cons, perform_bind_ok_iff]
  constructor
  · rintro ⟨_, t, h, hrest⟩
    exact ⟨t, h, hrest⟩
  · rintro ⟨t, h, hrest⟩
    exact ⟨⟨⟩, t, h, hrest⟩

/-- A loop that goes through a list to its end is one over the list. -/
theorem forIn_yield (f : β → ExceptT ε (StateM σ) PUnit) (bs : List β) :
    (forIn bs PUnit.unit fun b _ => do
        f b
        pure (ForInStep.yield PUnit.unit)) = bs.forM f := by
  induction bs with
  | nil => rfl
  | cons b bs ih =>
      rw [List.forIn_cons]
      simp only [bind_assoc, pure_bind, ih]
      rfl

/-- What the rounds of a counting loop preserve holds after the last one. -/
theorem forM_range_induction {f : Nat → ExceptT ε (StateM σ) PUnit} {P : Nat → σ → Prop} {n : Nat}
    (hround : ∀ k < n, ∀ s t, P k s → perform (f k) s = (.ok ⟨⟩, t) → P (k + 1) t) {s t : σ}
    (hs : P 0 s) (h : perform ((List.range n).forM f) s = (.ok ⟨⟩, t)) : P n t := by
  induction n generalizing t with
  | zero =>
      cases h
      exact hs
  | succ n ih =>
      rw [List.range_succ, perform_forM_append] at h
      rcases perform_bind_ok_iff.mp h with ⟨_, u, hbefore, hlast⟩
      rcases perform_forM_cons_ok_iff.mp hlast with ⟨w, hround', hnil⟩
      cases hnil
      exact hround n (Nat.lt_succ_self n) u _
        (ih (fun k hk => hround k (Nat.lt_succ_of_lt hk)) hbefore) hround'

/-- A loop is refused in one of its rounds, after those before have succeeded. -/
theorem exists_round_of_forM_error {f : β → ExceptT ε (StateM σ) PUnit} {bs : List β} {s u : σ}
    {e : ε} (h : perform (bs.forM f) s = (.error e, u)) :
    ∃ done b rest t, bs = done ++ b :: rest ∧ perform (done.forM f) s = (.ok ⟨⟩, t) ∧
      perform (f b) t = (.error e, u) := by
  induction bs generalizing s with
  | nil => cases h
  | cons b bs ih =>
      rw [perform_forM_cons] at h
      rcases perform_bind_error_iff.mp h with h | ⟨_, t, hfirst, h⟩
      · exact ⟨[], b, bs, s, rfl, rfl, h⟩
      · rcases ih h with ⟨done, b', rest, t', rfl, hdone, hround⟩
        exact ⟨b :: done, b', rest, t', rfl, perform_forM_cons_ok_iff.mpr ⟨t, hfirst, hdone⟩,
          hround⟩

/-- A counting loop is refused in one of its rounds, after those before have succeeded. -/
theorem exists_round_of_range_error {f : Nat → ExceptT ε (StateM σ) PUnit} {n : Nat} {s u : σ}
    {e : ε} (h : perform ((List.range n).forM f) s = (.error e, u)) :
    ∃ k < n, ∃ t, perform ((List.range k).forM f) s = (.ok ⟨⟩, t) ∧
      perform (f k) t = (.error e, u) := by
  induction n with
  | zero => cases h
  | succ n ih =>
      rw [List.range_succ, perform_forM_append] at h
      rcases perform_bind_error_iff.mp h with hbefore | ⟨_, t, hbefore, hlast⟩
      · rcases ih hbefore with ⟨k, hk, hround⟩
        exact ⟨k, Nat.lt_succ_of_lt hk, hround⟩
      · refine ⟨n, Nat.lt_succ_self n, t, hbefore, ?_⟩
        rw [perform_forM_cons] at hlast
        rcases perform_bind_error_iff.mp hlast with hround | ⟨_, _, _, hnil⟩
        · exact hround
        · cases hnil

/-- A loop that collects answers succeeds if every round does, in every state that the
    rounds before can have led to. -/
theorem exists_perform_mapM {f : β → ExceptT ε (StateM σ) γ} {P : σ → Prop} {bs : List β}
    (hround : ∀ b ∈ bs, ∀ s, P s → ∃ c t, perform (f b) s = (.ok c, t) ∧ P t) {s : σ} (hs : P s) :
    ∃ cs t, perform (bs.mapM f) s = (.ok cs, t) ∧ P t := by
  induction bs generalizing s with
  | nil => exact ⟨[], s, rfl, hs⟩
  | cons b bs ih =>
      rcases hround b List.mem_cons_self s hs with ⟨c, t, hfirst, ht⟩
      rcases ih (fun b' hb' => hround b' (List.mem_cons_of_mem _ hb')) ht with ⟨cs, u, hrest, hu⟩
      refine ⟨c :: cs, u, ?_, hu⟩
      rw [List.mapM_cons, perform_bind_of_ok hfirst, perform_bind_of_ok hrest]
      rfl

/-- Answers that need no state are collected exactly if all of them are there. -/
theorem mapM_ok_iff [Inhabited γ] {f : β → Except ε γ} {bs : List β}
    {cs : List γ} :
    bs.mapM f = .ok cs ↔ ∃ c : β → γ, (∀ b ∈ bs, f b = .ok (c b)) ∧ cs = bs.map c := by
  constructor
  · intro h
    refine ⟨fun b => (f b).toOption.getD default, ?_⟩
    induction bs generalizing cs with
    | nil =>
        cases h
        exact ⟨fun b hb => absurd hb List.not_mem_nil, rfl⟩
    | cons b bs ih =>
        rw [List.mapM_cons] at h
        cases hfirst : f b with
        | error e =>
            rw [hfirst] at h
            cases h
        | ok c =>
            cases hrest : bs.mapM f with
            | error e =>
                rw [hfirst, hrest] at h
                cases h
            | ok rest =>
                rw [hfirst, hrest] at h
                cases h
                rcases ih hrest with ⟨hall, heq⟩
                have hc : (f b).toOption.getD default = c := by
                  rw [hfirst, Except.toOption, Option.getD_some]
                refine ⟨List.forall_mem_cons.mpr (And.intro ?_ hall), ?_⟩
                · change f b = .ok ((f b).toOption.getD default)
                  rw [hc, hfirst]
                · rw [List.map_cons, hc, ← heq]
  · rintro ⟨c, hall, rfl⟩
    induction bs with
    | nil => rfl
    | cons b bs ih =>
        rw [List.forall_mem_cons] at hall
        rw [List.mapM_cons, hall.1, ih hall.2]
        rfl

/-- Renaming the errors of an action changes its refusals and nothing else. -/
theorem perform_adapt (f : ε → ε') (act : ExceptT ε (StateM σ) β) (s : σ) :
    perform (ExceptT.adapt f act) s = ((perform act s).1.mapError f, (perform act s).2) := by
  change Id.run ((Except.mapError f <$> (act : StateM σ _)).run s) = _
  unfold perform
  rcases h : Id.run (act.run.run s) with ⟨answer, t⟩
  change ((fun p : Except ε β × σ => (p.1.mapError f, p.2)) (Id.run (act.run.run s))) = _
  rw [h]

/-- Every run of an action, refused or not, leads to a state that is related to
    the one it started from. -/
def Moves (R : σ → σ → Prop) (act : ExceptT ε (StateM σ) β) : Prop :=
  ∀ s, R s (perform act s).2

namespace Moves

variable {R : σ → σ → Prop}

theorem of_perform {act : ExceptT ε (StateM σ) β} (h : Moves R act) {s t : σ}
    {answer : Except ε β} (hrun : perform act s = (answer, t)) : R s t := by
  have hmove := h s
  rwa [hrun] at hmove

theorem mono {R' : σ → σ → Prop} {act : ExceptT ε (StateM σ) β} (h : Moves R act)
    (hle : ∀ s t, R s t → R' s t) : Moves R' act := fun s => hle _ _ (h s)

theorem pure (hrefl : ∀ s, R s s) (b : β) :
    Moves R (Pure.pure b : ExceptT ε (StateM σ) β) := fun s => hrefl s

theorem throw (hrefl : ∀ s, R s s) (e : ε) :
    Moves R (MonadExcept.throw e : ExceptT ε (StateM σ) β) := fun s => hrefl s

theorem bind (htrans : ∀ s t u, R s t → R t u → R s u) {act : ExceptT ε (StateM σ) β}
    {next : β → ExceptT ε (StateM σ) γ} (h : Moves R act) (hnext : ∀ b, Moves R (next b)) :
    Moves R (act >>= next) := by
  intro s
  have hs := h s
  rcases heq : perform act s with ⟨answer, t⟩
  rw [heq] at hs
  cases answer with
  | ok b =>
      rw [perform_bind_of_ok heq]
      exact htrans _ _ _ hs (hnext b t)
  | error e =>
      rw [perform_bind_of_error heq]
      exact hs

theorem forM (hrefl : ∀ s, R s s) (htrans : ∀ s t u, R s t → R t u → R s u)
    {f : β → ExceptT ε (StateM σ) PUnit} (h : ∀ b, Moves R (f b)) (bs : List β) :
    Moves R (bs.forM f) := by
  induction bs with
  | nil => exact fun s => hrefl s
  | cons b bs ih => exact bind htrans (h b) fun _ => ih

theorem mapM (hrefl : ∀ s, R s s) (htrans : ∀ s t u, R s t → R t u → R s u)
    {f : β → ExceptT ε (StateM σ) γ} (h : ∀ b, Moves R (f b)) (bs : List β) :
    Moves R (bs.mapM f) := by
  induction bs with
  | nil => exact fun s => hrefl s
  | cons b bs ih =>
      rw [List.mapM_cons]
      exact bind htrans (h b) fun _ => bind htrans ih fun _ => Moves.pure hrefl _

theorem adapt {act : ExceptT ε (StateM σ) β} (h : Moves R act) (f : ε → ε') :
    Moves R (ExceptT.adapt f act) := by
  intro s
  rw [perform_adapt]
  exact h s

theorem ite {c : Prop} [Decidable c] {act other : ExceptT ε (StateM σ) β} (h : Moves R act)
    (hother : Moves R other) : Moves R (if c then act else other) := by
  by_cases hc : c
  · rw [if_pos hc]
    exact h
  · rw [if_neg hc]
    exact hother

theorem get (hrefl : ∀ s, R s s) : Moves R (get : ExceptT ε (StateM σ) σ) := fun s => hrefl s

theorem modify {f : σ → σ} (h : ∀ s, R s (f s)) :
    Moves R (modify f : ExceptT ε (StateM σ) PUnit) := fun s => h s

end Moves

end CyclePlan
