import CyclePlan.Engine.Discipline
import CyclePlan.Proofs.Graph.Consistency
import CyclePlan.Resource.TimeIndexed

/-!
# What Variables Are Called

The names that are made up for variables, and that no two of them are the same.

A variable stands for something: the start of a node, an interval, the latency, or
that a node starts in a cycle. Its name is put together from what it stands for, and
the name of a node is any text at all, digits and underscores included. Still a name
can be read in one way only. How it begins tells what sort of variable it is. A
timing variable is a prefix and the node. An activation is a prefix, the node and
the cycle, and the cycle is written in digits, so the last underscore of the name is
the one before the cycle and what precedes it is the node.

## Main definitions

* `Role`: What a variable stands for.
* `Role.var`: What it is called.

## Theorems

* `startVar_injective`, `startVar_ne`: Timing variables and others.
* `startsAtVar_inj`: Activations tell nodes and cycles apart.
* `Role.var_injective`: No two roles share a name.
-/

namespace CyclePlan

/-! ### Starts and intervals -/

theorem toList_startVar (node : String) : (startVar node).toList = 's' :: 'v' :: node.toList := by
  change ("sv" ++ node).toList = _
  rw [String.toList_append]
  rfl

theorem startVar_injective : Function.Injective startVar := by
  intro a b h
  have hlist := congrArg String.toList h
  rw [toList_startVar, toList_startVar] at hlist
  exact String.toList_inj.mp (List.cons.inj (List.cons.inj hlist).2).2

/-- A name that begins with another letter is not that of a timing variable. -/
theorem startVar_ne {name : String} (h : name.toList.head? ≠ some 's') (node : String) :
    startVar node ≠ name := by
  intro heq
  rw [← heq, toList_startVar] at h
  exact h rfl

theorem startVar_ne_intervalVar (node : String) : startVar node ≠ intervalVar :=
  startVar_ne (by decide) node

theorem startVar_ne_maxIntervalVar (node : String) : startVar node ≠ maxIntervalVar :=
  startVar_ne (by decide) node

theorem toList_blockIntervalVar (b : Nat) :
    (blockIntervalVar b).toList = 'I' :: 'I' :: '_' :: Nat.toDigits 10 b := by
  change ("II_" ++ toString b).toList = _
  rw [Nat.toString_eq_ofList_toDigits]
  simp

theorem blockIntervalVar_ne {name : String} (h : name.toList.take 3 ≠ ['I', 'I', '_']) (b : Nat) :
    blockIntervalVar b ≠ name := by
  intro heq
  rw [← heq, toList_blockIntervalVar] at h
  exact h rfl

theorem blockIntervalVar_injective : Function.Injective blockIntervalVar := by
  intro a b h
  have hlist := congrArg String.toList h
  rw [toList_blockIntervalVar, toList_blockIntervalVar] at hlist
  exact toDigits_inj (List.cons.inj (List.cons.inj (List.cons.inj hlist).2).2).2

theorem startVar_ne_blockIntervalVar (node : String) (b : Nat) :
    startVar node ≠ blockIntervalVar b := by
  refine startVar_ne ?_ node
  rw [toList_blockIntervalVar]
  intro h
  cases h

theorem startVar_ne_maxLatencyVar (node : String) : startVar node ≠ maxLatencyVar :=
  startVar_ne (by decide) node

/-! ### Activations -/

theorem toList_startsAtVar (node : String) (t : Nat) :
    (startsAtVar node t).toList = 'x' :: '_' :: (node.toList ++ '_' :: Nat.toDigits 10 t) := by
  change ("x_" ++ node ++ "_" ++ toString t).toList = _
  rw [Nat.toString_eq_ofList_toDigits]
  simp

/-- The digits of a cycle are what comes before the first underscore. -/
theorem takeWhile_digits (t : Nat) (rest : List Char) :
    ((Nat.toDigits 10 t).reverse ++ '_' :: rest).takeWhile (· != '_')
      = (Nat.toDigits 10 t).reverse := by
  have hdigits : ∀ c ∈ (Nat.toDigits 10 t).reverse, (c != '_') = true := by
    intro c hc
    have hdigit := Nat.isDigit_of_mem_toDigits (by decide) (Nat.le_refl 10) (List.mem_reverse.mp hc)
    rw [bne_iff_ne]
    rintro rfl
    exact absurd hdigit (by decide)
  rw [List.takeWhile_append_of_pos hdigits, List.takeWhile_cons_of_neg (by decide),
    List.append_nil]

/-- Names tell nodes and cycles apart. -/
theorem startsAtVar_inj {a b : String} {t u : Nat} :
    startsAtVar a t = startsAtVar b u ↔ a = b ∧ t = u := by
  constructor
  · intro h
    have hlist := congrArg String.toList h
    rw [toList_startsAtVar, toList_startsAtVar, List.cons.injEq, List.cons.injEq] at hlist
    -- Read from the end, the cycle comes first.
    have hreverse := congrArg List.reverse hlist.2.2
    simp only [List.reverse_append, List.reverse_cons, List.append_assoc,
      List.singleton_append] at hreverse
    have hdigits := congrArg (List.takeWhile (· != '_')) hreverse
    rw [takeWhile_digits, takeWhile_digits] at hdigits
    rw [hdigits] at hreverse
    have hnode := (List.cons.inj (List.append_cancel_left hreverse)).2
    exact ⟨String.toList_inj.mp (List.reverse_inj.mp hnode),
      toDigits_inj (List.reverse_inj.mp hdigits)⟩
  · rintro ⟨rfl, rfl⟩
    rfl

theorem startVar_ne_startsAtVar (node other : String) (t : Nat) :
    startVar node ≠ startsAtVar other t := by
  refine startVar_ne ?_ node
  rw [toList_startsAtVar]
  intro h
  cases h

/-! ### Roles -/

/-- What a variable stands for. -/
inductive Role where
  /-- The start cycle of a node. -/
  | start (node : String)
  /-- The shared interval. -/
  | interval
  /-- The interval of a block. -/
  | blockInterval (block : Nat)
  /-- The greatest of the intervals. -/
  | maxInterval
  /-- The greatest start cycle of a last node. -/
  | maxLatency
  /-- That a node starts in a cycle. -/
  | startsAt (node : String) (cycle : Nat)
  deriving DecidableEq, Repr

namespace Role

/-- What a variable is called. -/
def var : Role → String
  | start node => startVar node
  | interval => intervalVar
  | blockInterval block => blockIntervalVar block
  | maxInterval => maxIntervalVar
  | maxLatency => maxLatencyVar
  | startsAt node cycle => startsAtVar node cycle

theorem toList_var (r : Role) :
    r.var.toList =
      match r with
      | start node => 's' :: 'v' :: node.toList
      | interval => ['I', 'I']
      | blockInterval b => 'I' :: 'I' :: '_' :: Nat.toDigits 10 b
      | maxInterval => ['m', 'a', 'x', '_', 'I', 'I']
      | maxLatency => ['m', 'a', 'x', '_', 'l', 'a', 't', 'e', 'n', 'c', 'y']
      | startsAt node t => 'x' :: '_' :: (node.toList ++ '_' :: Nat.toDigits 10 t) := by
  cases r with
  | start node => exact toList_startVar node
  | interval => decide
  | blockInterval b => exact toList_blockIntervalVar b
  | maxInterval => decide
  | maxLatency => decide
  | startsAt node t => exact toList_startsAtVar node t

/-- No two roles share a name, whatever the nodes are called. -/
theorem var_injective : Function.Injective var := by
  intro a b h
  have hlist := congrArg String.toList h
  rw [toList_var, toList_var] at hlist
  -- Roles of different sorts have names that begin in different ways.
  cases a with
  | start node =>
      cases b with
      | start other => exact congrArg start (startVar_injective h)
      | _ => simp at hlist
  | interval =>
      cases b with
      | interval => rfl
      | _ => simp at hlist
  | blockInterval block =>
      cases b with
      | blockInterval other => exact congrArg blockInterval (blockIntervalVar_injective h)
      | _ => simp at hlist
  | maxInterval =>
      cases b with
      | maxInterval => rfl
      | _ => simp at hlist
  | maxLatency =>
      cases b with
      | maxLatency => rfl
      | _ => simp at hlist
  | startsAt node t =>
      cases b with
      | startsAt other u =>
          rcases startsAtVar_inj.mp h with ⟨rfl, rfl⟩
          rfl
      | _ => simp at hlist

end Role

end CyclePlan
