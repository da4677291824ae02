import Eosforce.Lib.Accrual
import Mathlib.Algebra.BigOperators.Intervals
import Mathlib.Algebra.Order.BigOperators.Group.Finset
import Mathlib.Data.List.Induction
import Mathlib.Order.Interval.Finset.Nat

/-!
# Histories of amounts that accrue

The model that a lazily settled accrual (`Lib/Accrual.lean`) stands for: a history of entries, each
at a time, in which an amount is changed, what has accrued is reset, or a part of it is taken. With
every unit of time the amount held in it accrues, `unit` of it.

* `amountAt`, `lastReset`, `taken`, `heldSum`: what a history says, time by time.
* `InOrder`: entries at non-decreasing times.
* `Follows`: an accrual is settled up to the end of a history. Settling it with each entry keeps
  that (`Follows.change`, `Follows.clear`, `Follows.take`), and its value is the sum
  (`Follows.value`).
* `heldSum_capped`: a history whose times stop at a cap sums up the times before the cap.
-/

namespace Accruals

/-- A change of an amount: to a new amount, or by a difference. -/
inductive Update where
  | to (x : Int)
  | by (x : Int)

/-- The changed amount. -/
def Update.of : Update → Int → Int
  | .to x, _ => x
  | .by x, y => y + x

/-- An entry of a history. -/
inductive Entry where
  | change (c : Update)
  | reset
  | take (x : Int)

/-- The amount after an entry. -/
def Entry.amount : Entry → Int → Int
  | .change c, x => c.of x
  | .reset, x => x
  | .take _, x => x

/-- Entries with their times. -/
abbrev History := List (Nat × Entry)

/-- The amount held at time `k`: after the entries up to `k`. -/
def amountAt (hist : History) (k : Nat) : Int :=
  hist.foldl (fun x e => if e.1 ≤ k then e.2.amount x else x) 0

/-- The time of the last reset, 0 without one. -/
def lastReset (hist : History) : Nat :=
  hist.foldl (fun t e => match e.2 with
    | .reset => e.1
    | _ => t) 0

/-- What was taken since the last reset. -/
def taken (hist : History) : Int :=
  hist.foldl (fun x e => match e.2 with
    | .reset => 0
    | .take y => x + y
    | .change _ => x) 0

/-- What accrues from the last reset to time `h`. -/
def heldSum (unit : Int → Int) (hist : History) (h : Nat) : Int :=
  ∑ k ∈ Finset.Ico (lastReset hist) h, unit (amountAt hist k)

/-- From time `t` to time `h`, the entries are at non-decreasing times. -/
def InOrder {α : Type} (t : Nat) : List (Nat × α) → Nat → Prop
  | [], h => t ≤ h
  | e :: evs, h => t ≤ e.1 ∧ InOrder e.1 evs h

variable {unit : Int → Int} {hist : History} {a : Accrual} {x : Int} {t h : Nat}

theorem InOrder.snoc {α : Type} {evs : List (Nat × α)} {e : Nat × α}
    (ho : InOrder t (evs ++ [e]) h) : InOrder t evs e.1 ∧ e.1 ≤ h := by
  induction evs generalizing t with
  | nil => exact ho
  | cons e' evs ih => exact ⟨⟨ho.1, (ih ho.2).1⟩, (ih ho.2).2⟩

theorem InOrder.le {α : Type} {evs : List (Nat × α)} (ho : InOrder t evs h) : t ≤ h := by
  induction evs generalizing t with
  | nil => exact ho
  | cons e' evs ih => exact ho.1.trans (ih ho.2)

@[simp] theorem amountAt_snoc (hist : History) (t : Nat) (e : Entry) (k : Nat) :
    amountAt (hist ++ [(t, e)]) k =
      if t ≤ k then e.amount (amountAt hist k) else amountAt hist k := by
  simp only [amountAt, List.foldl_append, List.foldl_cons, List.foldl_nil]

@[simp] theorem lastReset_change (hist : History) (t : Nat) (c : Update) :
    lastReset (hist ++ [(t, .change c)]) = lastReset hist := by
  simp only [lastReset, List.foldl_append, List.foldl_cons, List.foldl_nil]

@[simp] theorem lastReset_reset (hist : History) (t : Nat) :
    lastReset (hist ++ [(t, .reset)]) = t := by
  simp only [lastReset, List.foldl_append, List.foldl_cons, List.foldl_nil]

@[simp] theorem lastReset_take (hist : History) (t : Nat) (y : Int) :
    lastReset (hist ++ [(t, .take y)]) = lastReset hist := by
  simp only [lastReset, List.foldl_append, List.foldl_cons, List.foldl_nil]

@[simp] theorem taken_change (hist : History) (t : Nat) (c : Update) :
    taken (hist ++ [(t, .change c)]) = taken hist := by
  simp only [taken, List.foldl_append, List.foldl_cons, List.foldl_nil]

@[simp] theorem taken_reset (hist : History) (t : Nat) : taken (hist ++ [(t, .reset)]) = 0 := by
  simp only [taken, List.foldl_append, List.foldl_cons, List.foldl_nil]

@[simp] theorem taken_take (hist : History) (t : Nat) (y : Int) :
    taken (hist ++ [(t, .take y)]) = taken hist + y := by
  simp only [taken, List.foldl_append, List.foldl_cons, List.foldl_nil]

/-- Nothing is taken in a history of changes and resets. -/
theorem taken_eq_zero (hn : ∀ e ∈ hist, ∀ y, e.2 ≠ .take y) : taken hist = 0 := by
  induction hist using List.reverseRecOn with
  | nil => rfl
  | append_singleton hist e ih =>
    have ih := ih fun e he => hn e (List.mem_append_left _ he)
    obtain ⟨t, e⟩ := e
    cases e with
    | change c => rw [taken_change, ih]
    | reset => exact taken_reset hist t
    | take y => exact absurd rfl (hn _ (List.mem_append_right _ (List.mem_singleton_self _)) y)

/-- An entry changes nothing of the times before it. -/
theorem sum_amountAt_snoc (hist : History) (t : Nat) (e : Entry) (r : Nat) :
    ∑ k ∈ Finset.Ico r t, unit (amountAt (hist ++ [(t, e)]) k) =
      ∑ k ∈ Finset.Ico r t, unit (amountAt hist k) := by
  refine Finset.sum_congr rfl fun k hk => ?_
  have hlt := (Finset.mem_Ico.mp hk).2
  rw [amountAt_snoc, if_neg (by omega)]

/-! ## Settled histories -/

/-- The accrual `a` is settled up to the end of a history, in which the amount held last is `x`. -/
structure Follows (unit : Int → Int) (hist : History) (x : Int) (a : Accrual) : Prop where
  held : ∀ k, a.since ≤ k → amountAt hist k = x
  rate : a.rate = unit x
  reset : lastReset hist ≤ a.since
  base : a.base = heldSum unit hist a.since - taken hist

/-- A settled accrual is at every later time what its history says. -/
theorem Follows.value (hf : Follows unit hist x a) (ht : a.since ≤ t) :
    a.value t = heldSum unit hist t - taken hist := by
  have hsplit := Finset.sum_Ico_consecutive (fun k => unit (amountAt hist k)) hf.reset ht
  have hlater : ∑ k ∈ Finset.Ico a.since t, unit (amountAt hist k) =
      a.rate * ((t : Int) - a.since) := by
    have hc : ∀ k ∈ Finset.Ico a.since t, unit (amountAt hist k) = a.rate := fun k hk => by
      rw [hf.held k (Finset.mem_Ico.mp hk).1, hf.rate]
    rw [Finset.sum_congr rfl hc, Finset.sum_const, Nat.card_Ico, nsmul_eq_mul, Nat.cast_sub ht]
    ring
  have hb := hf.base
  unfold heldSum at hb ⊢
  unfold Accrual.value
  omega

/-- Nothing has happened. -/
theorem Follows.start (hu : unit 0 = 0) (t : Nat) : Follows unit [] 0 ⟨0, 0, t⟩ where
  held _ _ := rfl
  rate := hu.symm
  reset := Nat.zero_le _
  base := by
    have h0 : heldSum unit [] t = 0 := Finset.sum_eq_zero fun _ _ => hu
    rw [h0]; rfl

/-- From an entry on, the amount is the one after it. -/
theorem Follows.held_snoc (hf : Follows unit hist x a) (ht : a.since ≤ t) (e : Entry) :
    ∀ k, t ≤ k → amountAt (hist ++ [(t, e)]) k = e.amount x := by
  intro k hk
  rw [amountAt_snoc, if_pos hk, hf.held k (ht.trans hk)]

theorem Follows.change (hf : Follows unit hist x a) (ht : a.since ≤ t) (c : Update) :
    Follows unit (hist ++ [(t, .change c)]) (c.of x) (a.addRate t (unit (c.of x) - unit x)) where
  held := hf.held_snoc ht _
  rate := by
    simp only [Accrual.addRate, hf.rate]
    omega
  reset := by
    rw [lastReset_change]
    exact hf.reset.trans ht
  base := by
    have hv := hf.value ht
    simp only [Accrual.addRate, heldSum, lastReset_change, taken_change, sum_amountAt_snoc] at hv ⊢
    exact hv

theorem Follows.clear (hf : Follows unit hist x a) (ht : a.since ≤ t) :
    Follows unit (hist ++ [(t, .reset)]) x (a.reset t) where
  held := hf.held_snoc ht _
  rate := hf.rate
  reset := (lastReset_reset hist t).le
  base := by
    simp only [Accrual.reset, heldSum, lastReset_reset, Finset.Ico_self, Finset.sum_empty,
      taken_reset, Int.sub_zero]

theorem Follows.take (hf : Follows unit hist x a) (ht : a.since ≤ t) (y : Int) :
    Follows unit (hist ++ [(t, .take y)]) x (a.drop t y) where
  held := hf.held_snoc ht _
  rate := hf.rate
  reset := by
    rw [lastReset_take]
    exact hf.reset.trans ht
  base := by
    have hv := hf.value ht
    simp only [Accrual.drop, heldSum, lastReset_take, taken_take, sum_amountAt_snoc] at hv ⊢
    omega

/-! ## Histories with a cap -/

/-- The history with every time after `w` moved to `w`. -/
def capped (w : Nat) (hist : History) : History := hist.map fun e => (min e.1 w, e.2)

theorem capped_snoc (w : Nat) (hist : History) (t : Nat) (e : Entry) :
    capped w (hist ++ [(t, e)]) = capped w hist ++ [(min t w, e)] := by
  simp only [capped, List.map_append, List.map_cons, List.map_nil]

theorem lastReset_capped (w : Nat) (hist : History) :
    lastReset (capped w hist) = min (lastReset hist) w := by
  induction hist using List.reverseRecOn with
  | nil => exact (Nat.zero_min w).symm
  | append_singleton hist e ih =>
    obtain ⟨t, e⟩ := e
    rw [capped_snoc]
    cases e with
    | change c => rw [lastReset_change, lastReset_change, ih]
    | reset => rw [lastReset_reset, lastReset_reset]
    | take y => rw [lastReset_take, lastReset_take, ih]

/-- Before the cap, the amounts held are the same. -/
theorem amountAt_capped {w k : Nat} (hk : k < w) (hist : History) :
    amountAt (capped w hist) k = amountAt hist k := by
  induction hist using List.reverseRecOn with
  | nil => rfl
  | append_singleton hist e ih =>
    obtain ⟨t, e⟩ := e
    have hiff : min t w ≤ k ↔ t ≤ k := by omega
    rw [capped_snoc, amountAt_snoc, amountAt_snoc, ih]
    simp only [hiff]

/-- A capped history sums up the times before the cap. -/
theorem heldSum_capped (unit : Int → Int) (w : Nat) (hist : History) (h : Nat) :
    heldSum unit (capped w hist) (min h w) =
      ∑ k ∈ (Finset.Ico (lastReset hist) h).filter (· < w), unit (amountAt hist k) := by
  have hset : Finset.Ico (lastReset (capped w hist)) (min h w) =
      (Finset.Ico (lastReset hist) h).filter (· < w) := by
    rw [lastReset_capped]
    ext k
    simp only [Finset.mem_Ico, Finset.mem_filter]
    omega
  unfold heldSum
  rw [hset]
  refine Finset.sum_congr rfl fun k hk => ?_
  rw [amountAt_capped (Finset.mem_filter.mp hk).2]

end Accruals
