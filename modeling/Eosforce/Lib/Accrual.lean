import Mathlib.Tactic.Ring

/-!
# Lazily settled accruals

A quantity that grows by a rate with every unit of time, kept as its value at the last settlement.

* `Accrual.value t`: the quantity at time `t`.
* `Accrual.addRate t d`: settled at `t`, and growing by `d` more from then on (`value_addRate`).
* `Accrual.drop t x`: settled at `t`, with `x` taken out (`value_drop`).
* `Accrual.reset t`: nothing accrued at `t` (`value_reset`).

Two accruals with the same changes of rate stay apart by a constant, so an inequality between one
accrual and a sum of others survives every settlement, whoever settles when.
-/

namespace Accruals

/-- A rate, the value at the last settlement and its time. -/
structure Accrual where
  rate : Int
  base : Int
  since : Nat

namespace Accrual

/-- The quantity at time `t`. -/
def value (a : Accrual) (t : Nat) : Int := a.rate * ((t : Int) - a.since) + a.base

/-- Settled at `t`, growing by `d` more from then on. -/
def addRate (a : Accrual) (t : Nat) (d : Int) : Accrual := ⟨a.rate + d, a.value t, t⟩

/-- Settled at `t`, with `x` taken out. -/
def drop (a : Accrual) (t : Nat) (x : Int) : Accrual := ⟨a.rate, a.value t - x, t⟩

/-- Nothing accrued at `t`. -/
def reset (a : Accrual) (t : Nat) : Accrual := ⟨a.rate, 0, t⟩

theorem value_addRate (a : Accrual) (t u : Nat) (d : Int) :
    (a.addRate t d).value u = a.value u + d * ((u : Int) - t) := by
  simp only [Accrual.value, addRate]; ring

theorem value_drop (a : Accrual) (t u : Nat) (x : Int) : (a.drop t x).value u = a.value u - x := by
  simp only [Accrual.value, drop]; ring

theorem value_reset (a : Accrual) (t u : Nat) : (a.reset t).value u = a.value u - a.value t := by
  simp only [Accrual.value, reset]; ring

/-- The growth between two times. -/
theorem value_sub (a : Accrual) (t u : Nat) : a.value u - a.value t = a.rate * ((u : Int) - t) := by
  simp only [Accrual.value]; ring

/-- With a rate that is not negative, the quantity does not shrink. -/
theorem value_mono {a : Accrual} (hr : 0 ≤ a.rate) {t u : Nat} (h : t ≤ u) :
    a.value t ≤ a.value u := by
  have hs := value_sub a t u
  have hp : 0 ≤ a.rate * ((u : Int) - t) := Int.mul_nonneg hr (by omega)
  omega

end Accrual

end Accruals
