import Mathlib.Tactic.Linarith
import Mathlib.Tactic.Ring

/-!
# Shares of an amount

An amount `p` that is paid out by weights: the share of a weight `x` of a total `t` is `p * x / t`,
rounded down.

* `share_nonneg`, `share_le`: a share is not negative and at most the amount.
* `share_rest`: once another share is paid, and its weight taken off the total, the share of the rest
  is the same or one more. So the order in which two weights are paid changes either payment by at
  most one.
-/

namespace Shares

/-- The share of weight `x` of a total weight `t`. -/
def share (p x t : Int) : Int := p * x / t

variable {p x y t : Int}

theorem share_nonneg (hp : 0 ≤ p) (hx : 0 ≤ x) (ht : 0 < t) : 0 ≤ share p x t :=
  Int.ediv_nonneg (Int.mul_nonneg hp hx) ht.le

theorem share_le (hp : 0 ≤ p) (hxt : x ≤ t) (ht : 0 < t) : share p x t ≤ p :=
  Int.ediv_le_of_le_mul ht (Int.mul_le_mul_of_nonneg_left hxt hp)

/-- The rest of the amount, in parts of the total, is the share of the other weights and less than
one unit more. -/
theorem rest_mul (ht : 0 < t) :
    (p - share p x t) * t = p * (t - x) + p * x % t ∧ 0 ≤ p * x % t ∧ p * x % t < t := by
  have hdm := Int.mul_ediv_add_emod (p * x) t
  refine ⟨?_, Int.emod_nonneg _ ht.ne', Int.emod_lt_of_pos _ ht⟩
  unfold share
  linarith

/-- After a share is paid, the share of another weight in the rest is the same or one more. -/
theorem share_rest (hx : 0 ≤ x) (hy : 0 < y) (hxy : x + y ≤ t) :
    share p y t ≤ share (p - share p x t) y (t - x) ∧
      share (p - share p x t) y (t - x) ≤ share p y t + 1 := by
  have ht : 0 < t := by omega
  have htx : 0 < t - x := by omega
  obtain ⟨hrest, hr0, hrt⟩ := rest_mul (p := p) (x := x) ht
  generalize p * x % t = r at *
  generalize p - share p x t = rest at *
  have hq := Int.ediv_mul_le (p * y) ht.ne'
  have hq' := Int.lt_ediv_add_one_mul_self (p * y) ht
  generalize hs : share p y t = s
  have hs' : p * y / t = s := hs
  rw [hs'] at hq hq'
  -- the rest counted in parts of the total: its share is that of the amount and a part of `r`
  have hscale : rest * y * t = p * y * (t - x) + r * y := by
    calc rest * y * t = rest * t * y := by ring
      _ = (p * (t - x) + r) * y := by rw [hrest]
      _ = p * y * (t - x) + r * y := by ring
  constructor
  · refine Int.le_ediv_of_mul_le htx (le_of_mul_le_mul_right ?_ ht)
    calc s * (t - x) * t = s * t * (t - x) := by ring
      _ ≤ p * y * (t - x) := Int.mul_le_mul_of_nonneg_right hq htx.le
      _ ≤ p * y * (t - x) + r * y := by
        have := Int.mul_nonneg hr0 hy.le
        omega
      _ = rest * y * t := hscale.symm
  · refine Int.lt_add_one_iff.mp (Int.ediv_lt_of_lt_mul htx (lt_of_mul_lt_mul_right ?_ ht.le))
    calc rest * y * t = p * y * (t - x) + r * y := hscale
      _ < (s + 1) * t * (t - x) + r * y := by
        have := Int.mul_lt_mul_of_pos_right hq' htx
        omega
      _ ≤ (s + 1) * t * (t - x) + t * (t - x) := by
        have := Int.mul_le_mul hrt.le (show y ≤ t - x by omega) hy.le ht.le
        omega
      _ = (s + 1 + 1) * (t - x) * t := by ring

end Shares
