import Eosforce.System.Rounds

/-!
# The drained blocks of a settlement

What `cal_drain_num` computes for all counts, against the blocks that a producer of the round owes.

* `owedBlocks`: a block, one more within the cycle from `ifirst` to `ilast`, one less at a change of
  the schedule.
* `calDrainNum_eq`: the charge is a block unless the producer made exactly what it owes, modulo
  `2 ^ 32`.
* `calDrainNum_iff`: the charge is what is missing, between 0 and 1, exactly for a producer that
  made no more than it owes.
-/

namespace Eosforce.System

/-! ## What a producer owes -/

/-- The index is among those from `ifirst` to before `ilast`, cyclically. -/
def InCycle (ifirst ilast index : Nat) : Prop :=
  (index + numOfTopBps - ifirst) % numOfTopBps < (ilast + numOfTopBps - ifirst) % numOfTopBps

instance (f l i : Nat) : Decidable (InCycle f l i) := inferInstanceAs (Decidable (_ < _))

/-- The two textual cases of `cal_drain_num` are the cyclic interval. -/
theorem inArc_iff_inCycle {f l i : Nat} (hf : f < numOfTopBps) (hl : l < numOfTopBps)
    (hi : i < numOfTopBps) : InArc f l i ↔ InCycle f l i := by
  unfold InArc InCycle
  have h23 : numOfTopBps = 23 := rfl
  rw [h23] at hf hl hi ⊢
  omega

/-- The blocks that a producer owes for the round. -/
def owedBlocks (isChangeSch : Bool) (index ifirst ilast : Nat) : Int :=
  bpCycleBlockOut + (if InCycle ifirst ilast index then 1 else 0) -
    if isChangeSch ∧ ifirst ≠ ilast then 1 else 0

theorem owedBlocks_range (ch : Bool) (i f l : Nat) :
    0 ≤ owedBlocks ch i f l ∧ owedBlocks ch i f l ≤ 2 := by
  have h1 : bpCycleBlockOut = 1 := rfl
  unfold owedBlocks
  split <;> split <;> omega

/-! ## The arithmetic of `cal_drain_num` -/

theorem i32_u32sub (a b : Nat) : i32 (u32sub a b) = i32 ((a : Int) - b) := by
  unfold i32 u32sub u32OfInt
  rw [Int.toNat_of_nonneg (by omega)]
  exact Int.emod_bmod ..

theorem i32_i32_sub (x y : Int) : i32 (i32 x - y) = i32 (x - y) := Int.bmod_sub_bmod

/-- The two clamps: the first one compares as `uint32_t`, so a negative number is one block. -/
theorem bound_i32 (x : Int) :
    (if (if u32OfInt (i32 x) > bpCycleBlockOut then (bpCycleBlockOut : Int) else i32 x) < 0 then 0
      else if u32OfInt (i32 x) > bpCycleBlockOut then (bpCycleBlockOut : Int) else i32 x) =
      if u32OfInt x = 0 then 0 else 1 := by
  have h1 : bpCycleBlockOut = 1 := rfl
  have hmod : u32OfInt (i32 x) = u32OfInt x := by
    unfold u32OfInt i32
    rw [show ((2 : Int) ^ 32) = ((2 ^ 32 : Nat) : Int) from rfl, Int.bmod_emod]
  rw [hmod, h1]
  rcases Nat.lt_or_ge 1 (u32OfInt x) with hbig | hsmall
  · rw [if_pos hbig, if_neg (by omega), if_neg (by omega)]
    rfl
  · -- 0 and 1 are the same number as an `int32_t`
    have hval : i32 x = u32OfInt x := by
      rw [← hmod] at hsmall ⊢
      have hlow : -2 ^ 31 ≤ i32 x := Int.le_bmod (by decide)
      have hhigh : i32 x < 2 ^ 31 := Int.bmod_lt (by decide)
      unfold u32OfInt at hsmall ⊢
      omega
    rw [if_neg (Nat.not_lt.mpr hsmall), hval]
    split <;> omega

/-- A settlement charges at most one block. -/
theorem calDrainNum_le (ch : Bool) (i f l pre cur : Nat) : calDrainNum ch i f l pre cur ≤ 1 := by
  have harc : ∀ x, ∃ y, (if f ≤ i ∧ i < l then i32 (i32 x + 1)
      else if f > l ∧ (f ≤ i ∨ i < l) then i32 (i32 x + 1) else i32 x) = i32 y := fun x => by
    split
    · exact ⟨_, rfl⟩
    · split <;> exact ⟨_, rfl⟩
  have hchange : ∀ x, ∃ y, (if ch ∧ f ≠ l then i32 (i32 x - 1) else i32 x) = i32 y := fun x => by
    split <;> exact ⟨_, rfl⟩
  obtain ⟨y, hy⟩ := harc (u32sub (pre + bpCycleBlockOut) cur)
  obtain ⟨z, hz⟩ := hchange y
  unfold calDrainNum
  simp only [hy, hz, bound_i32]
  split <;> decide

/-- A settlement charges a block exactly if the producer did not make the blocks that it owes. -/
theorem calDrainNum_eq {ch : Bool} {i f l : Nat} (hi : i < numOfTopBps) (hf : f < numOfTopBps)
    (hl : l < numOfTopBps) (pre cur : Nat) :
    calDrainNum ch i f l pre cur =
      if u32OfInt (owedBlocks ch i f l - ((cur : Int) - pre)) = 0 then 0 else 1 := by
  have harc : ∀ x : Int, (if f ≤ i ∧ i < l then i32 (i32 x + 1)
      else if f > l ∧ (f ≤ i ∨ i < l) then i32 (i32 x + 1) else i32 x) =
      i32 (x + if InCycle f l i then 1 else 0) := by
    intro x
    rw [← ite_or, i32_i32_add]
    refine (if_congr (inArc_iff_inCycle hf hl hi) rfl rfl).trans ?_
    split
    · rfl
    · rw [Int.add_zero]
  have hchange : ∀ x : Int, (if ch ∧ f ≠ l then i32 (i32 x - 1) else i32 x) =
      i32 (x - if ch ∧ f ≠ l then 1 else 0) := by
    intro x
    split
    · exact i32_i32_sub x 1
    · rw [Int.sub_zero]
  unfold calDrainNum
  simp only [i32_u32sub, harc, hchange, bound_i32]
  unfold owedBlocks
  congr 3
  push_cast
  ring

/-! ## The claim of the formula -/

/-- For counts below `2 ^ 31`, a settlement charges what the producer owes and did not make, at least
nothing and at most a block, exactly if the producer made no more than it owes. -/
theorem calDrainNum_iff {ch : Bool} {i f l pre cur : Nat} (hi : i < numOfTopBps)
    (hf : f < numOfTopBps) (hl : l < numOfTopBps) (hpre : pre < 2 ^ 31) (hcur : cur < 2 ^ 31) :
    calDrainNum ch i f l pre cur =
        max 0 (min 1 (owedBlocks ch i f l - ((cur : Int) - pre))) ↔
      (cur : Int) - pre ≤ owedBlocks ch i f l := by
  obtain ⟨h0, h2⟩ := owedBlocks_range ch i f l
  rw [calDrainNum_eq hi hf hl]
  generalize owedBlocks ch i f l = e at *
  have hzero : u32OfInt (e - ((cur : Int) - pre)) = 0 ↔ e - ((cur : Int) - pre) = 0 := by
    unfold u32OfInt
    omega
  rw [if_congr hzero rfl rfl]
  constructor
  · intro h
    split at h <;> omega
  · intro h
    split <;> omega

/-- A producer that made one of the two blocks that it owes is charged the other one. -/
theorem calDrainNum_iff_owing :
    calDrainNum false 5 3 7 10 11 = max 0 (min 1 (owedBlocks false 5 3 7 - (11 - 10))) ∧
      (11 : Int) - 10 ≤ owedBlocks false 5 3 7 :=
  have h : (11 : Int) - 10 ≤ owedBlocks false 5 3 7 := by decide
  ⟨(calDrainNum_iff (by decide) (by decide) (by decide) (by decide) (by decide)).mpr h, h⟩

/-- At a change of the schedule, a producer that owes nothing and made a block is charged one. -/
theorem block_of_more_charged :
    ¬∀ (ch : Bool) (i f l pre cur : Nat), i < numOfTopBps → f < numOfTopBps → l < numOfTopBps →
      pre < 2 ^ 31 → cur < 2 ^ 31 →
      calDrainNum ch i f l pre cur = max 0 (min 1 (owedBlocks ch i f l - ((cur : Int) - pre))) := by
  intro h
  have hfail := h true 5 3 4 7 8 (by decide) (by decide) (by decide) (by decide) (by decide)
  exact absurd hfail (by decide)

end Eosforce.System
