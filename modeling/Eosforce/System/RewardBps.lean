import Eosforce.System.Ledger
import Mathlib.Tactic.Linarith

/-!
# The rewards of a block (`reward_bps`)

* `bpReward_le`: what a bp gets is not negative, and at most its part by stake of the
  `BLOCK_REWARD_VOTER + BLOCK_REWARD_BPS_VOTER` units.
* `rewardLoop_spec`: so the `int` sum of the loop does not wrap, and the loop adds as many units to
  the rewards and pools of the bps as its sum says.
* `rewardBps_total`: one call of `reward_bps` creates exactly 45000 units.
-/

namespace Eosforce.System

open Fallible Keyed

variable {env : Env}

/-! ## The shares -/

/-- What a bp gets, its account and its pool together. -/
def bpReward (b : BpInfo) (all : Int) : Int := bpAccountReward b all + bpRewardsPool b all

/-- The units that bps and voters share. -/
def shareReward : Int := blockRewardVoter + blockRewardBpsVoter

theorem stakeShare_nonneg (reward : Nat) {st all : Int} (hst : 0 ≤ st) (hall : 0 < all) :
    0 ≤ stakeShare reward st all :=
  Int.tdiv_nonneg (Int.mul_nonneg (by omega) hst) (by omega)

theorem stakeShare_mul_le (reward : Nat) {st all : Int} (hst : 0 ≤ st) (hall : 0 < all) :
    stakeShare reward st all * all ≤ reward * st := by
  unfold stakeShare
  rw [Int.tdiv_eq_ediv_of_nonneg (Int.mul_nonneg (by omega) hst)]
  exact Int.ediv_mul_le _ (by omega)

/-- The two parts of the voters' share. -/
theorem commission_split {x : Int} {c : Nat} (hx : 0 ≤ x) (hc : c ≤ 10000) :
    0 ≤ (x * c).tdiv 10000 ∧ 0 ≤ (x * (u32sub 10000 c : Int)).tdiv 10000 ∧
      (x * c).tdiv 10000 + (x * (u32sub 10000 c : Int)).tdiv 10000 ≤ x := by
  have hsub : (u32sub 10000 c : Int) = 10000 - c := by
    rw [u32sub_cast hc (by decide)]; rfl
  have h1 : 0 ≤ x * (c : Int) := Int.mul_nonneg hx (by omega)
  have h2 : 0 ≤ x * (10000 - (c : Int)) := Int.mul_nonneg hx (by omega)
  rw [hsub, Int.tdiv_eq_ediv_of_nonneg h1, Int.tdiv_eq_ediv_of_nonneg h2]
  have e : x * (c : Int) + x * (10000 - (c : Int)) = x * 10000 := by ring
  generalize x * (c : Int) = p at *
  generalize x * (10000 - (c : Int)) = q at *
  omega

theorem bpReward_le {b : BpInfo} {all : Int} (hst : 0 ≤ b.totalStaked) (hall : 0 < all)
    (hc : b.commissionRate ≤ 10000) :
    0 ≤ bpAccountReward b all ∧ 0 ≤ bpRewardsPool b all ∧
      bpReward b all * all ≤ shareReward * b.totalStaked := by
  have hv := stakeShare_nonneg blockRewardVoter hst hall
  have hb := stakeShare_nonneg blockRewardBpsVoter hst hall
  have hv' := stakeShare_mul_le blockRewardVoter hst hall
  have hb' := stakeShare_mul_le blockRewardBpsVoter hst hall
  obtain ⟨h1, h2, h3⟩ := commission_split hv hc
  refine ⟨Int.add_nonneg hb h1, h2, ?_⟩
  have hle : bpReward b all ≤ stakeShare blockRewardBpsVoter b.totalStaked all +
      stakeShare blockRewardVoter b.totalStaked all := by
    unfold bpReward bpAccountReward bpRewardsPool; omega
  have := Int.mul_le_mul_of_nonneg_right hle hall.le
  unfold shareReward
  linarith

/-! ## One bp -/

/-- A bp that is rewarded has a positive stake and a commission in range. -/
theorem of_not_skipReward {s : State} {all : Int} {k : Name} {b : BpInfo} (hall : 0 < all)
    (h : skipReward env s all k b = false) : 0 ≤ b.totalStaked ∧ b.commissionRate ≤ 10000 := by
  have h0 : 0 ≤ all.tdiv blockRewardVoter := Int.tdiv_nonneg hall.le (by decide)
  simp only [skipReward, Bool.or_eq_false_iff, decide_eq_false_iff_not] at h
  omega

theorem addBpReward_spec {tbl tbl' : Table Name Asset} {k : Name} {x : Int}
    (h : addBpReward tbl k x = .ok tbl') :
    (∀ r, tbl.find k = some r → r.symbol = coreSymbol) ∧
      tbl' = tbl.put k ⟨((tbl.find k).getD Asset.zero).amount + x, coreSymbol⟩ := by
  simp only [addBpReward, bind_eq_ok, Asset.make_eq_ok] at h
  obtain ⟨_, ⟨-, -, rfl⟩, h⟩ := h
  split at h
  · rename_i hn
    cases h
    simp [hn, Asset.zero]
  · rename_i old ho
    simp only [bind_eq_ok, Asset.add_eq_ok, pure_eq_ok] at h
    obtain ⟨_, ⟨hs, -, rfl⟩, rfl⟩ := h
    rw [ho]
    refine ⟨fun r hr => ?_, by simp [← hs]⟩
    cases hr; exact hs.symm

/-- The row of a rewarded bp. -/
def BpInfo.addPool (b : BpInfo) (x : Int) : BpInfo :=
  { b with rewardsPool := ⟨b.rewardsPool.amount + x, b.rewardsPool.symbol⟩ }

/-- One iteration: nothing, or the two rewards of the bp. -/
theorem rewardBp_spec {all : Int} {acc acc' : State × Int} {p : Name × BpInfo}
    (h : rewardBp env all acc p = .ok acc') :
    acc' = acc ∨ skipReward env acc.1 all p.1 p.2 = false ∧
      (∀ r, acc.1.bpsreward.find p.1 = some r → r.symbol = coreSymbol) ∧
      p.2.rewardsPool.symbol = coreSymbol ∧
      Asset.InRange (p.2.rewardsPool.amount + bpRewardsPool p.2 all) ∧
      acc' = ({ acc.1 with
        bpsreward := acc.1.bpsreward.put p.1
          ⟨((acc.1.bpsreward.find p.1).getD Asset.zero).amount + bpAccountReward p.2 all, coreSymbol⟩
        bps := acc.1.bps.put p.1 (p.2.addPool (bpRewardsPool p.2 all)) },
        i32 (acc.2 + bpReward p.2 all)) := by
  unfold rewardBp at h
  split at h
  · cases h; exact .inl rfl
  · rename_i hskip
    simp only [bind_eq_ok, Asset.make_eq_ok, Asset.add_eq_ok, pure_eq_ok] at h
    obtain ⟨tbl, htbl, _, ⟨-, -, rfl⟩, _, ⟨hs, hin, rfl⟩, rfl⟩ := h
    obtain ⟨hsym, rfl⟩ := addBpReward_spec htbl
    exact .inr ⟨(Bool.not_eq_true _).mp hskip, hsym, hs.symm, hin, rfl⟩

/-! ## The loop -/

/-- The units in the rewards and the pools of the bps. -/
def poolTotal (s : State) : Int :=
  (s.bpsreward.sum fun _ r => r.amount) + s.bps.sum fun _ b => b.rewardsPool.amount

/-- The stakes of a list of bps. -/
def stakeSum (l : List (Name × BpInfo)) : Int := (l.map fun p => p.2.totalStaked).sum

/-- The invariant of the loop, where `rest` is not visited yet. -/
structure RewardLoop (s : State) (all : Int) (rest : List (Name × BpInfo)) (acc : State × Int) :
    Prop where
  sorted : SortedKeys rest
  rows : ∀ p ∈ rest, acc.1.bps.find p.1 = some p.2 ∧ 0 ≤ p.2.totalStaked
  accounts : acc.1.accounts = s.accounts
  nonneg : 0 ≤ acc.2
  bound : acc.2 * all + shareReward * stakeSum rest ≤ shareReward * all
  total : poolTotal acc.1 = poolTotal s + acc.2

theorem stakeSum_nonneg {l : List (Name × BpInfo)} (h : ∀ p ∈ l, 0 ≤ p.2.totalStaked) :
    0 ≤ stakeSum l := by
  induction l with
  | nil => exact le_refl _
  | cons p l ih =>
    have h1 := h p (by simp)
    have h2 := ih fun q hq => h q (by simp [hq])
    simp only [stakeSum, List.map_cons, List.sum_cons] at h2 ⊢
    omega

/-- A sum that a bound leaves room for is at most `shareReward`. -/
theorem le_shareReward {x all r : Int} (hall : 0 < all) (hr : 0 ≤ r)
    (h : x * all + r ≤ shareReward * all) : x ≤ shareReward :=
  le_of_mul_le_mul_right (by linarith) hall

theorem rewardLoop_step {s : State} {all : Int} (hall : 0 < all) (p : Name × BpInfo)
    (l : List (Name × BpInfo)) (acc acc' : State × Int) (hI : RewardLoop s all (p :: l) acc)
    (h : rewardBp env all acc p = .ok acc') : RewardLoop s all l acc' := by
  obtain ⟨hsort, hrows, hacc, hnn, hbound, htot⟩ := hI
  obtain ⟨hlt, hsort'⟩ := List.pairwise_cons.mp hsort
  obtain ⟨hfind, hst⟩ := hrows p (by simp)
  have hrest := stakeSum_nonneg fun q hq => (hrows q (List.mem_cons_of_mem _ hq)).2
  have hcons : stakeSum (p :: l) = p.2.totalStaked + stakeSum l := rfl
  rw [hcons, Int.mul_add] at hbound
  have hshare : (0 : Int) ≤ shareReward := by decide
  have hr0 := Int.mul_nonneg hshare hrest
  rcases rewardBp_spec h with rfl | ⟨hskip, hsym, hpsym, -, rfl⟩
  · have := Int.mul_nonneg hshare hst
    exact ⟨hsort', fun q hq => hrows q (by simp [hq]), hacc, hnn, by linarith, htot⟩
  · obtain ⟨h1, h2, h3⟩ := bpReward_le hst hall (of_not_skipReward hall hskip).2
    have hnn' : 0 ≤ acc.2 + bpReward p.2 all := by unfold bpReward; omega
    have hb : (acc.2 + bpReward p.2 all) * all + shareReward * stakeSum l ≤ shareReward * all := by
      rw [Int.add_mul]; linarith
    have hi : i32 (acc.2 + bpReward p.2 all) = acc.2 + bpReward p.2 all := by
      have hle := le_shareReward hall hr0 hb
      have : shareReward = 30000 := by decide
      exact i32_of_range (by omega) (by omega)
    refine ⟨hsort', fun q hq => ⟨?_, (hrows q (by simp [hq])).2⟩, hacc, ?_, ?_, ?_⟩
    · rw [Table.find_put_ne _ _ (ne_of_lt (hlt q hq))]
      exact (hrows q (by simp [hq])).1
    · rw [hi]; exact hnn'
    · rw [hi]; exact hb
    · rw [hi]
      simp only [poolTotal, Table.sum_put, Table.val_of_find hfind, BpInfo.addPool] at htot ⊢
      rw [Table.val_eq_getD (d := Asset.zero) rfl]
      unfold bpReward
      omega

theorem rewardLoop_start {s : State} {all : Int}
    (hsum : (s.bps.sum fun _ b => b.totalStaked) = all)
    (hst : s.bps.All fun _ b => 0 ≤ b.totalStaked) : RewardLoop s all s.bps.rows (s, 0) :=
  ⟨s.bps.sorted, fun p hp => ⟨Table.mem_rows.mp hp, hst _ _ (Table.mem_rows.mp hp)⟩, rfl,
    le_refl _, by rw [show stakeSum s.bps.rows = all from hsum]; omega, by simp⟩

/-- The loop over all bps. -/
theorem rewardLoop_spec {s s' : State} {all sum : Int} (hall : 0 < all)
    (hsum : (s.bps.sum fun _ b => b.totalStaked) = all)
    (hst : s.bps.All fun _ b => 0 ≤ b.totalStaked)
    (h : s.bps.rows.foldlM (rewardBp env all) (s, 0) = .ok (s', sum)) :
    s'.accounts = s.accounts ∧ 0 ≤ sum ∧ sum ≤ shareReward ∧
      poolTotal s' = poolTotal s + sum := by
  obtain ⟨-, -, hacc, hnn, hb, htot⟩ :=
    foldlM_rest (rewardLoop_start hsum hst) (rewardLoop_step hall) h
  exact ⟨hacc, hnn, le_shareReward hall (le_refl _) hb, htot⟩

/-! ## Room for the rewards -/

/-- An amount that the rewards of one block fit on. -/
def HasRoom (a : Asset) : Prop :=
  a.symbol = coreSymbol ∧ -Asset.maxAmount ≤ a.amount ∧ a.amount + 45000 ≤ Asset.maxAmount

/-- No amount that `reward_bps` adds to is near the limit of an asset. -/
structure RewardRoom (s : State) : Prop where
  bpsreward : s.bpsreward.All fun _ r => HasRoom r
  bps : s.bps.All fun _ b => HasRoom b.rewardsPool
  budget : ∀ a, s.accounts.find budgetAccount = some a → HasRoom a.available

/-- Adding a reward to an amount with room succeeds. -/
theorem add_ok {a : Asset} {x : Int} (ha : HasRoom a) (h0 : 0 ≤ x) (hx : x ≤ 45000) :
    (Asset.make x coreSymbol = .ok ⟨x, coreSymbol⟩) ∧
      a.add ⟨x, coreSymbol⟩ = .ok ⟨a.amount + x, a.symbol⟩ := by
  obtain ⟨hs, hl, hu⟩ := ha
  have hm : Asset.maxAmount = 2 ^ 62 - 1 := rfl
  refine ⟨Asset.make_eq_ok.mpr ⟨⟨by omega, by omega⟩, coreSymbol_isValid, rfl⟩,
    Asset.add_eq_ok.mpr ⟨hs.symm, ⟨?_, ?_⟩, rfl⟩⟩ <;> simp only <;> omega

theorem addBpReward_ok {tbl : Table Name Asset} {k : Name} {x : Int}
    (hr : ∀ r, tbl.find k = some r → HasRoom r) (h0 : 0 ≤ x) (hx : x ≤ 45000) :
    ∃ tbl', addBpReward tbl k x = .ok tbl' := by
  have hz : HasRoom Asset.zero := ⟨rfl, by decide, by decide⟩
  rw [addBpReward, (add_ok hz h0 hx).1, ok_bind]
  cases hf : tbl.find k with
  | none => exact ⟨_, rfl⟩
  | some r => exact ⟨_, by simp only [(add_ok (hr r hf) h0 hx).2, ok_bind]; rfl⟩

/-- A bp whose rewards have room gets them. -/
theorem rewardBp_ok (env : Env) {all : Int} {acc : State × Int} {p : Name × BpInfo} (hall : 0 < all)
    (hr : ∀ r, acc.1.bpsreward.find p.1 = some r → HasRoom r) (hp : HasRoom p.2.rewardsPool)
    (hle : p.2.totalStaked ≤ all) : ∃ acc', rewardBp env all acc p = .ok acc' := by
  unfold rewardBp
  cases hskip : skipReward env acc.1 all p.1 p.2 with
  | true => exact ⟨acc, rfl⟩
  | false =>
    obtain ⟨hst, hc⟩ := of_not_skipReward hall hskip
    obtain ⟨h1, h2, h3⟩ := bpReward_le hst hall hc
    have hs : (0 : Int) ≤ shareReward := by decide
    have hle' : bpReward p.2 all ≤ shareReward :=
      le_shareReward hall (le_refl 0) (by have := Int.mul_le_mul_of_nonneg_left hle hs; omega)
    have he : shareReward = 30000 := by decide
    unfold bpReward at hle'
    obtain ⟨tbl, htbl⟩ := addBpReward_ok hr h1 (by omega)
    obtain ⟨hm, ha⟩ := add_ok hp h2 (by omega)
    exact ⟨_, by
      simp only [Bool.false_eq_true, ↓reduceIte, htbl, hm, ha, ok_bind]; rfl⟩

/-- The invariant of the loop with room for the rewards of the bps not visited yet. -/
def RoomLoop (s : State) (all : Int) (rest : List (Name × BpInfo)) (acc : State × Int) : Prop :=
  RewardLoop s all rest acc ∧ ∀ p ∈ rest,
    (∀ r, acc.1.bpsreward.find p.1 = some r → HasRoom r) ∧ HasRoom p.2.rewardsPool

theorem roomLoop_step (env : Env) {s : State} {all : Int} (hall : 0 < all) (p : Name × BpInfo)
    (l : List (Name × BpInfo)) (acc : State × Int) (hI : RoomLoop s all (p :: l) acc) :
    ∃ acc', rewardBp env all acc p = .ok acc' ∧ RoomLoop s all l acc' := by
  obtain ⟨hl, hr⟩ := hI
  have hlt := (List.pairwise_cons.mp hl.sorted).1
  have hle : p.2.totalStaked ≤ all := by
    have hrest := stakeSum_nonneg fun q hq => (hl.rows q (List.mem_cons_of_mem _ hq)).2
    have hb := hl.bound
    have h0 := Int.mul_nonneg hl.nonneg hall.le
    rw [show shareReward = 30000 by decide,
      show stakeSum (p :: l) = p.2.totalStaked + stakeSum l from rfl] at hb
    omega
  obtain ⟨acc', h⟩ := rewardBp_ok env hall (hr p (by simp)).1 (hr p (by simp)).2 hle
  refine ⟨acc', h, rewardLoop_step hall p l acc acc' hl h, fun q hq => ⟨?_, (hr q (by simp [hq])).2⟩⟩
  rcases rewardBp_spec h with rfl | ⟨-, -, -, -, rfl⟩
  · exact (hr q (by simp [hq])).1
  · rw [Table.find_put_ne _ _ (ne_of_lt (hlt q hq))]
    exact (hr q (by simp [hq])).1

theorem rewardLoop_ok (env : Env) {s : State} {all : Int} (hall : 0 < all)
    (hsum : (s.bps.sum fun _ b => b.totalStaked) = all)
    (hst : s.bps.All fun _ b => 0 ≤ b.totalStaked) (hroom : RewardRoom s) :
    ∃ s' sum, s.bps.rows.foldlM (rewardBp env all) (s, 0) = .ok (s', sum) ∧
      s'.accounts = s.accounts ∧ 0 ≤ sum ∧ sum ≤ shareReward := by
  have hI : RoomLoop s all s.bps.rows (s, 0) := ⟨rewardLoop_start hsum hst, fun p hp =>
    ⟨hroom.bpsreward p.1, hroom.bps p.1 p.2 (Table.mem_rows.mp hp)⟩⟩
  obtain ⟨⟨s', sum⟩, hloop, hend, -⟩ := foldlM_ok_rest hI (roomLoop_step env hall)
  exact ⟨s', sum, hloop, hend.accounts, hend.nonneg,
    le_shareReward hall (le_refl _) hend.bound⟩

/-! ## One call -/

/-- The units in the rewards and the pools of the bps and in the budget account. -/
def rewardTotal (s : State) : Int :=
  poolTotal s + s.accounts.val (fun _ a => a.available.amount) budgetAccount

/-- The units of the budget when the bps got `sum`. -/
theorem totalEosbudgetReward_eq {sum : Int} (h0 : 0 ≤ sum) (h : sum ≤ shareReward) :
    (totalEosbudgetReward sum : Int) =
      (blockRewardVoter : Int) + blockRewardBpsVoter - sum + blockBudgetReward := by
  have he : shareReward = (blockRewardVoter : Int) + blockRewardBpsVoter := rfl
  have hs : shareReward = 30000 := by decide
  have hb : (blockBudgetReward : Int) = 15000 := rfl
  exact u32OfInt_of_range (by omega) (by omega)

theorem rewardBudget_spec {s s' : State} {reward : Nat} (hpos : 0 < reward)
    (h : rewardBudget s reward = .ok s') : ∃ a, s.accounts.find budgetAccount = some a ∧
      a.available.symbol = coreSymbol ∧
      s' = { s with accounts := s.accounts.put budgetAccount (a.credit reward) } := by
  simp only [rewardBudget, gt_iff_lt, hpos, ↓reduceIte, bind_eq_ok, fetch_eq_ok, Asset.make_eq_ok,
    Asset.add_eq_ok, pure_eq_ok] at h
  obtain ⟨a, ha, _, ⟨-, -, rfl⟩, _, ⟨hs, -, rfl⟩, rfl⟩ := h
  exact ⟨a, ha, hs.symm, rfl⟩

/-- One call of `reward_bps` adds exactly 45000 units to the rewards, the pools and the budget
account, the `uint32_t` budget share does not wrap, and with room for the amounts the call
succeeds. -/
theorem rewardBps_total (env : Env) {s : State} {all : Int} (hg : s.gvotestat = some all)
    (hsum : (s.bps.sum fun _ b => b.totalStaked) = all) (hall : 0 < all)
    (hst : s.bps.All fun _ b => 0 ≤ b.totalStaked)
    (hbudget : (s.accounts.find budgetAccount).isSome = true) :
    (∀ s', rewardBps env s = .ok s' → rewardTotal s' = rewardTotal s + 45000) ∧
    (∀ s₁ sum, s.bps.rows.foldlM (rewardBp env all) (s, 0) = .ok (s₁, sum) →
      (totalEosbudgetReward sum : Int) =
        (blockRewardVoter : Int) + blockRewardBpsVoter - sum + blockBudgetReward) ∧
    (RewardRoom s → ∃ s', rewardBps env s = .ok s') := by
  have hrun : rewardBps env s =
      (s.bps.rows.foldlM (rewardBp env all) (s, 0) >>= fun r =>
        rewardBudget r.1 (totalEosbudgetReward r.2)) := by
    simp only [rewardBps, getGlobalVotestate, hg, not_le.mpr hall, ↓reduceIte]
  have hpos : ∀ {sum : Int}, 0 ≤ sum → sum ≤ shareReward →
      (totalEosbudgetReward sum : Int) = 45000 - sum ∧ 0 < totalEosbudgetReward sum := by
    intro sum h0 hle
    have he := totalEosbudgetReward_eq h0 hle
    have hs : shareReward = 30000 := by decide
    simp only [blockRewardVoter, blockRewardBpsVoter, blockBudgetReward] at he
    omega
  refine ⟨fun s' h => ?_, fun s₁ sum h => ?_, fun hroom => ?_⟩
  · rw [hrun, bind_eq_ok] at h
    obtain ⟨⟨s₁, sum⟩, hloop, h⟩ := h
    obtain ⟨hacc, h0, hle, htot⟩ := rewardLoop_spec hall hsum hst hloop
    obtain ⟨he, hp⟩ := hpos h0 hle
    obtain ⟨a, ha, -, rfl⟩ := rewardBudget_spec hp h
    have ha' : s.accounts.find budgetAccount = some a := hacc ▸ ha
    simp only [rewardTotal, Table.val, Table.find_put_self, ha', Option.elim_some,
      AccountInfo.credit_amount, he]
    simp only [poolTotal] at htot ⊢
    omega
  · obtain ⟨-, h0, hle, -⟩ := rewardLoop_spec hall hsum hst h
    exact totalEosbudgetReward_eq h0 hle
  · obtain ⟨s₁, sum, hloop, hacc, h0, hle⟩ := rewardLoop_ok env hall hsum hst hroom
    obtain ⟨he, hp⟩ := hpos h0 hle
    obtain ⟨a, ha⟩ := Option.isSome_iff_exists.mp hbudget
    obtain ⟨hm, hadd⟩ := add_ok (x := totalEosbudgetReward sum) (hroom.budget a ha) (by omega)
      (by omega)
    rw [hrun, hloop, ok_bind]
    simp only [rewardBudget, gt_iff_lt, hp, ↓reduceIte, hacc, ha, fetch, hm, hadd, ok_bind]
    exact ⟨_, rfl⟩

/-- A bp with a stake of 100 and a commission of one half, and the budget account. -/
def oneBp : State :=
  { accounts := (∅ : Table Name AccountInfo).put budgetAccount {}
    bps := (∅ : Table Name BpInfo).put 1 { totalStaked := 100, commissionRate := 5000 }
    gvotestat := some 100 }

theorem rewardBps_total_oneBp :
    (∀ s', rewardBps { currentBlockNum := 1, currentBlockNum_lt := by decide } oneBp = .ok s' →
      rewardTotal s' = rewardTotal oneBp + 45000) ∧
    ∃ s', rewardBps { currentBlockNum := 1, currentBlockNum_lt := by decide } oneBp = .ok s' := by
  have h := rewardBps_total { currentBlockNum := 1, currentBlockNum_lt := by decide }
    (s := oneBp) rfl rfl (by decide) ((Table.all_empty _).put (by decide)) rfl
  refine ⟨h.1, h.2.2 ⟨Table.all_empty _, (Table.all_empty _).put ?_, fun a ha => ?_⟩⟩
  · exact ⟨rfl, by decide, by decide⟩
  · cases ha; exact ⟨rfl, by decide, by decide⟩

/-! ## Stakes and coins -/

/-- What `reward_bps` does to the ledger. -/
structure Rewarded (s s' : State) : Prop where
  votes : s'.votes = s.votes
  votes4ram : s'.votes4ram = s.votes4ram
  fixvotes : s'.fixvotes = s.fixvotes
  blockreward : s'.blockreward = s.blockreward
  bps : SameStakes s.bps s'.bps
  gvotestat : s'.gvotestat = s.gvotestat
  coins : Coins s.ledger → Coins s'.ledger

theorem rewardBp_rewarded {s : State} {all : Int} (hall : 0 < all) {acc acc' : State × Int}
    {p : Name × BpInfo} (hp : s.bps.find p.1 = some p.2) (hI : Rewarded s acc.1)
    (h : rewardBp env all acc p = .ok acc') : Rewarded s acc'.1 := by
  rcases rewardBp_spec h with rfl | ⟨hskip, hsym, hpsym, hin, rfl⟩
  · exact hI
  obtain ⟨hst, hc⟩ := of_not_skipReward hall hskip
  obtain ⟨h1, h2, -⟩ := bpReward_le hst hall hc
  refine ⟨hI.votes, hI.votes4ram, hI.fixvotes, hI.blockreward, fun k => ?_, hI.gvotestat,
    fun hcoins => ?_⟩
  · rw [Table.find_put]
    split
    · subst_vars; rw [hp]; exact ⟨rfl, rfl, rfl⟩
    · exact hI.bps k
  · have hco := hI.coins hcoins
    refine ⟨hco.accounts, hco.votes, hco.votes4ram, hco.fixvotes, hco.bps.put ?_,
      hco.bpsreward.put ?_, hco.blockreward⟩
    · have hb : IsPool p.2.rewardsPool := hcoins.bps _ _ hp
      exact ⟨⟨hpsym, Int.add_nonneg hb.1.2 h2⟩, hin.2⟩
    · refine ⟨rfl, Int.add_nonneg ?_ h1⟩
      cases hf : acc.1.bpsreward.find p.1 with
      | none => exact le_refl _
      | some r => exact (hco.bpsreward _ _ hf).2

theorem rewardBudget_rewarded {s s' : State} {reward : Nat} (h : rewardBudget s reward = .ok s') :
    Rewarded s s' := by
  rcases Nat.eq_zero_or_pos reward with rfl | hpos
  · cases h
    exact ⟨rfl, rfl, rfl, rfl, SameStakes.refl _, rfl, id⟩
  · obtain ⟨a, ha, hs, rfl⟩ := rewardBudget_spec hpos h
    refine ⟨rfl, rfl, rfl, rfl, SameStakes.refl _, rfl, fun hc => ?_⟩
    exact ⟨hc.accounts.put ⟨hs, Int.add_nonneg (hc.accounts _ _ ha).2 (by omega)⟩, hc.votes,
      hc.votes4ram, hc.fixvotes, hc.bps, hc.bpsreward, hc.blockreward⟩

theorem Rewarded.trans {s t u : State} (h : Rewarded s t) (h' : Rewarded t u) : Rewarded s u :=
  ⟨h'.votes.trans h.votes, h'.votes4ram.trans h.votes4ram, h'.fixvotes.trans h.fixvotes,
    h'.blockreward.trans h.blockreward, h.bps.trans h'.bps, h'.gvotestat.trans h.gvotestat,
    fun hc => h'.coins (h.coins hc)⟩

/-- **Rule.** What rewarding a bp and crediting the budget account keep holds after `reward_bps`,
which makes the row of the global stake first if there is none. -/
theorem rewardBps_inv {P : State → Prop} {s s' : State} (h : rewardBps env s = .ok s')
    (hs : P (makeGlobalVotestate s))
    (hbp : ∀ all acc p acc', 0 < all → p ∈ (makeGlobalVotestate s).bps.rows → P acc.1 →
      rewardBp env all acc p = .ok acc' → P acc'.1)
    (hbudget : ∀ t t' r, P t → rewardBudget t r = .ok t' → P t') : P s' := by
  unfold rewardBps at h
  split at h
  rename_i t all ht
  have e : makeGlobalVotestate s = t := by rw [makeGlobalVotestate, ht]
  rw [e] at hs hbp
  split at h
  · cases h
    exact hs
  · rename_i hall
    rw [bind_eq_ok] at h
    obtain ⟨⟨u, sum⟩, hloop, h⟩ := h
    have hu : P u := foldlM_inv (P := fun acc : State × Int => P acc.1) hs
      (fun acc p acc' hp hI hstep => hbp all acc p acc' (not_le.mp hall) hp hI hstep) hloop
    exact hbudget u s' _ hu h

/-- What does not read accounts, bps, their rewards and the global stake is the same after
`reward_bps`. -/
theorem rewardBps_frame {α : Type} {f : State → α} {s s' : State}
    (hf : ∀ t accounts bps bpsreward gvotestat,
      f { t with accounts, bps, bpsreward, gvotestat } = f t)
    (h : rewardBps env s = .ok s') : f s' = f s := by
  refine rewardBps_inv (P := fun t => f t = f s) h ?_ (fun all acc p acc' _ _ hI hstep => ?_)
    fun t t' r hI hb => ?_
  · unfold makeGlobalVotestate getGlobalVotestate
    split
    · rfl
    · exact hf s _ _ _ _
  · rcases rewardBp_spec hstep with rfl | ⟨-, -, -, -, rfl⟩
    · exact hI
    · exact (hf acc.1 _ _ _ _).trans hI
  · rcases Nat.eq_zero_or_pos r with rfl | hpos
    · cases hb
      exact hI
    · obtain ⟨a, -, -, rfl⟩ := rewardBudget_spec hpos hb
      exact (hf t _ _ _ _).trans hI

/-- `reward_bps` makes the row of the global stake if there is none, and changes no stake. -/
theorem rewardBps_rewarded {s s' : State} (h : rewardBps env s = .ok s') :
    Rewarded (makeGlobalVotestate s) s' :=
  rewardBps_inv h ⟨rfl, rfl, rfl, rfl, SameStakes.refl _, rfl, id⟩
    (fun _ _ _ _ hall hp hI hstep => rewardBp_rewarded hall (Table.mem_rows.mp hp) hI hstep)
    fun _ _ _ hI hb => hI.trans (rewardBudget_rewarded hb)

end Eosforce.System
