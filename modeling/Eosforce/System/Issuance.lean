import Eosforce.System.BlockOut
import Eosforce.System.Election
import Eosforce.System.GlobalStake

/-!
# Issuance

Only blocks create core tokens: 45000 units for bps, voters and the budget where a stake is counted,
and the reward of the blocks that the settlement of a round counts.

* `StakeWithin`: the bps hold no more stake than the global row says. The row may say more, as a
  first vote is counted twice.
* `rewardBps_issues`: then a block creates 45000 units, however the bps share them.
* `Step.settles`: a settlement creates at most the reward of the blocks that it counts.
* `exec_issues`: what a successful action adds to the total of the core tokens.
-/

namespace Eosforce.System

open Fallible Keyed Runs

variable {env : Env} {s s' : State}

/-! ## The counted stake -/

/-- The stakes of the bps are within the global stake. -/
def StakeWithin (s : State) : Prop := bpsStake s.bps ≤ s.gvotestat.getD 0

/-- The global stake that a block goes by. -/
def globalStake (s : State) : Int := s.gvotestat.getD (bpsStake s.bps)

theorem StakeWithin.le_globalStake (h : StakeWithin s) : bpsStake s.bps ≤ globalStake s := by
  unfold StakeWithin at h
  unfold globalStake
  cases hg : s.gvotestat with
  | none => exact le_refl _
  | some n => rwa [hg] at h

/-- A change that leaves no stake below zero is counted at least once. -/
theorem stakeTotal_within {g : Option Int} {t t' : Table Name BpInfo} {x : Int}
    (hg : bpsStake t ≤ g.getD 0) (ht : bpsStake t' = bpsStake t + whole x)
    (h0 : 0 ≤ bpsStake t') : bpsStake t' ≤ (stakeTotal g t' x).getD 0 := by
  have hs : (t'.sum fun _ b => b.totalStaked) = bpsStake t' := rfl
  have hx : x.tdiv coreSymbolPrecision = whole x := rfl
  rw [stakeTotal, hx, hs, Option.getD_some]
  cases g with
  | none =>
    simp only [Option.getD_none] at hg ⊢
    omega
  | some n =>
    simp only [Option.getD_some] at hg ⊢
    omega

theorem bpsStake_nonneg {t : Table Name BpInfo} (h : t.All fun _ b => 0 ≤ b.totalStaked) :
    0 ≤ bpsStake t :=
  Table.sum_nonneg h

/-- A change of the ledger keeps the stakes within the global row. -/
theorem Change.within {a : Action} {l : Ledger} (hch : Change env s a l) (hs : StakeWithin s)
    (h0 : 0 ≤ bpsStake l.bps)
    (hother : a.moves = false → SameStakes s.bps l.bps →
      l.gvotestat = s.gvotestat ∨ l.gvotestat = some (globalStake s)) :
    bpsStake l.bps ≤ l.gvotestat.getD 0 := by
  have same : ∀ {t : Table Name BpInfo}, bpsStake t = bpsStake s.bps →
      bpsStake t ≤ s.gvotestat.getD 0 := fun ht => ht ▸ hs
  cases hch with
  | transfer | bpclaim => exact hs
  | unfreeze => rename_i typ _ _ _ _ _ _ _; cases typ <;> exact hs
  | @updatebp bpname key rate url r hr =>
    refine same (SameStakes.put _ _ ?_ ?_ ?_).bpsStake <;> rw [hr]
  | @claim voter bpname act bp newest reward votes fixvotes hact hbp =>
    refine same ?_
    rw [bpsStake_put hbp]
    simp only [sub_self, add_zero]
  | @cast typ voter bpname stake act bp change v hact hbp hst hw hrow hle hblack =>
    by_cases hzero : change = 0
    · simp only [hzero, BpInfo.stakeBy, ↓reduceIte, Table.put_find hbp]
      exact hs
    · simp only [hzero, BpInfo.stakeBy, ↓reduceIte] at h0 ⊢
      exact stakeTotal_within hs (bpsStake_add hbp _ _) h0
  | @revote voter frombp tobp restake bpf bpt vf vt hne hst hpos hw hbpf hbpt =>
    exact same (bpsStake_move hne hbpf hbpt _ _)
  | @votefix voter bpname typ stake stakeTyp key d act bp accounts votes f hd hbp =>
    exact stakeTotal_within hs (bpsStake_add hbp _ _) h0
  | @revotefix voter key bpname f bpf bpt hf hne hwd hlt hblack hbpf hbpt =>
    exact same (bpsStake_move hne hbpf hbpt _ _)
  | @outfixvote voter key f bp v hf hbp =>
    exact stakeTotal_within hs (bpsStake_add hbp _ _) h0
  | other hmv _ _ _ hsame _ =>
    have hb : bpsStake l.bps = bpsStake s.bps := hsame.bpsStake
    rw [hb]
    rcases hother hmv hsame with hg | hg <;> rw [hg]
    · exact hs
    · exact hs.le_globalStake

/-- What is not a move makes the row of the global stake at most. -/
theorem exec_gvotestat {a : Action} {fx : List Effect} (ha : a.moves = false)
    (h : exec env s a = .ok (s', fx)) :
    s'.gvotestat = s.gvotestat ∨ s'.gvotestat = some (globalStake s) := by
  by_cases hstill : a.still = true
  · exact .inl (congrArg Ledger.gvotestat (exec_still hstill h))
  cases a with
  | onblock b v =>
    rcases onblock_spec h with rfl | ⟨-, -, -, -, -, hg, -⟩
    · exact .inl rfl
    · exact .inr hg
  | setemergency b e =>
    simp only [exec, silent_eq_ok, setemergency, bind_eq_ok, fetch_eq_ok, pure_eq_ok] at h
    obtain ⟨⟨_, -, bp, -, _, -, n, -, rfl⟩, -⟩ := h
    exact .inl rfl
  | _ => first | exact absurd rfl hstill | cases ha

/-- In every reachable state the stakes of the bps are within the global stake. -/
theorem Reachable.stakeWithin {p : Point} (h : Reachable p) : StakeWithin p.state := by
  obtain ⟨s, tr, hg, hr⟩ := h
  refine (hr.inv (I := fun p => Reachable p ∧ StakeWithin p.state) ⟨⟨s, [], hg, .nil⟩, ?_⟩
    fun p a q hI hs => ?_).1.2
  · rw [StakeWithin, hg.gvotestat]
    refine le_of_eq (Table.sum_zero fun k b hb => ?_)
    exact (hg.bps k b hb).1
  · have hq := hI.1.step hs
    refine ⟨hq, ?_⟩
    obtain ⟨-, -, fx, hx⟩ := hs
    exact (exec_change hx).within hI.2 (bpsStake_nonneg hq.totalStaked_nonneg)
      fun hmv _ => exec_gvotestat hmv hx

/-! ## One block -/

/-- The loop over the bps starts where the global stake may exceed theirs. -/
theorem rewardLoop_starts {all : Int} (hsum : bpsStake s.bps ≤ all)
    (hst : s.bps.All fun _ b => 0 ≤ b.totalStaked) : RewardLoop s all s.bps.rows (s, 0) := by
  have hbound : 0 * all + shareReward * stakeSum s.bps.rows ≤ shareReward * all := by
    rw [Int.zero_mul, Int.zero_add]
    exact Int.mul_le_mul_of_nonneg_left hsum (by decide)
  exact ⟨s.bps.sorted, fun p hp => ⟨Table.mem_rows.mp hp, hst _ _ (Table.mem_rows.mp hp)⟩, rfl,
    le_refl _, hbound, by simp⟩

/-- What the loop does then. -/
theorem rewardLoop_within {all sum : Int} (hall : 0 < all) (hsum : bpsStake s.bps ≤ all)
    (hst : s.bps.All fun _ b => 0 ≤ b.totalStaked)
    (h : s.bps.rows.foldlM (rewardBp env all) (s, 0) = .ok (s', sum)) :
    s'.accounts = s.accounts ∧ 0 ≤ sum ∧ sum ≤ shareReward ∧ poolTotal s' = poolTotal s + sum := by
  obtain ⟨-, -, hacc, hnn, hb, htot⟩ :=
    foldlM_rest (rewardLoop_starts hsum hst) (rewardLoop_step hall) h
  exact ⟨hacc, hnn, le_shareReward hall (le_refl _) hb, htot⟩

/-- The units that `reward_bps` creates. -/
def voteIssue (s : State) : Int := if 0 < globalStake s then 45000 else 0

/-- `reward_bps` creates 45000 units where there is a stake, and none otherwise. -/
theorem rewardBps_issues {all : Int} (hg : s.gvotestat = some all) (hsum : bpsStake s.bps ≤ all)
    (hst : s.bps.All fun _ b => 0 ≤ b.totalStaked) (h : rewardBps env s = .ok s') :
    coreTotal s' = coreTotal s + voteIssue s := by
  have hr := rewardBps_rewarded h
  have hmade : makeGlobalVotestate s = s := by
    rw [makeGlobalVotestate, getGlobalVotestate_eq, hg, Option.getD_some, ← hg]
  rw [hmade] at hr
  have hglobal : globalStake s = all := by rw [globalStake, hg, Option.getD_some]
  simp only [rewardBps, getGlobalVotestate, hg] at h
  split at h
  · rename_i hle
    cases h
    rw [voteIssue, hglobal, if_neg (by omega), Int.add_zero]
  · rename_i hall
    rw [bind_eq_ok] at h
    obtain ⟨⟨t, sum⟩, hloop, h⟩ := h
    obtain ⟨hacc, h0, hle, htot⟩ := rewardLoop_within (by omega) hsum hst hloop
    have heq := totalEosbudgetReward_eq h0 hle
    have hshare : shareReward = 30000 := by decide
    simp only [blockRewardVoter, blockRewardBpsVoter, blockBudgetReward] at heq
    obtain ⟨b, hb, -, rfl⟩ := rewardBudget_spec (by simp only; omega) h
    rw [hacc] at hb
    have hv : t.votes = s.votes := hr.votes
    have hram : t.votes4ram = s.votes4ram := hr.votes4ram
    have hf : t.fixvotes = s.fixvotes := hr.fixvotes
    have hbr : t.blockreward = s.blockreward := hr.blockreward
    rw [voteIssue, hglobal, if_pos (by omega)]
    simp only [coreTotal, Ledger.coreTotal, State.ledger, hv, hram, hf, hbr,
      sum_accounts_credit hb (totalEosbudgetReward sum), hacc]
    simp only [poolTotal] at htot
    omega

/-- The block-out rewards that are not paid yet. -/
def blockOutPool (s : State) : Int := s.blockreward.elim 0 fun br => br.rewardBlockOut.amount

/-- A block creates the units of `reward_bps`, and what the settlement adds to the block-out
rewards. -/
theorem onblock_issues {b : Name} {v : Nat} {fx : List Effect} (hs : StakeWithin s)
    (hst : s.bps.All fun _ b => 0 ≤ b.totalStaked)
    (hact : numOfTopBps ≤ env.activeProducers.length) (h : onblock env s b v = .ok (s', fx)) :
    coreTotal s' = coreTotal s + voteIssue s + (blockOutPool s' - blockOutPool s) := by
  simp only [onblock, Nat.not_lt.mpr hact, ↓reduceIte, bind_eq_ok, pure_eq_ok, Prod.exists,
    Prod.mk.injEq] at h
  obtain ⟨t, ded, ht, u, hu, elected, -, rfl, -⟩ := h
  obtain ⟨br, htl, -⟩ := settleRound_ledger ht
  have hlast : (countBlock (recordProducer u b) (s.schedules.find v) b v).ledger = u.ledger :=
    countBlock_ledger _ _ _ _
  -- the state that `reward_bps` starts from
  have hg : (heartbeatImp (makeGlobalVotestate t) b env.currentTimeSec).ledger =
      { s.ledger with blockreward := br, gvotestat := some (globalStake s) } := by
    rw [show (heartbeatImp (makeGlobalVotestate t) b env.currentTimeSec).ledger =
      (makeGlobalVotestate t).ledger from rfl, makeGlobalVotestate_ledger,
      show t.gvotestat = t.ledger.gvotestat from rfl, show t.bps = t.ledger.bps from rfl, htl]
    rfl
  generalize heartbeatImp (makeGlobalVotestate t) b env.currentTimeSec = g at hu hg
  have hgv : g.gvotestat = some (globalStake s) := congrArg Ledger.gvotestat hg
  have hgb : g.bps = s.bps := congrArg Ledger.bps hg
  have hissue := rewardBps_issues hgv (by rw [hgb]; exact hs.le_globalStake)
    (by rw [hgb]; exact hst) hu
  have hpool : u.blockreward = g.blockreward := by
    refine rewardBps_frame (f := State.blockreward) (fun _ _ _ _ _ => rfl) hu
  have hsame : voteIssue g = voteIssue s := by
    have he : globalStake g = globalStake s := by rw [globalStake, hgv, Option.getD_some]
    rw [voteIssue, he]
    rfl
  have hbr : g.blockreward = br := congrArg Ledger.blockreward hg
  have htotal : coreTotal g = coreTotal s - blockOutPool s + blockOutPool g := by
    rw [coreTotal, hg]
    simp only [coreTotal, Ledger.coreTotal, State.ledger, blockOutPool, hbr]
    omega
  have hend : blockOutPool (countBlock (recordProducer u b) (s.schedules.find v) b v) =
      blockOutPool g := by
    rw [blockOutPool, show (countBlock (recordProducer u b) (s.schedules.find v) b v).blockreward =
      u.blockreward from congrArg Ledger.blockreward hlast, hpool]
    rfl
  rw [coreTotal, hlast, hend]
  change coreTotal u = _
  omega

/-! ## Settlements -/

/-- The block up to which the block-out rewards are settled. -/
def lastSettled (s : State) : Option Nat := s.blockreward.map BlockReward.lastRewardBlockNum

/-- The units that the settlement of a round creates: the reward of the blocks since the last
settlement, a `uint32_t` product. -/
def settledReward (s s' : State) : Int :=
  match lastSettled s, lastSettled s' with
  | some m, some n => u32 (u32sub n m * blockOutReward)
  | _, _ => 0

theorem settledReward_same (h : lastSettled s' = lastSettled s) : settledReward s s' = 0 := by
  rw [settledReward, h]
  cases lastSettled s with
  | none => rfl
  | some m =>
    simp only [u32sub_self]
    rfl

/-- What a block adds to the block-out rewards. -/
theorem onblock_settles {b : Name} {v : Nat} {fx : List Effect}
    (hact : numOfTopBps ≤ env.activeProducers.length) (h : onblock env s b v = .ok (s', fx)) :
    blockOutPool s' - blockOutPool s = settledReward s s' ∧
      (lastSettled s' = lastSettled s ∨ lastSettled s' = some env.currentBlockNum) := by
  cases hbr : s.blockreward with
  | none =>
    cases hbr' : s'.blockreward with
    | none => simp [blockOutPool, settledReward, lastSettled, hbr, hbr']
    | some br' =>
      have hnew := created hbr hbr' (a := .onblock b v) h
      simp [blockOutPool, settledReward, lastSettled, hbr, hbr', hnew]
  | some br =>
    rcases onblock_paid hact hbr h with hsame | ⟨-, br', hbr', hpaid⟩
    · have hlast : lastSettled s' = lastSettled s := by rw [lastSettled, lastSettled, hbr, hsame]
      exact ⟨by rw [settledReward_same hlast, blockOutPool, blockOutPool, hbr, hsame, sub_self],
        .inl hlast⟩
    · simp only [blockOutPool, settledReward, lastSettled, hbr, hbr', Option.elim_some,
        Option.map_some, hpaid.pool, hpaid.block, or_true, and_true]
      omega

/-- No other action settles. -/
theorem exec_lastSettled {a : Action} {fx : List Effect} (hblock : ∀ b v, a ≠ .onblock b v)
    (h : exec env s a = .ok (s', fx)) : lastSettled s' = lastSettled s := by
  by_cases hclaim : ∃ b, a = .bpclaim b
  · obtain ⟨b, rfl⟩ := hclaim
    obtain ⟨t, x, ht, hr⟩ := bpclaim_rounds (silent_eq_ok.mp h).1
    have hrow : s'.blockreward = t.blockreward := congrArg Rounds.blockreward hr
    rw [lastSettled, hrow]
    rcases claimBlockOut_ages ht with ⟨rfl, -⟩ | ⟨br, m, br', hbr, -, -, hlast, -, rfl⟩
    · rfl
    · rw [lastSettled, hbr, Option.map_some, Option.map_some, hlast]
  · rw [lastSettled, exec_blockreward hblock (fun b e => hclaim ⟨b, e⟩) h]
    rfl

/-- The block up to which the rewards are settled, the height where nothing is. -/
def settledTo (p : Point) : Nat := (lastSettled p.state).getD p.height

theorem u32_mul_le (n : Nat) : (u32 (n * blockOutReward) : Int) ≤ blockOutReward * n := by
  have hle : u32 (n * blockOutReward) ≤ n * blockOutReward := Nat.mod_le _ _
  rw [mul_comm (blockOutReward : Int)]
  exact_mod_cast hle

/-- A step settles up to its block at most, and creates at most the reward of the blocks that it
settles. -/
theorem Step.settles {p q : Point} {a : Env × Action} (hp : settledTo p ≤ p.height)
    (h : Step p a q) : settledTo q ≤ q.height ∧ 0 ≤ settledReward p.state q.state ∧
      settledReward p.state q.state ≤ blockOutReward * ((settledTo q : Int) - settledTo p) := by
  obtain ⟨hheight, hq, fx, hx⟩ := h
  have hlast : lastSettled q.state = lastSettled p.state ∨
      lastSettled q.state = some a.1.currentBlockNum := by
    by_cases hon : ∃ b v, a.2 = .onblock b v
    · obtain ⟨b, v, ha⟩ := hon
      rw [ha] at hx
      by_cases hact : numOfTopBps ≤ a.1.activeProducers.length
      · exact (onblock_settles hact hx).2
      · rw [(onblock_idle (Nat.not_le.mp hact) hx).1]
        exact .inl rfl
    · exact .inl (exec_lastSettled (fun b v e => hon ⟨b, v, e⟩) hx)
  have hb : (0 : Int) ≤ blockOutReward := by decide
  rcases hlast with hsame | hnew
  · have hto : settledTo p ≤ settledTo q ∧ settledTo q ≤ q.height := by
      unfold settledTo at hp ⊢
      rw [hsame]
      cases hl : lastSettled p.state with
      | none => exact ⟨hheight.trans hq.ge, le_refl _⟩
      | some m =>
        rw [hl] at hp
        exact ⟨le_refl _, hp.trans (hheight.trans hq.ge)⟩
    rw [settledReward_same hsame]
    exact ⟨hto.2, le_refl _, Int.mul_nonneg hb (by omega)⟩
  · have hto : settledTo q = a.1.currentBlockNum := by rw [settledTo, hnew, Option.getD_some]
    refine ⟨by omega, ?_⟩
    rw [settledReward, hnew]
    cases hl : lastSettled p.state with
    | none => exact ⟨le_refl _, Int.mul_nonneg hb (by omega)⟩
    | some m =>
      have hm : settledTo p = m := by rw [settledTo, hl, Option.getD_some]
      have hle : m ≤ a.1.currentBlockNum := by omega
      refine ⟨Int.natCast_nonneg _, ?_⟩
      rw [hto, hm, ← Nat.cast_sub hle]
      exact (u32sub_of_le hle a.1.currentBlockNum_lt) ▸ u32_mul_le _

/-! ## One action -/

/-- The units that an action creates for bps, voters and the budget. -/
def Action.voteIssue (env : Env) (s : State) : Action → Int
  | .onblock _ _ => if numOfTopBps ≤ env.activeProducers.length then System.voteIssue s else 0
  | _ => 0

/-- An action that is not a block creates no token. -/
theorem exec_keeps_total {a : Action} {fx : List Effect} (hc : Coins s.ledger)
    (hblock : ∀ b v, a ≠ .onblock b v) (h : exec env s a = .ok (s', fx)) :
    coreTotal s' = coreTotal s := by
  have hch := exec_change h
  cases hmv : a.moves with
  | true => exact hch.coreTotal hc hmv
  | false =>
    by_cases hstill : a.still = true
    · rw [coreTotal, exec_still hstill h]
      rfl
    cases a with
    | onblock b v => exact absurd rfl (hblock b v)
    | setemergency b e =>
      simp only [exec, silent_eq_ok, setemergency, bind_eq_ok, fetch_eq_ok, pure_eq_ok] at h
      obtain ⟨⟨_, -, bp, hbp, _, -, n, -, rfl⟩, -⟩ := h
      have hsum := sum_pools_put { bp with emergency := e } hbp rfl
      simp only [coreTotal, Ledger.coreTotal, State.ledger, hsum]
    | _ => first | exact absurd rfl hstill | cases hmv

/-- **Step lemma.** What a successful action adds to the total of the core tokens. -/
theorem exec_issues {a : Action} {fx : List Effect} (hc : Coins s.ledger) (hs : StakeWithin s)
    (hst : s.bps.All fun _ b => 0 ≤ b.totalStaked) (h : exec env s a = .ok (s', fx)) :
    coreTotal s' = coreTotal s + a.voteIssue env s + settledReward s s' := by
  by_cases hon : ∃ b v, a = .onblock b v
  · obtain ⟨b, v, rfl⟩ := hon
    by_cases hact : numOfTopBps ≤ env.activeProducers.length
    · rw [Action.voteIssue, if_pos hact, onblock_issues hs hst hact h, (onblock_settles hact h).1]
    · obtain ⟨rfl, -⟩ := onblock_idle (Nat.not_le.mp hact) h
      rw [Action.voteIssue, if_neg hact, settledReward_same rfl, Int.add_zero, Int.add_zero]
  · have hblock : ∀ b v, a ≠ .onblock b v := fun b v e => hon ⟨b, v, e⟩
    have h0 : a.voteIssue env s = 0 := by
      cases a <;> first | rfl | exact absurd rfl (hblock _ _)
    rw [exec_keeps_total hc hblock h, h0, settledReward_same (exec_lastSettled hblock h),
      Int.add_zero, Int.add_zero]

end Eosforce.System
