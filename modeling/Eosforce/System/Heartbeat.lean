import Eosforce.System.Issuance
import Eosforce.System.Removed

/-!
# Whom a block rewards

* `beatOf`, `lastBeat`: the last sign of life of a bp, a heartbeat or a block that it produced.
  `exec_heartbeat`: the `heartbeat` table holds it.
* `Deserves`: what `reward_bps` demands of a bp.
* `rewarded_alive`: in a run, only blocks add to the vote rewards of a bp and of its voters, and only
  where the bp deserves it; where the chain has opened the check, its last sign of life in the run is not
  too old.
-/

namespace Eosforce.System

open Fallible Keyed Runs

variable {env : Env} {s s' : State} {b : Name}

/-! ## Signs of life -/

/-- The time of the sign of life that an action is: the chain's time of the block. -/
def beatOf (b : Name) (a : Env × Action) : Option Nat :=
  match a.2 with
  | .heartbeat bpname _ => if bpname = b then some a.1.currentTimeSec else none
  | .onblock bpname _ =>
    if bpname = b ∧ numOfTopBps ≤ a.1.activeProducers.length then some a.1.currentTimeSec else none
  | _ => none

theorem beatOf_heartbeat (b k : Name) (t : Nat) :
    beatOf b (env, .heartbeat k t) = if k = b then some env.currentTimeSec else none := rfl

theorem beatOf_onblock (b k : Name) (v : Nat) : beatOf b (env, .onblock k v) =
    if k = b ∧ numOfTopBps ≤ env.activeProducers.length then some env.currentTimeSec else none := rfl

/-- The time of the last sign of life, or the one before all actions. -/
def lastBeat (b : Name) (start : Option Nat) (l : List (Env × Action)) : Option Nat :=
  l.foldl (fun t a => (beatOf b a).or t) start

/-- Of the actions that are no sign of life, none writes the table. -/
theorem exec_heartbeat_same {a : Action} {fx : List Effect} (hbeat : ∀ k t, a ≠ .heartbeat k t)
    (hon : ∀ k v, a ≠ .onblock k v) (h : exec env s a = .ok (s', fx)) :
    s'.heartbeat = s.heartbeat := by
  by_cases hd : a.disciplines = true
  · by_cases hclaim : ∃ k, a = .bpclaim k
    · obtain ⟨k, rfl⟩ := hclaim
      exact bpclaim_frame (f := State.heartbeat) (fun _ _ _ _ _ => rfl) (silent_eq_ok.mp h).1
    · exact exec_punishFrame (f := State.heartbeat) (fun _ _ _ _ _ _ => rfl) hd hon
        (fun k e => hclaim ⟨k, e⟩) h
  rw [Bool.not_eq_true] at hd
  have hstake : StakeFrame State.heartbeat := fun _ _ _ _ _ _ _ _ => rfl
  by_cases hram : ∃ voter k x, a = .vote4ram voter k x
  · obtain ⟨voter, k, x, rfl⟩ := hram
    exact vote4ram_frame hstake (fun _ _ => rfl) h
  · exact exec_stakeFrame hstake hd (fun voter k x e => hram ⟨voter, k, x, e⟩) hbeat h

/-- A block is a sign of life of its producer, where enough producers are active. -/
theorem onblock_heartbeat {k : Name} {version : Nat} {fx : List Effect}
    (hact : numOfTopBps ≤ env.activeProducers.length)
    (h : onblock env s k version = .ok (s', fx)) :
    s'.heartbeat = s.heartbeat.put k env.currentTimeSec := by
  obtain ⟨t, ded, u, elected, ht, hu, -, rfl, -⟩ := onblock_parts hact h
  have hsettle : t.heartbeat = s.heartbeat :=
    settleRound_frame (f := State.heartbeat) (fun _ _ _ _ => rfl) (fun _ _ => rfl) ht
  have hmade : (makeGlobalVotestate t).heartbeat = t.heartbeat := by
    unfold makeGlobalVotestate getGlobalVotestate
    split <;> rfl
  have hreward := rewardBps_frame (f := State.heartbeat) (fun _ _ _ _ _ => rfl) hu
  rw [heartbeatImp, hmade, hsettle] at hreward
  cases s.schedules.find version <;> exact hreward

/-- **Step lemma.** The `heartbeat` table holds the time of the last sign of life. -/
theorem exec_heartbeat {a : Action} {fx : List Effect} (h : exec env s a = .ok (s', fx)) (b : Name) :
    s'.heartbeat.find b = (beatOf b (env, a)).or (s.heartbeat.find b) := by
  by_cases hon : ∃ k v, a = .onblock k v
  · obtain ⟨k, v, rfl⟩ := hon
    by_cases hact : env.activeProducers.length < numOfTopBps
    · obtain ⟨rfl, -⟩ := onblock_idle hact h
      rw [beatOf_onblock, if_neg fun e => absurd e.2 (Nat.not_le.mpr hact), Option.none_or]
    · rw [onblock_heartbeat (Nat.not_lt.mp hact) h, Table.find_put, beatOf_onblock]
      by_cases hk : k = b
      · rw [if_pos hk, if_pos ⟨hk, Nat.not_lt.mp hact⟩, Option.some_or]
      · rw [if_neg hk, if_neg fun e => hk e.1, Option.none_or]
  by_cases hbeat : ∃ k t, a = .heartbeat k t
  · obtain ⟨k, t, rfl⟩ := hbeat
    simp only [exec, silent_eq_ok, heartbeat, bind_eq_ok, pure_eq_ok] at h
    obtain ⟨⟨_, -, _, -, rfl⟩, -⟩ := h
    rw [heartbeatImp, Table.find_put, beatOf_heartbeat]
    by_cases hk : k = b
    · rw [if_pos hk, if_pos hk, Option.some_or]
    · rw [if_neg hk, if_neg hk, Option.none_or]
  · have hnone : beatOf b (env, a) = none := by
      unfold beatOf
      split
      · rename_i e
        exact absurd ⟨_, _, e⟩ hbeat
      · rename_i e
        exact absurd ⟨_, _, e⟩ hon
      · rfl
    rw [hnone, Option.none_or,
      exec_heartbeat_same (fun k t e => hbeat ⟨k, t, e⟩) (fun k v e => hon ⟨k, v, e⟩) h]

/-- Over a run, the table holds the time of the last sign of life in it. -/
theorem Run.heartbeat {p q : Point} {tr : List (Point × (Env × Action) × Point)}
    (h : Run Step p tr q) (b : Name) :
    q.state.heartbeat.find b = lastBeat b (p.state.heartbeat.find b) (labels tr) := by
  induction h with
  | nil => rfl
  | @snoc tr t u a _ hst ih =>
    obtain ⟨-, -, fx, hx⟩ := hst
    rw [exec_heartbeat hx b, ih, labels_append, lastBeat, lastBeat, List.foldl_append]
    rfl

/-! ## Rewards -/

/-- The seconds for which a sign of life counts. -/
def hbMaxInForce (env : Env) : Int :=
  if env.numConfigOnChain hbMax < 0 then 3600 else env.numConfigOnChain hbMax

/-- What `reward_bps` demands of a bp whose last sign of life was at `beat`. -/
structure Deserves (env : Env) (s : State) (b : Name) (beat : Option Nat) : Prop where
  /-- The bp is registered with enough stake and a commission. -/
  registered : ∃ r, s.bps.find b = some r ∧
    (globalStake s).tdiv blockRewardVoter < r.totalStaked ∧
    1 ≤ r.commissionRate ∧ r.commissionRate ≤ 10000
  /-- It is neither blacklisted nor punished. -/
  eligible : isEligible s b = true
  /-- Where the chain checks it, the sign of life is not too old. -/
  alive : env.isFuncOpen heartbeatFunc = true →
    ∃ time, beat = some time ∧ env.currentTimeSec ≤ u32 (time + u32OfInt (hbMaxInForce env))
  /-- Where the chain checks it, the pledge is large enough. -/
  pledged : env.isFuncOpen bpPunish = true →
    ∃ x, env.blockOutPledge b = some x ∧ (baseBlockOutPledge : Int) < x.pledge.amount

/-- A bp that is not passed over deserves its reward. -/
theorem deserves_of_not_skipped {r : BpInfo} (hr : s.bps.find b = some r)
    (h : skipReward env s (globalStake s) b r = false) : Deserves env s b (s.heartbeat.find b) := by
  simp only [skipReward, Bool.or_eq_false_iff, decide_eq_false_iff_not, not_le, not_lt] at h
  obtain ⟨⟨⟨⟨⟨⟨hblack, hstake⟩, hlow⟩, hhigh⟩, hstale⟩, hlack⟩, hpun⟩ := h
  refine ⟨⟨r, hr, hstake, hlow, hhigh⟩, ?_, fun hopen => ?_, fun hopen => ?_⟩
  · rw [isEligible, hblack, hpun]
    rfl
  · rw [heartbeatStale, hopen, Bool.and_true] at hstale
    split at hstale
    · cases hstale
    · rename_i time htime
      exact ⟨time, htime, by simpa [hbMaxInForce] using hstale⟩
  · rw [pledgeLacking, hopen, Bool.and_true] at hlack
    split at hlack
    · cases hlack
    · rename_i x hx
      exact ⟨x, hx, by simpa using hlack⟩

/-- `reward_bps` changes the rows of a bp only where it deserves a reward. -/
theorem rewardBps_deserved (h : rewardBps env s = .ok s') :
    (s'.bpsreward.find b = s.bpsreward.find b ∧ s'.bps.find b = s.bps.find b) ∨
      Deserves env s b (s.heartbeat.find b) := by
  unfold rewardBps at h
  rw [getGlobalVotestate_eq] at h
  simp only [ite_eq_ok, bind_eq_ok, pure_eq_ok, Prod.exists] at h
  rcases h with ⟨-, rfl⟩ | ⟨-, u, sum, hloop, hbudget⟩
  · exact .inl ⟨rfl, rfl⟩
  -- the tables that decide about a bp stay as they are
  have hu : (u.blackpro = s.blackpro ∧ u.bpmonitor = s.bpmonitor ∧ u.heartbeat = s.heartbeat) ∧
      ((u.bpsreward.find b = s.bpsreward.find b ∧ u.bps.find b = s.bps.find b) ∨
        Deserves env s b (s.heartbeat.find b)) := by
    refine foldlM_inv (P := fun acc : State × Int => (acc.1.blackpro = s.blackpro ∧
      acc.1.bpmonitor = s.bpmonitor ∧ acc.1.heartbeat = s.heartbeat) ∧
      ((acc.1.bpsreward.find b = s.bpsreward.find b ∧ acc.1.bps.find b = s.bps.find b) ∨
        Deserves env s b (s.heartbeat.find b))) ⟨⟨rfl, rfl, rfl⟩, .inl ⟨rfl, rfl⟩⟩
      (fun acc p acc' hp hI hstep => ?_) hloop
    obtain ⟨⟨hblack, hmon, hbeat⟩, hrows⟩ := hI
    rcases rewardBp_spec hstep with rfl | ⟨hskip, -, -, -, rfl⟩
    · exact ⟨⟨hblack, hmon, hbeat⟩, hrows⟩
    refine ⟨⟨hblack, hmon, hbeat⟩, ?_⟩
    by_cases hk : p.1 = b
    · subst hk
      refine .inr (deserves_of_not_skipped (Table.mem_rows.mp hp) ?_)
      refine Eq.trans ?_ hskip
      unfold skipReward isProducerInBlacklist heartbeatStale isProducerInPunished
      rw [hblack, hmon, hbeat]
      rfl
    · refine hrows.imp (fun hsame => ?_) id
      exact ⟨(Table.find_put_ne _ _ hk).trans hsame.1, (Table.find_put_ne _ _ hk).trans hsame.2⟩
  rcases Nat.eq_zero_or_pos (totalEosbudgetReward sum) with hz | hpos
  · rw [hz] at hbudget
    cases hbudget
    exact hu.2
  · obtain ⟨a, -, -, rfl⟩ := rewardBudget_spec hpos hbudget
    exact hu.2

/-- A block changes the rows of a bp only where it deserves a reward, its sign of life being the last
one with the block itself. -/
theorem onblock_deserved {k : Name} {version : Nat} {fx : List Effect}
    (h : onblock env s k version = .ok (s', fx)) :
    (s'.bpsreward.find b = s.bpsreward.find b ∧ s'.bps.find b = s.bps.find b) ∨
      Deserves env s b (s'.heartbeat.find b) := by
  by_cases hact : env.activeProducers.length < numOfTopBps
  · obtain ⟨rfl, -⟩ := onblock_idle hact h
    exact .inl ⟨rfl, rfl⟩
  obtain ⟨t, ded, u, elected, ht, hu, -, rfl, -⟩ := onblock_parts (Nat.not_lt.mp hact) h
  obtain ⟨br, htl, -⟩ := settleRound_ledger ht
  have hk := settleRound_discipline ht
  let g := heartbeatImp (makeGlobalVotestate t) k env.currentTimeSec
  have hgl := beat_ledger htl k env.currentTimeSec
  have hdg : g.discipline = t.discipline := makeGlobalVotestate_discipline t
  rw [← hdg] at hk
  have hr : g.bpsreward = s.bpsreward := congrArg Ledger.bpsreward hgl
  have hbps : g.bps = s.bps := congrArg Ledger.bps hgl
  have hstake : globalStake g = globalStake s := by
    unfold globalStake
    rw [show g.gvotestat = some (s.gvotestat.getD (s.bps.sum fun _ b => b.totalStaked)) from
      congrArg Ledger.gvotestat hgl]
    rfl
  have hl := countBlock_ledger (recordProducer u k) (s.schedules.find version) k version
  have hbeat : (countBlock (recordProducer u k) (s.schedules.find version) k version).heartbeat =
      g.heartbeat := by
    have hu' := rewardBps_frame (f := State.heartbeat) (fun _ _ _ _ _ => rfl) hu
    cases s.schedules.find version <;> exact hu'
  rw [show (countBlock (recordProducer u k) (s.schedules.find version) k version).bpsreward =
      u.bpsreward from congrArg Ledger.bpsreward hl,
    show (countBlock (recordProducer u k) (s.schedules.find version) k version).bps = u.bps from
      congrArg Ledger.bps hl, hbeat, ← hr, ← hbps]
  refine (rewardBps_deserved hu).imp id fun hd => ?_
  exact ⟨by rw [← hbps, ← hstake]; exact hd.registered,
    (isEligible_congr hk.blackpro hk.status b).symm.trans hd.eligible, hd.alive, hd.pledged⟩

/-! ## Runs -/

/-- **Rewards for the living.** After any run from a reachable state, an action that adds to the
unclaimed vote reward of a bp or of its voters is a block, and the bp deserves the reward: it is
registered, has enough of the counted stake and a commission, and is neither blacklisted nor punished;
where the chain checks heartbeats, its last heartbeat or block in the run, or its row before it, is not
older than allowed; and where the chain checks pledges, its pledge is large enough. -/
theorem rewarded_alive {p q u : Point} {tr : List (Point × (Env × Action) × Point)}
    {a : Env × Action} (hp : Reachable p) (h : Run Step p tr q) (hs : Step q a u)
    (hgain : rewardOf q.state.bpsreward b < rewardOf u.state.bpsreward b ∨
      poolOf q.state.bps b < poolOf u.state.bps b) :
    (∃ k v, a.2 = .onblock k v) ∧
      Deserves a.1 q.state b (lastBeat b (p.state.heartbeat.find b) (labels tr ++ [a])) := by
  have hq := (h.inv hp fun _ _ _ ht hs => ht.step hs).1
  have hbeat := Run.heartbeat (h.snoc hs) b
  rw [labels_append] at hbeat
  obtain ⟨-, -, fx, hx⟩ := hs
  by_cases hon : ∃ k v, a.2 = .onblock k v
  · obtain ⟨k, v, hk⟩ := id hon
    rw [hk] at hx
    refine ⟨hon, ?_⟩
    rcases onblock_deserved (b := b) hx with ⟨hr, hb⟩ | hd
    · unfold rewardOf poolOf Table.val at hgain
      rw [hr, hb] at hgain
      rcases hgain with hgain | hgain <;> exact absurd hgain (lt_irrefl _)
    · rw [hbeat] at hd
      exact hd
  · obtain ⟨hr, hb⟩ := exec_unpaid hq.coins (fun k v e => hon ⟨k, v, e⟩) hx b
    rcases hgain with hgain | hgain
    · exact absurd hgain (not_lt.mpr hr)
    · exact absurd hgain (not_lt.mpr hb)

/-- Account 1 has 50 tokens, the budget account has none, and there is one bp. -/
def hiring : State :=
  { accounts := ((∅ : Table Name AccountInfo).put 1 ⟨⟨500000, coreSymbol⟩⟩).put budgetAccount {}
    bps := (∅ : Table Name BpInfo).put 7 { commissionRate := 5000 } }

theorem hiring_genesis : Genesis hiring :=
  .of_rows (((Table.all_empty _).put ⟨rfl, by decide⟩).put ⟨rfl, by decide⟩)
    ((Table.all_empty _).put ⟨rfl, rfl, rfl, rfl⟩)

/-- Account 1 votes for the bp. -/
def hired : Point := (Point.mk hiring 0).next (Env.of 1 10) (.vote 1 7 ⟨20000, coreSymbol⟩)

/-- The bp gives a sign of life. -/
def beatCall : Env × Action := ({ Env.of 7 11 with currentTimeSec := 5000 }, .heartbeat 7 0)

/-- Another producer makes a block, with the check of heartbeats open. -/
def paidCall : Env × Action :=
  ({ Env.block 12 with currentTimeSec := 6000, isFuncOpen := fun f => f == heartbeatFunc },
    .onblock 8 1)

def beaten : Point := hired.next beatCall.1 beatCall.2

def paid : Point := beaten.next paidCall.1 paidCall.2

theorem rewarded_alive_paid :
    (∃ k v, paidCall.2 = .onblock k v) ∧ Deserves paidCall.1 beaten.state 7 (some 5000) := by
  have hvote : Step ⟨hiring, 0⟩ (Env.of 1 10, .vote 1 7 ⟨20000, coreSymbol⟩) hired :=
    Point.next_step _ _ _ (by decide) (by decide +kernel)
  have hbeat : Step hired beatCall beaten :=
    Point.next_step _ _ _ (by decide) (by decide +kernel)
  have hpaid : Step beaten paidCall paid :=
    Point.next_step _ _ _ (by decide) (by decide +kernel)
  have hr : Reachable hired := ⟨hiring, _, hiring_genesis, Run.nil.snoc hvote⟩
  have hgain : rewardOf beaten.state.bpsreward 7 < rewardOf paid.state.bpsreward 7 := by
    decide +kernel
  exact rewarded_alive hr (Run.nil.snoc hbeat) hpaid (.inl hgain)

end Eosforce.System
