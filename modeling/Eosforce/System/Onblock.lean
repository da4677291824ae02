import Eosforce.System.BpPunish
import Eosforce.System.Producer
import Eosforce.System.Vote
import Mathlib.Data.List.Sort

/-!
# The block action (`contracts/eosio.system/src/onblock.cpp`)

`onblock` settles the round of the producers (`reward_block`), pays the rewards of the block
(`reward_bps`) and elects the next producers (`update_elected_bps`).

* A schedule row has `NUM_OF_TOP_BPS` producers from its creation on, so the loops over that many
  indices are loops over the row's producers.
* The `double` computations of the reward shares are exact quotients here, truncated as the stores
  to an `int64_t` truncate them.
-/

namespace Eosforce.System

open Fallible Keyed

/-! ## Drain blocks -/

/-- `cal_drain_num`. The first assignment is `uint32_t` arithmetic stored in an `int32_t`, and the
comparison with `BP_CYCLE_BLOCK_OUT` is one of `uint32_t`s. -/
def calDrainNum (isChangeSch : Bool) (index ifirst ilast preBlockAmount currentBlockAmount : Nat) :
    Int :=
  let result := i32 (u32sub (preBlockAmount + bpCycleBlockOut) currentBlockAmount)
  let result :=
    if ifirst ≤ index ∧ index < ilast then i32 (result + 1)
    else if ifirst > ilast ∧ (ifirst ≤ index ∨ index < ilast) then i32 (result + 1)
    else result
  let result := if isChangeSch ∧ ifirst ≠ ilast then i32 (result - 1) else result
  let result := if u32OfInt result > bpCycleBlockOut then (bpCycleBlockOut : Int) else result
  if result < 0 then 0 else result

/-- `is_reward_block`. -/
def isRewardBlock (s : State) (isChangeSch : Bool) (blockAmount : Nat) (bpname : Name) : Bool :=
  let bpLastAmount := ((s.bpmonitor.find bpname).map BpMonitor.lastBlockNum).getD 0
  isChangeSch ||
    decide (blockAmount > bpLastAmount ∧ u32sub blockAmount bpLastAmount ≥ bpCycleBlockOut)

/-! ## `reward_block` -/

/-- The limit of the stability in force. -/
def blockOutWeightLimitInForce (s : State) : Nat :=
  match s.systemconfig.find configBlockOutWeightLimit with
  | some c => u32 c.numberValue
  | none => blockOutWeightLimit

/-- The number of drain blocks in a row after which the stability is reset: an `int`, compared as a
`uint32_t`. -/
def resetBlockOutWeightNumInForce (s : State) : Nat :=
  match s.systemconfig.find configResetBlockWeightNum with
  | some c => u32 c.numberValue
  | none => 1

/-- The index of a producer in a schedule, 0 if it is not there. -/
def scheduleIndex (producers : List Producer) (bpname : Name) : Nat :=
  producers.zipIdx.foldl (fun i p => if p.1.bpname = bpname then p.2 else i) 0

/-- What the loop of `reward_block` reads besides the tables. -/
structure Settlement where
  isChangeProducers : Bool
  ifirst : Nat
  ilast : Nat
  blockoutWeightLimit : Nat
  resetBlockOutWeightNum : Nat

/-- The `drain_num` of a producer. -/
def Settlement.drainNum (c : Settlement) (index : Nat) (amount : Nat) (m : BpMonitor) : Int :=
  calDrainNum c.isChangeProducers index c.ifirst c.ilast m.lastBlockNum amount

/-- The `bp_age` of a producer: nothing without enough pledge. -/
def bpAge (env : Env) (bpname : Name) (producerNum stability : Nat) : Nat :=
  match env.blockOutPledge bpname with
  | none => 0
  | some p => if p.pledge.amount ≤ baseBlockOutPledge then 0 else u32 (producerNum * stability)

/-- The counters of the monitor row after a round. -/
def countRound (m : BpMonitor) (drainNum : Int) (producerNum : Nat) : BpMonitor :=
  if drainNum > 0 then
    { m with
      consecutiveDrainBlock := u32OfInt (m.consecutiveDrainBlock + drainNum)
      totalDrainBlock := u32OfInt (m.totalDrainBlock + drainNum)
      consecutiveProduceBlock := 0 }
  else
    { m with
      consecutiveDrainBlock := 0
      consecutiveProduceBlock := u32 (m.consecutiveProduceBlock + producerNum) }

/-- The status of the monitor row after a round. -/
def markLackPledge (m : BpMonitor) : BpMonitor :=
  if m.consecutiveDrainBlock > bpPubishDrainNum ∧ m.bpStatus = .normal then
    { m with bpStatus := .lackPledge }
  else m

/-- The stability of the monitor row after a round. -/
def adjustStability (c : Settlement) (m : BpMonitor) : BpMonitor :=
  let stability :=
    if u32 (m.consecutiveProduceBlock + 1) % bpPubishDrainNum = 0 ∧
        m.stability < c.blockoutWeightLimit then m.stability + 1 else m.stability
  let stability :=
    if m.consecutiveDrainBlock > c.resetBlockOutWeightNum then baseBlockOutWeight else stability
  { m with
    stability := if stability > c.blockoutWeightLimit then c.blockoutWeightLimit else stability }

/-- The monitor row that the `modify` of `reward_block` writes. -/
def settleMonitor (c : Settlement) (m : BpMonitor) (amount bpAge : Nat) (drainNum : Int) :
    BpMonitor :=
  let m' :=
    { m with
      lastBlockNum := if c.isChangeProducers then 0 else amount
      bockAge := u64 (m.bockAge + bpAge) }
  adjustStability c (markLackPledge (countRound m' drainNum (u32sub amount m.lastBlockNum)))

/-- The `drainblocks` row of a producer whose drain blocks in a row end. -/
def recordDrain (env : Env) (s : State) (c : Settlement) (bpname : Name) (m : BpMonitor)
    (drainNum : Int) : Except String State :=
  if drainNum ≤ 0 ∧ m.consecutiveDrainBlock > c.resetBlockOutWeightNum then do
    let tbl ← emplace (s.drainblocks.scope bpname) env.currentBlockNum m.consecutiveDrainBlock
    pure { s with drainblocks := s.drainblocks.setScope bpname tbl }
  else pure s

/-- The deduction that `reward_block` sends for drained blocks of a producer with a pledge. -/
def drainPunish (env : Env) (bpname : Name) (drainNum : Int) : List Effect :=
  if drainNum > 0 ∧ (env.blockOutPledge bpname).isSome then
    [.deduction Eosforce.blockOutPledge bpname ⟨drainNum * drainBlockPunish, coreSymbol⟩
      "drain block punish"]
  else []

/-- One iteration of the loop of `reward_block`: the tables, `total_bp_age` and the actions sent so
far. -/
def settleProducer (env : Env) (c : Settlement) (acc : State × Nat × List Effect)
    (p : Producer × Nat) : Except String (State × Nat × List Effect) := do
  let bpname := p.1.bpname
  let amount := p.1.amount
  let m := (acc.1.bpmonitor.find bpname).getD {}
  let drainNum := c.drainNum p.2 amount m
  let age := bpAge env bpname (u32sub amount m.lastBlockNum) m.stability
  let s ← recordDrain env acc.1 c bpname m drainNum
  pure ({ s with bpmonitor := s.bpmonitor.put bpname (settleMonitor c m amount age drainNum) },
    u64 (acc.2.1 + age), acc.2.2 ++ drainPunish env bpname drainNum)

/-- The new `blockreward` row after a settlement. -/
def payBlockOut (env : Env) (br : BlockReward) (bpname : Name) (totalBpAge : Nat) :
    Except String BlockReward := do
  let totalProducerNum := u32sub env.currentBlockNum br.lastRewardBlockNum
  let reward ← Asset.make (u32 (totalProducerNum * blockOutReward)) coreSymbol
  let rewardBlockOut ← br.rewardBlockOut.add reward
  pure { br with
    lastStandardBp := bpname
    lastRewardBlockNum := env.currentBlockNum
    totalBlockAge := u64 (br.totalBlockAge + totalBpAge)
    rewardBlockOut }

/-- The settlement that `reward_block` makes of the round of a schedule. -/
def settlement (s : State) (br : BlockReward) (sch : ScheduleInfo) (bpname : Name)
    (isChangeProducers : Bool) : Settlement :=
  { isChangeProducers
    ifirst := scheduleIndex sch.producers br.lastStandardBp
    ilast := scheduleIndex sch.producers bpname
    blockoutWeightLimit := blockOutWeightLimitInForce s
    resetBlockOutWeightNum := resetBlockOutWeightNumInForce s }

/-- `reward_block`. -/
def rewardBlock (env : Env) (s : State) (bpname : Name) (scheduleVersion : Nat)
    (isChangeProducers : Bool) : Except String (State × List Effect) :=
  match s.blockreward with
  | none =>
    pure (if isChangeProducers then
      { s with
        blockreward := some { lastStandardBp := bpname, lastRewardBlockNum := env.currentBlockNum } }
      else s, [])
  | some br => do
    let lastVersion := if isChangeProducers then u32sub scheduleVersion 1 else scheduleVersion
    let sch ← fetch (s.schedules.find lastVersion) danglingIterator
    let c := settlement s br sch bpname isChangeProducers
    let (s, totalBpAge, effects) ← sch.producers.zipIdx.foldlM (settleProducer env c) (s, 0, [])
    let br ← payBlockOut env br bpname totalBpAge
    pure ({ s with blockreward := some br }, effects)

/-! ## `reward_bps` -/

/-- Whether the heartbeat of a bp is missing or too old, where the chain has opened the check. -/
def heartbeatStale (env : Env) (s : State) (bpname : Name) : Bool :=
  let hbMaxNum := if env.numConfigOnChain hbMax < 0 then 3600 else env.numConfigOnChain hbMax
  (match s.heartbeat.find bpname with
    | none => true
    | some timestamp => decide (u32 (timestamp + u32OfInt hbMaxNum) < env.currentTimeSec)) &&
  env.isFuncOpen heartbeatFunc

/-- Whether the pledge of a bp is missing or too small, where the chain has opened the check. -/
def pledgeLacking (env : Env) (bpname : Name) : Bool :=
  (match env.blockOutPledge bpname with
    | none => true
    | some p => decide (p.pledge.amount ≤ baseBlockOutPledge)) &&
  env.isFuncOpen bpPunish

/-- Whether `reward_bps` passes over a bp. -/
def skipReward (env : Env) (s : State) (stakedAllBps : Int) (bpname : Name) (b : BpInfo) : Bool :=
  isProducerInBlacklist s bpname || decide (b.totalStaked ≤ stakedAllBps.tdiv blockRewardVoter) ||
    decide (b.commissionRate < 1) || decide (b.commissionRate > 10000) ||
    heartbeatStale env s bpname || pledgeLacking env bpname || isProducerInPunished s bpname

/-- A share of a reward by stake. -/
def stakeShare (reward : Nat) (totalStaked stakedAllBps : Int) : Int :=
  ((reward : Int) * totalStaked).tdiv stakedAllBps

/-- `bp_account_reward`. -/
def bpAccountReward (b : BpInfo) (stakedAllBps : Int) : Int :=
  stakeShare blockRewardBpsVoter b.totalStaked stakedAllBps +
    (stakeShare blockRewardVoter b.totalStaked stakedAllBps * b.commissionRate).tdiv 10000

/-- `bp_rewards_pool`. -/
def bpRewardsPool (b : BpInfo) (stakedAllBps : Int) : Int :=
  (stakeShare blockRewardVoter b.totalStaked stakedAllBps *
    (u32sub 10000 b.commissionRate : Int)).tdiv 10000

/-- The `bpsreward` row of a bp after a reward. -/
def addBpReward (tbl : Table Name Asset) (bpname : Name) (reward : Int) :
    Except String (Table Name Asset) := do
  let r ← Asset.make reward coreSymbol
  match tbl.find bpname with
  | none => pure (tbl.put bpname r)
  | some old => do
    let sum ← old.add r
    pure (tbl.put bpname sum)

/-- One iteration of the loop of `reward_bps`: the tables and the `int` `sum_bps_reward`. -/
def rewardBp (env : Env) (stakedAllBps : Int) (acc : State × Int) (bp : Name × BpInfo) :
    Except String (State × Int) :=
  if skipReward env acc.1 stakedAllBps bp.1 bp.2 then pure acc
  else do
    let bpsreward ← addBpReward acc.1.bpsreward bp.1 (bpAccountReward bp.2 stakedAllBps)
    let pool ← Asset.make (bpRewardsPool bp.2 stakedAllBps) coreSymbol
    let rewardsPool ← bp.2.rewardsPool.add pool
    pure ({ acc.1 with
      bpsreward
      bps := acc.1.bps.put bp.1 { bp.2 with rewardsPool } },
      i32 (acc.2 + (bpAccountReward bp.2 stakedAllBps + bpRewardsPool bp.2 stakedAllBps)))

/-- `total_eosbudget_reward`, a `uint32_t` expression. -/
def totalEosbudgetReward (sumBpsReward : Int) : Nat :=
  u32OfInt ((blockRewardVoter : Int) + blockRewardBpsVoter - sumBpsReward + blockBudgetReward)

/-- The budget account's part of the rewards. -/
def rewardBudget (s : State) (reward : Nat) : Except String State :=
  if reward > 0 then do
    let eosbudget ← fetch (s.accounts.find budgetAccount) "devfund is not found in accounts table"
    let r ← Asset.make reward coreSymbol
    let available ← eosbudget.available.add r
    pure { s with accounts := s.accounts.put budgetAccount { eosbudget with available } }
  else pure s

/-- `reward_bps`. -/
def rewardBps (env : Env) (s : State) : Except String State :=
  let (s, stakedAllBps) := getGlobalVotestate s
  if stakedAllBps ≤ 0 then pure s
  else do
    let (s, sumBpsReward) ← s.bps.rows.foldlM (rewardBp env stakedAllBps) (s, 0)
    rewardBudget s (totalEosbudgetReward sumBpsReward)

/-! ## `update_elected_bps` -/

/-- The stake at an index of `vote_schedule`. -/
def scheduledStake (env : Env) (voteSchedule : List (ProducerKey × Int)) (i : Nat) : Int :=
  match voteSchedule[i]? with
  | some v => v.2
  | none => env.reserved i

/-- The insertion of a bp at the first index with a stake not above its own. An insertion past the
end is undefined. -/
def insertBp (env : Env) (voteSchedule : List (ProducerKey × Int)) (bp : ProducerKey × Int) :
    Except String (List (ProducerKey × Int)) :=
  match (List.range numOfTopBps).find? fun i => scheduledStake env voteSchedule i ≤ bp.2 with
  | none => pure voteSchedule
  | some i => do
    check (i ≤ voteSchedule.length) danglingIterator
    pure ((voteSchedule.take i ++ bp :: voteSchedule.drop i).take numOfTopBps)

/-- One iteration of the loop of `update_elected_bps`. -/
def electBp (env : Env) (s : State) (voteSchedule : List (ProducerKey × Int))
    (bp : Name × BpInfo) : Except String (List (ProducerKey × Int)) :=
  if isProducerInBlacklist s bp.1 || isProducerInPunished s bp.1 ||
      (decide (voteSchedule.length ≥ numOfTopBps) &&
        voteSchedule.getLast?.any fun v => decide (v.2 > bp.2.totalStaked)) then
    pure voteSchedule
  else insertBp env voteSchedule (⟨bp.1, bp.2.blockSigningKey⟩, bp.2.totalStaked)

/-- `update_elected_bps`. -/
def updateElectedBps (env : Env) (s : State) : Except String (List Effect) := do
  let voteSchedule ← s.bps.rows.foldlM (electBp env s) []
  let sorted := voteSchedule.insertionSort fun l r => l.1.producerName ≤ r.1.producerName
  pure [.setProposedProducers (sorted.map Prod.fst)]

/-- The election of `onblock`: each `UPDATE_CYCLE` blocks, once the chain's number allows it. -/
def electBps (env : Env) (s : State) : Except String (List Effect) :=
  let openUpdateBlockNum := env.numConfigOnChain updateBp
  if env.currentBlockNum % updateCycle = 0 ∧
      (openUpdateBlockNum < 0 ∨ openUpdateBlockNum ≤ (env.currentBlockNum : Int)) then
    updateElectedBps env s
  else pure []

/-! ## `onblock` -/

/-- The row of a new schedule. -/
def newSchedule (env : Env) (bpname : Name) : ScheduleInfo :=
  { blockHeight := env.currentBlockNum
    producers := (env.activeProducers.take numOfTopBps).map fun n =>
      { bpname := n, amount := if n = bpname then 1 else 0 } }

/-- The blocks that a producer has made in a schedule. -/
def preBlockOut (producers : List Producer) (bpname : Name) : Nat :=
  ((producers.find? fun p => p.bpname = bpname).map Producer.amount).getD 0

/-- One more block of a producer in a schedule. -/
def addBlock (bpname : Name) : List Producer → List Producer
  | [] => []
  | p :: l =>
    if p.bpname = bpname then { p with amount := u32 (p.amount + 1) } :: l
    else p :: addBlock bpname l

/-- The count of the block in its schedule, if the schedule is not a new one. -/
def countBlock (s : State) (sch : Option ScheduleInfo) (bpname : Name) (scheduleVersion : Nat) :
    State :=
  match sch with
  | none => s
  | some sch =>
    { s with
      schedules := s.schedules.put scheduleVersion
        { sch with producers := addBlock bpname sch.producers } }

/-- The ring of the last producers. -/
def recordProducer (s : State) (bpname : Name) : State :=
  { s with
    lastproducer := some (match s.lastproducer with
      | none => ⟨1, maxLastProducerSize, bpname :: List.replicate (maxLastProducerSize - 1) 0⟩
      | some l =>
        { l with
          producers := l.producers.set l.nextIndex bpname
          nextIndex := u32 (l.nextIndex + 1) % maxLastProducerSize }) }

/-- The first part of `onblock`: the schedule row and the settlement of the round. -/
def settleRound (env : Env) (s : State) (bpname : Name) (scheduleVersion : Nat) :
    Except String (State × List Effect) :=
  match s.schedules.find scheduleVersion with
  | none =>
    rewardBlock env
      { s with schedules := s.schedules.put scheduleVersion (newSchedule env bpname) } bpname
      scheduleVersion true
  | some sch =>
    if isRewardBlock s false (preBlockOut sch.producers bpname) bpname then
      rewardBlock env s bpname scheduleVersion false
    else pure (s, [])

/-- Action `onblock`: nothing with fewer than `NUM_OF_TOP_BPS` active producers. The action does
not check an authority. -/
def onblock (env : Env) (s : State) (bpname : Name) (scheduleVersion : Nat) :
    Except String (State × List Effect) :=
  if env.activeProducers.length < numOfTopBps then pure (s, [])
  else do
    let sch := s.schedules.find scheduleVersion
    let (s, deductions) ← settleRound env s bpname scheduleVersion
    let s := heartbeatImp (makeGlobalVotestate s) bpname env.currentTimeSec
    let s ← rewardBps env s
    let elected ← electBps env s
    pure (countBlock (recordProducer s bpname) sch bpname scheduleVersion, deductions ++ elected)

end Eosforce.System
