import Eosforce.AssetAge
import Eosforce.Host

/-!
# Tables and constants of the system contract

`contracts/eosio.system/include/eosio.system.hpp` and `vote.hpp`. A row's primary key is its table
key and not repeated in the row. A table in which the code uses one fixed key only (`gvotestat`,
`blockreward`, `lastproducer`, `chainstatus`) is that row, or `none`.
-/

namespace Eosforce.System

open Fallible Keyed

/-! ## Constants -/

def blockNumPerDay : Nat := 24 * 60 * 20
def frozenDelay : Nat := 3 * blockNumPerDay
def numOfTopBps : Nat := 23
def blockRewardVoter : Nat := 25000
def updateCycle : Nat := numOfTopBps * 5
def bpCycleBlockOut : Nat := 1
def baseBlockOutWeight : Nat := 1000
def blockOutWeightLimit : Nat := 4800
def bpPubishDrainNum : Nat := 9
def approveToPunishNum : Nat := 16
def blockOutReward : Nat := 5000
def blockRewardBpsVoter : Nat := 5000
def punishBpLimit : Nat := 28800
def minClaimBp : Nat := 100 * 10000
def blockBudgetReward : Nat := 15000
def drainBlockPunish : Nat :=
  u32 ((blockRewardBpsVoter + blockRewardVoter + blockOutReward + blockBudgetReward) * 2)
def baseBlockOutPledge : Nat := u32 (drainBlockPunish * punishBpLimit) / numOfTopBps
def wrongDrainBlock : Nat := 10000000
def maxLastProducerSize : Nat := 120

/-- `r.weightl`. -/
def configBlockOutWeightLimit : Name := 0xb838a731b9880000

/-- `pun.appnum`. -/
def configApproveToPunishNum : Name := 0xaea60356b3d48000

/-- `rst.rweightl`. -/
def configResetBlockWeightNum : Name := 0xbe320bf14e637310

/-- `hb.max`, a number set on the chain. -/
def hbMax : Name := 0x69c1237400000000

/-- `update.bp`, a number set on the chain. -/
def updateBp : Name := 0xd5526ca807a80000

/-- `c.bppunish`, a function opened on the chain. -/
def bpPunish : Name := 0x400f5aea6ec34000

/-- `c.heartbeat`, a function opened on the chain. -/
def heartbeatFunc : Name := 0x401aa35f2751b200

example : ["r.weightl", "pun.appnum", "rst.rweightl", "hb.max", "update.bp", "c.bppunish",
      "c.heartbeat"].mapM Name.ofString =
    .ok [configBlockOutWeightLimit, configApproveToPunishNum, configResetBlockWeightNum, hbMax,
      updateBp, bpPunish, heartbeatFunc] := by decide

/-! ## Rows -/

/-- `BPSTATUS`. -/
inductive BpStatus where
  | normal | lackPledge | punished
  deriving DecidableEq

structure AccountInfo where
  available : Asset := Asset.zero
  deriving DecidableEq

structure VoteInfo where
  voteage : AssetAge := {}
  unstaking : Asset := Asset.zero
  unstakeHeight : Nat := 0
  deriving DecidableEq

structure Vote4ramInfo where
  staked : Asset := Asset.zero
  deriving DecidableEq

structure BpInfo where
  blockSigningKey : String := ""
  commissionRate : Nat := 0
  totalStaked : Int := 0
  rewardsPool : Asset := Asset.zero
  totalVoteage : Int := 0
  voteageUpdateHeight : Nat := 0
  url : String := ""
  emergency : Bool := false
  deriving DecidableEq

/-- `schedule_info::producer`. -/
structure Producer where
  bpname : Name
  amount : Nat := 0
  deriving DecidableEq

structure ScheduleInfo where
  blockHeight : Nat
  producers : List Producer
  deriving DecidableEq

structure BlockReward where
  lastStandardBp : Name
  rewardBlockOut : Asset := Asset.zero
  rewardBudget : Asset := Asset.zero
  totalBlockAge : Nat := 0
  lastRewardBlockNum : Nat
  deriving DecidableEq

structure BpMonitor where
  lastBlockNum : Nat := 0
  consecutiveDrainBlock : Nat := 0
  consecutiveProduceBlock : Nat := 0
  totalDrainBlock : Nat := 0
  stability : Nat := baseBlockOutWeight
  bockAge : Nat := 0
  bpStatus : BpStatus := .normal
  endPunishBlock : Nat := 0
  deriving DecidableEq

structure PunishBpInfo where
  proposaler : Name
  approveBp : List Name := []
  effectiveBlockNum : Nat
  deriving DecidableEq

structure LastProducer where
  nextIndex : Nat
  maxSize : Nat
  producers : List Name
  deriving DecidableEq

structure SystemConfig where
  numberValue : Nat
  stringValue : String
  deriving DecidableEq

/-! ### Fix-time votes -/

/-- A fix-time vote type: locked days and the power of a staked token. -/
structure FixVoteData where
  days : Nat
  power : Nat
  deriving DecidableEq

/-- `FIX_TIME_VOTE_POWER_M`. -/
def fixTimeVotePowerM : Nat := 5

def fvoteA : Name := 0x5ee99500c0000000
def fvoteB : Name := 0x5ee99500e0000000
def fvoteC : Name := 0x5ee9950100000000
def fvoteD : Name := 0x5ee9950120000000

example : ["fvote.a", "fvote.b", "fvote.c", "fvote.d"].mapM Name.ofString =
    .ok [fvoteA, fvoteB, fvoteC, fvoteD] := by decide

/-- `fix_vote_typ_data`. -/
def fixVoteTypData : List (Name × FixVoteData) :=
  [(fvoteA, ⟨3 * 30, 1 * fixTimeVotePowerM⟩), (fvoteB, ⟨6 * 30, 2 * fixTimeVotePowerM⟩),
    (fvoteC, ⟨12 * 30, 4 * fixTimeVotePowerM⟩), (fvoteD, ⟨24 * 30, 8 * fixTimeVotePowerM⟩)]

/-- `fix_time_vote_info::get_data_by_typ`. -/
def getDataByTyp (typ : Name) : Option FixVoteData :=
  (fixVoteTypData.find? fun d => d.1 = typ).map Prod.snd

/-- `fix_time_vote_info`. The scope of the table is the voter. -/
structure FixTimeVoteInfo where
  bpname : Name
  fvoteTyp : Name
  votepowerAge : AssetAge := {}
  vote : Asset := Asset.zero
  startBlockNum : Nat := 0
  withdrawBlockNum : Nat := 0
  isWithdraw : Bool := false
  deriving DecidableEq

namespace FixTimeVoteInfo

/-- The height up to which the vote ages. -/
def calcBlockNum (v : FixTimeVoteInfo) (currBlockNum : Nat) : Nat :=
  if currBlockNum > v.withdrawBlockNum then v.withdrawBlockNum else currBlockNum

/-- `fix_time_vote_info::get_age`. -/
def getAge (v : FixTimeVoteInfo) (currBlockNum : Nat) : Int :=
  v.votepowerAge.getAge (v.calcBlockNum currBlockNum)

/-- `fix_time_vote_info::clean_age`. -/
def cleanAge (v : FixTimeVoteInfo) (currBlockNum : Nat) : FixTimeVoteInfo :=
  { v with votepowerAge := v.votepowerAge.cleanAge (v.calcBlockNum currBlockNum) }

end FixTimeVoteInfo

/-! ## The tables -/

/-- The tables of the contract. -/
structure State where
  accounts : Table Name AccountInfo := ∅
  /-- By voter and bp. -/
  votes : Scoped Name Name VoteInfo := ∅
  /-- By voter and bp. -/
  votes4ram : Scoped Name Name VoteInfo := ∅
  vote4ramsum : Table Name Vote4ramInfo := ∅
  /-- By voter and key. -/
  fixvotes : Scoped Name Nat FixTimeVoteInfo := ∅
  bps : Table Name BpInfo := ∅
  /-- By version. -/
  schedules : Table Nat ScheduleInfo := ∅
  /-- The `emergency` flag. -/
  chainstatus : Option Bool := none
  /-- The `timestamp`, in seconds. -/
  heartbeat : Table Name Nat := ∅
  /-- The `isactive` flag: `false` for a banned producer. -/
  blackpro : Table Name Bool := ∅
  /-- The `total_staked` of the row. -/
  gvotestat : Option Int := none
  blockreward : Option BlockReward := none
  bpmonitor : Table Name BpMonitor := ∅
  /-- The `drain_block_num` by bp and block. -/
  drainblocks : Scoped Name Nat Nat := ∅
  punishbps : Table Name PunishBpInfo := ∅
  /-- The `reward` of a bp. -/
  bpsreward : Table Name Asset := ∅
  lastproducer : Option LastProducer := none
  systemconfig : Table Name SystemConfig := ∅

/-- `is_producer_in_blacklist`. -/
def isProducerInBlacklist (s : State) (bpname : Name) : Bool :=
  match s.blackpro.find bpname with
  | some isactive => !isactive
  | none => false

/-- `is_producer_in_punished`. -/
def isProducerInPunished (s : State) (bpname : Name) : Bool :=
  match s.bpmonitor.find bpname with
  | some m => m.bpStatus == .punished
  | none => false

end Eosforce.System
