import Eosforce.System.State

/-!
# Block producers (`contracts/eosio.system/src/producer.cpp`, `eosio.system.cpp`)

The actions `updatebp`, `setemergency`, `heartbeat`, `removebp`, `bpclaim` and `updateconfig`.
-/

namespace Eosforce.System

open Fallible Keyed

/-- Action `updatebp`. -/
def updatebp (env : Env) (s : State) (bpname : Name) (blockSigningKey : String)
    (commissionRate : Nat) (url : String) : Except String State := do
  requireAuth env bpname
  check (url.utf8ByteSize < 64) "url too long"
  check (1 ≤ commissionRate ∧ commissionRate ≤ 10000) "need 1 <= commission rate <= 10000"
  let b := (s.bps.find bpname).getD {}
  pure { s with bps := s.bps.put bpname { b with blockSigningKey, commissionRate, url } }

/-- Action `setemergency`. -/
def setemergency (env : Env) (s : State) (bpname : Name) (emergency : Bool) :
    Except String State := do
  requireAuth env bpname
  let bp ← fetch (s.bps.find bpname) "bpname is not registered"
  let _ ← fetch s.chainstatus "get chain status fatal"
  let bps := s.bps.put bpname { bp with emergency }
  let proposal ← env.activeProducers.foldlM (fun (proposal : Nat) name => do
    let b ← fetch (bps.find name) "setemergency: bpname is not registered"
    pure (proposal + if b.emergency then 1 else 0)) 0
  pure { s with bps, chainstatus := some (decide (proposal > numOfTopBps * 2 / 3)) }

/-- `heartbeat_imp`. -/
def heartbeatImp (s : State) (bpname : Name) (timestamp : Nat) : State :=
  { s with heartbeat := s.heartbeat.put bpname timestamp }

/-- Action `heartbeat`: the time is the chain's, not the argument's. -/
def heartbeat (env : Env) (s : State) (bpname : Name) (_timestamp : Nat) :
    Except String State := do
  requireAuth env bpname
  check ((s.bps.find bpname).isSome = true) "bpname is not registered"
  pure (heartbeatImp s bpname env.currentTimeSec)

/-- Action `removebp`. -/
def removebp (env : Env) (s : State) (bpname : Name) : Except String State := do
  requireAuth env systemAccount
  pure { s with blackpro := s.blackpro.put bpname false }

/-- The block-out share that `bpclaim` computes: a division of `int128_t`s, stored in an `int64_t`.
A division by zero aborts the action. -/
def blockOutShare (bockAge : Nat) (br : BlockReward) : Except String Asset := do
  check (br.totalBlockAge ≠ 0) "divide by zero"
  Asset.make (i64 ((bockAge * br.rewardBlockOut.amount).tdiv br.totalBlockAge)) coreSymbol

/-- The part of `bpclaim` that takes the block-out share from the pool. -/
def claimBlockOut (s : State) (bpname : Name) : Except String (State × Asset) :=
  match s.blockreward, s.bpmonitor.find bpname with
  | some br, some m => do
    let rewardBlock ← blockOutShare m.bockAge br
    let less ← rewardBlock.lt br.rewardBlockOut
    check (less = true) "need reward_block < total_block_out"
    let rewardBlockOut ← br.rewardBlockOut.sub rewardBlock
    pure ({ s with
      blockreward := some
        { br with
          totalBlockAge := u64OfInt ((br.totalBlockAge : Int) - m.bockAge)
          rewardBlockOut }
      bpmonitor := s.bpmonitor.put bpname { m with bockAge := 0 } }, rewardBlock)
  | _, _ => pure (s, Asset.zero)

/-- The part of `bpclaim` that takes the bp's vote reward. -/
def claimBpsReward (s : State) (bpname : Name) : State × Asset :=
  match s.bpsreward.find bpname with
  | none => (s, Asset.zero)
  | some reward => ({ s with bpsreward := s.bpsreward.put bpname Asset.zero }, reward)

/-- Action `bpclaim`. -/
def bpclaim (env : Env) (s : State) (bpname : Name) : Except String State := do
  requireAuth env bpname
  let act ← fetch (s.accounts.find bpname) "bpname is not found in accounts table"
  let (s, rewardBlock) ← claimBlockOut s bpname
  let (s, rewardBp) := claimBpsReward s bpname
  let totalReward ← rewardBp.add rewardBlock
  check ((minClaimBp : Int) < totalReward.amount) "need 100 EOSC < reward"
  let available ← act.available.add totalReward
  pure { s with accounts := s.accounts.put bpname { act with available } }

/-- Action `updateconfig`. -/
def updateconfig (env : Env) (s : State) (config : Name) (numberValue : Nat)
    (stringValue : String) : Except String State := do
  requireAuth env systemAccount
  pure { s with systemconfig := s.systemconfig.put config { numberValue, stringValue } }

end Eosforce.System
