import Eosforce.System.State

/-!
# Votes (`contracts/eosio.system/src/vote.cpp`)

The actions `vote`, `vote4ram`, `revote`, `unfreeze`, `unfreezeram`, `claim`, `votefix`, `revotefix`
and `outfixvote`, with `bp_info::add_total_staked`, `bp_info::get_age` and
`on_change_total_staked` of `eosio.system.hpp`.
-/

namespace Eosforce.System

open Fallible Keyed

/-! ## The stake of a bp -/

namespace BpInfo

/-- `bp_info::get_age`. -/
def getAge (b : BpInfo) (currBlockNum : Nat) : Int :=
  b.totalStaked * (u32sub currBlockNum b.voteageUpdateHeight : Int) + b.totalVoteage

/-- `bp_info::add_total_staked`, both overloads: `sa` is the change of the staked amount. -/
def addTotalStaked (b : BpInfo) (currBlockNum : Nat) (sa : Int) : BpInfo :=
  { b with
    totalVoteage := b.totalVoteage +
      b.totalStaked * (u32sub currBlockNum b.voteageUpdateHeight : Int)
    voteageUpdateHeight := currBlockNum
    totalStaked := b.totalStaked + sa.tdiv coreSymbolPrecision }

end BpInfo

/-- The sum that `get_global_votestate` computes for a new row. -/
def stakedForAllBps (s : State) : Int := s.bps.rows.foldl (fun n bp => n + bp.2.totalStaked) 0

/-- `get_global_votestate`: the row, made from the bps if there is none. -/
def getGlobalVotestate (s : State) : State × Int :=
  match s.gvotestat with
  | some totalStaked => (s, totalStaked)
  | none => ({ s with gvotestat := some (stakedForAllBps s) }, stakedForAllBps s)

/-- `make_global_votestate`. -/
def makeGlobalVotestate (s : State) : State := (getGlobalVotestate s).1

/-- `on_change_total_staked`. -/
def onChangeTotalStaked (s : State) (deta : Int) : Except String State := do
  let s := makeGlobalVotestate s
  let totalStaked ← fetch s.gvotestat "make_global_votestate failed"
  pure { s with gvotestat := some (totalStaked + deta.tdiv coreSymbolPrecision) }

/-! ## Current votes -/

/-- The tables that the vote templates are instantiated with. -/
inductive VoteTyp where
  | votes | votes4ram
  deriving DecidableEq

namespace State

/-- The table of a kind of votes. -/
def votesTbl (s : State) : VoteTyp → Scoped Name Name VoteInfo
  | .votes => s.votes
  | .votes4ram => s.votes4ram

def setVotesTbl (s : State) (typ : VoteTyp) (tbl : Scoped Name Name VoteInfo) : State :=
  match typ with
  | .votes => { s with votes := tbl }
  | .votes4ram => { s with votes4ram := tbl }

end State

/-- The part of `vote_by_typ_imp` that changes the voter's row: the change of the staked amount and
the new row. -/
def castVote (currBlockNum : Nat) (act : AccountInfo) (vts : Option VoteInfo) (stake : Asset) :
    Except String (Int × VoteInfo) :=
  match vts with
  | none => do
    check (stake.amount ≤ act.available.amount) "need stake quantity < your available balance"
    pure (stake.amount, { voteage := { staked := stake, updateHeight := currBlockNum } })
  | some vts => do
    let change := stake.amount - vts.voteage.staked.amount
    check (change ≤ act.available.amount)
      "need stake change quantity < your available balance"
    let v := { vts with voteage := vts.voteage.changeStakedTo currBlockNum stake }
    pure (change,
      if change < 0 then
        { v with
          unstaking := { v.unstaking with amount := v.unstaking.amount + -change }
          unstakeHeight := currBlockNum }
      else v)

/-- The part of `vote_by_typ_imp` that takes added stake from the voter's account. -/
def debitStake (s : State) (voter bpname : Name) (act : AccountInfo) (change : Int) :
    Except String State :=
  if change > 0 then do
    check (¬isProducerInBlacklist s bpname) "bp is not active, cannot add stake for vote"
    pure { s with
      accounts := s.accounts.put voter
        { act with available := { act.available with amount := act.available.amount - change } } }
  else pure s

/-- The rest of `vote_by_typ_imp`: nothing more for an unchanged stake. -/
def applyChange (currBlockNum : Nat) (s : State) (voter bpname : Name) (act : AccountInfo)
    (bp : BpInfo) (change : Int) : Except String State :=
  if change = 0 then pure s
  else do
    let s ← debitStake s voter bpname act change
    onChangeTotalStaked
      { s with bps := s.bps.put bpname (bp.addTotalStaked currBlockNum change) } change

/-- `vote_by_typ_imp`. -/
def voteByTypImp (typ : VoteTyp) (env : Env) (s : State) (voter bpname : Name) (stake : Asset) :
    Except String (State × Int) := do
  requireAuth env voter
  let act ← fetch (s.accounts.find voter) "voter is not found in accounts table"
  let bp ← fetch (s.bps.find bpname) "bpname is not registered"
  check (stake.symbol = coreSymbol) "only support EOS which has 4 precision"
  check (0 ≤ stake.amount ∧ stake.amount % coreSymbolPrecision = 0)
    "need stake quantity >= 0.0000 EOS and quantity is integer"
  check (¬env.freezed voter) "account is freezed by EOSC FIP #11"
  let tbl := s.votesTbl typ
  let (change, v) ← castVote env.currentBlockNum act (tbl.find voter bpname) stake
  let s ← applyChange env.currentBlockNum (s.setVotesTbl typ (tbl.put voter bpname v)) voter bpname
    act bp change
  pure (s, change)

/-- Action `vote`. -/
def vote (env : Env) (s : State) (voter bpname : Name) (stake : Asset) : Except String State := do
  let (s, _) ← voteByTypImp .votes env s voter bpname stake
  pure s

/-- The row of `vote4ramsum` after a change. -/
def addVote4ramsum (s : State) (voter : Name) (stake : Asset) (change : Int) :
    Except String State :=
  match s.vote4ramsum.find voter with
  | none => pure { s with vote4ramsum := s.vote4ramsum.put voter { staked := stake } }
  | some v => do
    let delta ← Asset.make change coreSymbol
    let staked ← v.staked.add delta
    pure { s with vote4ramsum := s.vote4ramsum.put voter { v with staked } }

/-- Action `vote4ram`. -/
def vote4ram (env : Env) (s : State) (voter bpname : Name) (stake : Asset) :
    Except String (State × List Effect) := do
  let (s, change) ← voteByTypImp .votes4ram env s voter bpname stake
  let s ← addVote4ramsum s voter stake change
  pure (s, [.setNeedCheckRamLimit voter])

/-- The row that `revote` adds stake to. -/
def revoteTo (currBlockNum : Nat) (vtst : Option VoteInfo) (restake : Asset) :
    Except String VoteInfo :=
  match vtst with
  | none => pure { voteage := { staked := restake, updateHeight := currBlockNum } }
  | some v => do
    let voteage ← v.voteage.addStakedBy currBlockNum restake
    pure { v with voteage }

/-- Action `revote`. -/
def revote (env : Env) (s : State) (voter frombp tobp : Name) (restake : Asset) :
    Except String State := do
  requireAuth env voter
  check (frombp ≠ tobp) " from and to cannot same"
  check (restake.symbol = coreSymbol) "only support EOS which has 4 precision"
  check (restake.amount > 0 ∧ restake.amount % coreSymbolPrecision = 0)
    "need restake quantity > 0.0000 EOS and quantity is integer"
  check (¬env.freezed voter) "account is freezed by EOSC FIP #11"
  let bpf ← fetch (s.bps.find frombp) "bpname is not registered"
  let bpt ← fetch (s.bps.find tobp) "bpname is not registered"
  let currBlockNum := env.currentBlockNum
  let vtsf ← fetch (s.votes.find voter frombp) "no vote on this bp"
  let enough ← restake.le vtsf.voteage.staked
  check (enough = true) "need restake <= frombp stake"
  let voteagef ← vtsf.voteage.minusStakedBy currBlockNum restake
  let votes := s.votes.put voter frombp { vtsf with voteage := voteagef }
  let vtst ← revoteTo currBlockNum (votes.find voter tobp) restake
  let votes := votes.put voter tobp vtst
  let bps := s.bps.put frombp (bpf.addTotalStaked currBlockNum restake.neg.amount)
  let bps := bps.put tobp (bpt.addTotalStaked currBlockNum restake.amount)
  pure { s with votes, bps }

/-- `unfreeze_by_typ_imp`. -/
def unfreezeByTypImp (typ : VoteTyp) (env : Env) (s : State) (voter bpname : Name) :
    Except String State := do
  requireAuth env voter
  let act ← fetch (s.accounts.find voter) "voter is not found in accounts table"
  let tbl := s.votesTbl typ
  let vts ← fetch (tbl.find voter bpname) "voter have not add votes to the the producer yet"
  check (u32 (vts.unstakeHeight + frozenDelay) < env.currentBlockNum)
    "unfreeze is not available yet"
  check (0 < vts.unstaking.amount) "need unstaking quantity > 0.0000 EOS"
  let available ← act.available.add vts.unstaking
  let s := { s with accounts := s.accounts.put voter { act with available } }
  pure (s.setVotesTbl typ
    (tbl.put voter bpname { vts with unstaking := { vts.unstaking with amount := 0 } }))

/-- Action `unfreeze`. -/
def unfreeze (env : Env) (s : State) (voter bpname : Name) : Except String State :=
  unfreezeByTypImp .votes env s voter bpname

/-- Action `unfreezeram`. -/
def unfreezeram (env : Env) (s : State) (voter bpname : Name) : Except String State :=
  unfreezeByTypImp .votes4ram env s voter bpname

/-! ## Claim -/

/-- The voter's age in the `votes` row, and the table with the row's age cleaned. -/
def claimVote (currBlockNum : Nat) (votes : Scoped Name Name VoteInfo) (voter bpname : Name) :
    Int × Scoped Name Name VoteInfo :=
  match votes.find voter bpname with
  | none => (0, votes)
  | some v =>
    (v.voteage.getAge currBlockNum,
      votes.put voter bpname { v with voteage := v.voteage.cleanAge currBlockNum })

/-- One iteration of the loop over the voter's fix-time votes for the bp: the age is counted; a
withdrawn vote is erased, another one's age is cleaned. -/
def claimFixVote (currBlockNum : Nat) (acc : Int × Table Nat FixTimeVoteInfo)
    (fvi : Nat × FixTimeVoteInfo) : Int × Table Nat FixTimeVoteInfo :=
  (acc.1 + fvi.2.getAge currBlockNum,
    if fvi.2.isWithdraw then acc.2.erase fvi.1
    else acc.2.put fvi.1 (fvi.2.cleanAge currBlockNum))

/-- The rows that the loop visits: those of the index `bybp` for the bp. -/
def fixVotesByBp (tbl : Table Nat FixTimeVoteInfo) (bpname : Name) :
    List (Nat × FixTimeVoteInfo) :=
  tbl.rows.filter fun p => p.2.bpname = bpname

/-- The loop over the voter's fix-time votes for the bp. -/
def claimFixVotes (currBlockNum : Nat) (tbl : Table Nat FixTimeVoteInfo) (bpname : Name)
    (newestVoteage : Int) : Int × Table Nat FixTimeVoteInfo :=
  (fixVotesByBp tbl bpname).foldl (claimFixVote currBlockNum) (newestVoteage, tbl)

/-- The `newest_voteage` of `claim`, and the voter's vote tables after it. -/
def newestVoteage (currBlockNum : Nat) (s : State) (voter bpname : Name) :
    Int × Scoped Name Name VoteInfo × Table Nat FixTimeVoteInfo :=
  let (age, votes) := claimVote currBlockNum s.votes voter bpname
  let (age, fixvotes) := claimFixVotes currBlockNum (s.fixvotes.scope voter) bpname age
  (age, votes, fixvotes)

/-- The amount of the reward in `claim`: a division of `int128_t`s, stored in an `int64_t`. -/
def claimReward (bp : BpInfo) (newestVoteage newestTotalVoteage : Int) : Int :=
  i64 ((bp.rewardsPool.amount * newestVoteage).tdiv newestTotalVoteage)

/-- Action `claim`. -/
def claim (env : Env) (s : State) (voter bpname : Name) : Except String State := do
  requireAuth env voter
  let currBlockNum := env.currentBlockNum
  let act ← fetch (s.accounts.find voter) "voter is not found in accounts table"
  let bp ← fetch (s.bps.find bpname) "bpname is not registered"
  let newestTotalVoteage := bp.getAge currBlockNum
  check (0 < newestTotalVoteage) "claim is not available yet"
  let (newest, votes, fixvotes) := newestVoteage currBlockNum s voter bpname
  let reward ← Asset.make (claimReward bp newest newestTotalVoteage) coreSymbol
  check (reward.amount ≥ 0 ∧ reward.amount ≤ bp.rewardsPool.amount)
    "need 0 <= claim reward quantity <= rewards_pool"
  let available ← act.available.add reward
  let rewardsPool ← bp.rewardsPool.sub reward
  pure { s with
    accounts := s.accounts.put voter { act with available }
    votes
    fixvotes := s.fixvotes.setScope voter fixvotes
    bps := s.bps.put bpname
      { bp with
        rewardsPool
        totalVoteage := newestTotalVoteage - newest
        voteageUpdateHeight := currBlockNum } }

/-! ## Fix-time votes -/

/-- The part of `votefix` that takes the stake from its source: `stake_typ` 1 is the account, 2 the
unstaking tokens of the vote for the same bp. -/
def takeStake (s : State) (voter bpname : Name) (act : AccountInfo) (stake : Asset)
    (stakeTyp : Nat) : Except String State :=
  match stakeTyp with
  | 1 => do
    let enough ← stake.le act.available
    check (enough = true) "need stake quantity <= your available balance"
    let available ← act.available.sub stake
    pure { s with accounts := s.accounts.put voter { act with available } }
  | 2 => do
    let vts ← fetch (s.votes.find voter bpname)
      "voter have not add votes to the the producer yet"
    let enough ← stake.lt vts.unstaking
    check (enough = true) "need stake quantity <= your unstaking token"
    let unstaking ← vts.unstaking.sub stake
    pure { s with votes := s.votes.put voter bpname { vts with unstaking } }
  | _ => .error "unsupport stake_typ!"

/-- Action `votefix`. -/
def votefix (env : Env) (s : State) (voter bpname typ : Name) (stake : Asset) (stakeTyp : Nat) :
    Except String State := do
  requireAuth env voter
  let voteData ← fetch (getDataByTyp typ) "fix time vote type error"
  let freezeBlockNum := u32 (voteData.days * blockNumPerDay)
  let votePower := voteData.power
  let act ← fetch (s.accounts.find voter) "voter is not found in accounts table"
  let bp ← fetch (s.bps.find bpname) "bpname is not registered"
  check (stake.symbol = coreSymbol) "only support CORE SYMBOL token"
  check (0 < stake.amount ∧ stake.amount % 10000 = 0)
    "need stake quantity >= 0 and quantity is integer"
  check (¬env.freezed voter) "account is freezed by EOSC FIP #11"
  let s ← takeStake s voter bpname act stake stakeTyp
  let currBlockNum := env.currentBlockNum
  check (¬isProducerInBlacklist s bpname) "bp is not active, cannot add stake for vote"
  let voteStakeByPower ← stake.mul votePower
  let key ← availablePrimaryKey (s.fixvotes.scope voter)
  let fvi : FixTimeVoteInfo :=
    { bpname
      fvoteTyp := typ
      startBlockNum := currBlockNum
      withdrawBlockNum := u32 (currBlockNum + freezeBlockNum)
      vote := stake
      votepowerAge := { staked := voteStakeByPower, updateHeight := currBlockNum } }
  onChangeTotalStaked
    { s with
      fixvotes := s.fixvotes.put voter key fvi
      bps := s.bps.put bpname (bp.addTotalStaked currBlockNum voteStakeByPower.amount) }
    voteStakeByPower.amount

/-- Action `revotefix`. -/
def revotefix (env : Env) (s : State) (voter : Name) (key : Nat) (bpname : Name) :
    Except String State := do
  requireAuth env voter
  let currBlockNum := env.currentBlockNum
  let fitr ← fetch (s.fixvotes.find voter key) "no found fix time votes info"
  check (fitr.bpname ≠ bpname) "from and to cannot same"
  check (¬fitr.isWithdraw) "fix-time vote has withdraw"
  check (fitr.withdrawBlockNum > currBlockNum) "fix-time vote need withdraw, has timeout"
  check (¬env.freezed voter) "account is freezed by EOSC FIP #11"
  check (¬isProducerInBlacklist s bpname) "bp is not active, cannot add stake for vote"
  let bpf ← fetch (s.bps.find fitr.bpname) "bpname is not registered"
  let bpt ← fetch (s.bps.find bpname) "bpname is not registered"
  check (fitr.getAge currBlockNum = 0) "need push claim action before revotefix"
  let fvi := { fitr with bpname }.cleanAge currBlockNum
  let bps := s.bps.put fitr.bpname
    (bpf.addTotalStaked currBlockNum fvi.votepowerAge.staked.neg.amount)
  let bps := bps.put bpname (bpt.addTotalStaked currBlockNum fvi.votepowerAge.staked.amount)
  pure { s with fixvotes := s.fixvotes.put voter key fvi, bps }

/-- Action `outfixvote`. -/
def outfixvote (env : Env) (s : State) (voter : Name) (key : Nat) : Except String State := do
  requireAuth env voter
  let fitr ← fetch (s.fixvotes.find voter key) "no found fix time votes info"
  let currBlockNum := env.currentBlockNum
  let _act ← fetch (s.accounts.find voter) "voter is not found in accounts table"
  let bp ← fetch (s.bps.find fitr.bpname) "bpname is not registered"
  check (fitr.withdrawBlockNum ≤ currBlockNum) "fix-time vote not reach withdraw block num"
  check (¬fitr.isWithdraw) "fix-time vote has withdraw"
  let vts := (s.votes.find voter fitr.bpname).getD {}
  let unstaking ← vts.unstaking.add fitr.vote
  let votes := s.votes.put voter fitr.bpname { vts with unstaking, unstakeHeight := currBlockNum }
  let fvi := { fitr with vote := Asset.zero, isWithdraw := true }
  let changeByPower := -fvi.votepowerAge.staked.amount
  onChangeTotalStaked
    { s with
      votes
      fixvotes := s.fixvotes.put voter key fvi
      bps := s.bps.put fitr.bpname (bp.addTotalStaked currBlockNum changeByPower) }
    changeByPower

end Eosforce.System
