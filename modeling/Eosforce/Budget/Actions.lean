import Eosforce.Budget.State
import Eosforce.Host

/-!
# Actions of `eosio.budget` (`contracts/eosio.budget/src/eosio.budget.cpp`)

The contract runs as the account `eosio.budget`.

* `approve`, `unapprove` vote on a motion, `agreecoin`, `unagreecoin` on a request for its tokens.
* `exec`: what an action does. Only `agreecoin` sends a transfer.
-/

namespace Eosforce.Budget

open Fallible Keyed

/-- Action `handover`. -/
def handover (env : Env) (s : State) (committeers : List Name) (_memo : String) :
    Except String State := do
  requireAuth env eosioBudget
  pure { s with committee := some committeers }

/-- The check of the proposer's pledge. -/
def checkPledge (env : Env) (proposer : Name) : Except String Unit := do
  let pledge ← fetch (env.blockOutPledge proposer) "the proposer do not have pledge on block.out"
  check (pledge.pledge.amount > minBudgetPledge)
    "the pledge of proposer is not bigger then 100.0000 EOSC"

/-- The block at which a vote that starts now ends. -/
def endBlockNum (env : Env) : Nat := u32 (env.currentBlockNum + approveBlockNum)

/-- Action `propose`. -/
def propose (env : Env) (s : State) (proposer : Name) (title content : String)
    (quantity : Asset) : Except String State := do
  requireAuth env proposer
  checkPledge env proposer
  let id ← availablePrimaryKey s.motions
  let motions ← emplace s.motions id
    { title, content, quantity, proposer, approveEndBlockNum := endBlockNum env }
  let committee ← fetch s.committee "the committee do not exist"
  let approvers ← emplace (s.approvers.scope proposer) id { requested := committee }
  pure { s with motions, approvers := s.approvers.setScope proposer approvers }

/-- The motion that an approver may vote on. -/
def motionUnderVote (env : Env) (s : State) (id : Nat) : Except String MotionInfo := do
  let montion ← fetch (s.motions.find id) "no motion find"
  check (montion.approveEndBlockNum > env.currentBlockNum)
    "the motion has exceeded the approve deadline"
  pure montion

/-- The ballot of a motion, where the approver's vote is requested. -/
def requestedBallot (s : State) (montion : MotionInfo) (id : Nat) (approver : Name) :
    Except String Ballot := do
  let approveInfo ← fetch (s.approvers.find montion.proposer id) "no approve find"
  check (approver ∈ approveInfo.requested) "approval is not on the list of requested approvals"
  pure approveInfo

/-- The motion with its section changed once the vote is decided. -/
def decideMotion (s : State) (id : Nat) (montion : MotionInfo) (decided : Bool) («section» : Nat) :
    State :=
  if decided then { s with motions := s.motions.put id { montion with «section» } } else s

/-- Action `approve`. -/
def approve (env : Env) (s : State) (approver : Name) (id : Nat) (_memo : String) :
    Except String State := do
  requireAuth env approver
  let montion ← motionUnderVote env s id
  check (montion.section = 0) "the section of motion is not Pending review"
  let approveInfo ← requestedBallot s montion id approver
  let b := approveInfo.agree approver
  pure (decideMotion { s with approvers := s.approvers.put montion.proposer id b } id montion
    (decide b.Passed) 1)

/-- Action `unapprove`: in every section of the motion. -/
def unapprove (env : Env) (s : State) (approver : Name) (id : Nat) (_memo : String) :
    Except String State := do
  requireAuth env approver
  let montion ← motionUnderVote env s id
  let approveInfo ← requestedBallot s montion id approver
  let b := approveInfo.refuse approver
  pure (decideMotion { s with approvers := s.approvers.put montion.proposer id b } id montion
    (decide b.Refused) 2)

/-- Action `takecoin`. -/
def takecoin (env : Env) (s : State) (proposer : Name) (montionId : Nat) (content : String)
    (quantity : Asset) : Except String State := do
  requireAuth env proposer
  checkPledge env proposer
  let montion ← fetch (s.motions.find montionId) "no motion find"
  check (montion.approveEndBlockNum < env.currentBlockNum)
    "The motion has not passed the publicity period"
  check (montion.section = 1) "the motion section is not passed"
  check (montion.proposer = proposer) "the takecoin proposer must be the motion proposer"
  check (montion.quantity.symbol = quantity.symbol)
    "the symbol should be the same with motion quantity symbol"
  let less ← montion.quantity.lt quantity
  check (less = false) "the quantity must not be bigger then montion quantity"
  let committee ← fetch s.committee "the committee do not exist"
  let id ← availablePrimaryKey (s.takecoins.scope proposer)
  let takecoins ← emplace (s.takecoins.scope proposer) id
    { montionId, content, quantity, receiver := proposer, endBlockNum := endBlockNum env,
      ballot := { requested := committee } }
  pure { s with takecoins := s.takecoins.setScope proposer takecoins }

/-- The request for tokens that an approver may vote on. -/
def takecoinUnderVote (env : Env) (s : State) (proposer : Name) (id : Nat) (approver : Name) :
    Except String TakecoinInfo := do
  let takecoinInfo ← fetch (s.takecoins.find proposer id) "take coin motion not find"
  check (takecoinInfo.endBlockNum > env.currentBlockNum)
    "the motion has exceeded the approve deadline"
  check (takecoinInfo.section = 0) "the motion section is not propose"
  check (approver ∈ takecoinInfo.ballot.requested)
    "approval is not on the list of requested approvals"
  pure takecoinInfo

/-- The payment of a request that has passed, out of its motion. -/
def payTakecoin (s : State) (proposer : Name) (id : Nat) (takecoinInfo : TakecoinInfo) :
    Except String (State × List Effect) := do
  let montion ← fetch (s.motions.find takecoinInfo.montionId) "the montion do not exist"
  let less ← montion.quantity.lt takecoinInfo.quantity
  check (less = false) "the take coin quantity is bigger then motion quantity"
  check (montion.section = 1) "the montion section is not passed"
  let quantity ← montion.quantity.sub takecoinInfo.quantity
  pure ({ s with
    takecoins := s.takecoins.put proposer id { takecoinInfo with «section» := 1 }
    motions := s.motions.put takecoinInfo.montionId { montion with quantity } },
    [.transfer eosioBudget takecoinInfo.receiver takecoinInfo.quantity "budget take coin"])

/-- Action `agreecoin`. -/
def agreecoin (env : Env) (s : State) (approver proposer : Name) (id : Nat) (_memo : String) :
    Except String (State × List Effect) := do
  requireAuth env approver
  let takecoinInfo ← takecoinUnderVote env s proposer id approver
  let takecoinInfo := { takecoinInfo with ballot := takecoinInfo.ballot.agree approver }
  let s := { s with takecoins := s.takecoins.put proposer id takecoinInfo }
  if takecoinInfo.ballot.Passed then payTakecoin s proposer id takecoinInfo else pure (s, [])

/-- Action `unagreecoin`. -/
def unagreecoin (env : Env) (s : State) (approver proposer : Name) (id : Nat) (_memo : String) :
    Except String State := do
  requireAuth env approver
  let takecoinInfo ← takecoinUnderVote env s proposer id approver
  let takecoinInfo := { takecoinInfo with ballot := takecoinInfo.ballot.refuse approver }
  let takecoinInfo :=
    if takecoinInfo.ballot.Refused then { takecoinInfo with «section» := 2 } else takecoinInfo
  pure { s with takecoins := s.takecoins.put proposer id takecoinInfo }

/-- Action `turndown`. -/
def turndown (env : Env) (s : State) (id : Nat) (_memo : String) : Except String State := do
  requireAuth env eosioBudget
  let montion ← fetch (s.motions.find id) "the montion do not exist"
  pure { s with motions := s.motions.put id { montion with «section» := 3 } }

/-- Action `closemotion`: requests for tokens of the motion stay. The proposer is read through the
iterator of the erased row. -/
def closemotion (env : Env) (s : State) (id : Nat) (_memo : String) : Except String State := do
  let montion ← fetch (s.motions.find id) "no motion find"
  requireAuth env montion.proposer
  check ((s.approvers.find montion.proposer id).isSome = true) "no approve find"
  pure { s with
    motions := s.motions.erase id
    approvers := s.approvers.erase montion.proposer id }

/-- Action `closecoin`. -/
def closecoin (env : Env) (s : State) (proposer : Name) (id : Nat) (_memo : String) :
    Except String State := do
  requireAuth env proposer
  check ((s.takecoins.find proposer id).isSome = true) "take coin motion not find"
  pure { s with takecoins := s.takecoins.erase proposer id }

/-- Action `updateconfig`. -/
def updateconfig (env : Env) (s : State) (config : Name) (numberValue : Nat)
    (stringValue : String) : Except String State := do
  requireAuth env eosioBudget
  pure { s with budgetconfig := s.budgetconfig.put config { numberValue, stringValue } }

/-! ## The contract -/

/-- The actions of the contract with their arguments. -/
inductive Action where
  | handover (committeers : List Name) (memo : String)
  | propose (proposer : Name) (title content : String) (quantity : Asset)
  | approve (approver : Name) (id : Nat) (memo : String)
  | unapprove (approver : Name) (id : Nat) (memo : String)
  | takecoin (proposer : Name) (montionId : Nat) (content : String) (quantity : Asset)
  | agreecoin (approver proposer : Name) (id : Nat) (memo : String)
  | unagreecoin (approver proposer : Name) (id : Nat) (memo : String)
  | turndown (id : Nat) (memo : String)
  | closemotion (id : Nat) (memo : String)
  | closecoin (proposer : Name) (id : Nat) (memo : String)
  | updateconfig (config : Name) (numberValue : Nat) (stringValue : String)
  deriving DecidableEq

/-- What an action does. -/
def exec (env : Env) (s : State) : Action → Except String (State × List Effect)
  | .handover committeers memo => silent (handover env s committeers memo)
  | .propose proposer title content quantity =>
    silent (propose env s proposer title content quantity)
  | .approve approver id memo => silent (approve env s approver id memo)
  | .unapprove approver id memo => silent (unapprove env s approver id memo)
  | .takecoin proposer montionId content quantity =>
    silent (takecoin env s proposer montionId content quantity)
  | .agreecoin approver proposer id memo => agreecoin env s approver proposer id memo
  | .unagreecoin approver proposer id memo => silent (unagreecoin env s approver proposer id memo)
  | .turndown id memo => silent (turndown env s id memo)
  | .closemotion id memo => silent (closemotion env s id memo)
  | .closecoin proposer id memo => silent (closecoin env s proposer id memo)
  | .updateconfig config numberValue stringValue =>
    silent (updateconfig env s config numberValue stringValue)

end Eosforce.Budget
