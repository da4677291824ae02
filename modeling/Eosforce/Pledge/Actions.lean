import Eosforce.Host

/-!
# Actions of `eosio.pledge` (`contracts/eosio.pledge/src/eosio.pledge.cpp`)

The contract runs as the account `eosio.pledge`. `addpledge` handles the `transfer` notifications of
the system contract; the other functions are actions.
-/

namespace Eosforce.Pledge

open Fallible Keyed

/-- Action `addtype`. -/
def addtype (env : Env) (s : State) (pledgeName deductionAccount _ramPayer : Name)
    (quantity : Asset) (_memo : String) : Except String State := do
  requireAuth env systemAccount
  check (s.pledgetype.find pledgeName = none) "the pledge type has exist"
  pure { s with pledgetype := s.pledgetype.put pledgeName ⟨deductionAccount, quantity⟩ }

/-- `check_pledge_typ`: the account that may deduct. -/
def checkPledgeTyp (s : State) (n : Name) (sym : Symbol) : Except String Name := do
  let p ← fetch (s.pledgetype.find n) "the pledge type do not exist"
  check (sym = p.pledge.symbol) "the symbol do not match"
  pure p.deductionAccount

/-- The row of `addpledge`: a new one or an old one with more pledge. -/
def addQuantity (old : Option PledgeInfo) (quantity : Asset) : Except String PledgeInfo :=
  match old with
  | none => do
    let deduction ← Asset.make 0 quantity.symbol
    pure ⟨quantity, deduction⟩
  | some b => do
    let pledge ← b.pledge.add quantity
    pure { b with pledge }

/-- The notification of a transfer. The memo names the pledge type. -/
def addpledge (env : Env) (s : State) (src dst : Name) (quantity : Asset) (memo : String) :
    Except String State :=
  if dst ≠ pledgeAccount ∨ memo.utf8ByteSize = 0 then pure s
  else do
    requireAuth env src
    let pledgeName ← Name.ofString memo
    let _ ← checkPledgeTyp s pledgeName quantity.symbol
    let b ← addQuantity (s.pledge.find src pledgeName) quantity
    pure { s with pledge := s.pledge.put src pledgeName b }

/-- The row of `deduction`: a debitee without a pledge gets one below zero. -/
def deductQuantity (old : Option PledgeInfo) (quantity : Asset) : Except String PledgeInfo :=
  match old with
  | none => pure ⟨quantity.neg, quantity⟩
  | some b => do
    let pledge ← b.pledge.sub quantity
    let deduction ← b.deduction.add quantity
    pure ⟨pledge, deduction⟩

/-- Action `deduction`. -/
def deduction (env : Env) (s : State) (pledgeName debitee : Name) (quantity : Asset)
    (_memo : String) : Except String State := do
  let deductor ← checkPledgeTyp s pledgeName quantity.symbol
  requireAuth env deductor
  check (0 < quantity.amount) "the quantity should be a positive number"
  let b ← deductQuantity (s.pledge.find debitee pledgeName) quantity
  pure { s with pledge := s.pledge.put debitee pledgeName b }

/-- Action `withdraw`. -/
def withdraw (env : Env) (s : State) (pledgeName pledger : Name) (quantity : Asset)
    (_memo : String) : Except String (State × List Effect) := do
  requireAuth env pledger
  let _ ← checkPledgeTyp s pledgeName quantity.symbol
  let b ← fetch (s.pledge.find pledger pledgeName) "the pledge do not exist"
  let less ← quantity.lt b.pledge
  check (less = true) "the quantity is biger then the pledge"
  let none ← Asset.make 0 b.pledge.symbol
  let positive ← none.lt quantity
  check (positive = true) "the quantity must be a positive number"
  let pledge ← b.pledge.sub quantity
  pure ({ s with pledge := s.pledge.put pledger pledgeName { b with pledge } },
    [.transfer pledgeAccount pledger quantity "withdraw pledge"])

/-- Action `getreward`: `quantity` says which token. -/
def getreward (env : Env) (s : State) (rewarder : Name) (quantity : Asset) (_memo : String) :
    Except String (State × List Effect) := do
  requireAuth env rewarder
  let reward ← fetch (s.reward.find rewarder quantity.symbol.code) "the reward do not exist"
  check (reward.amount > 0) "the reward do not enough to get"
  let rest ← reward.sub reward
  pure ({ s with reward := s.reward.put rewarder quantity.symbol.code rest },
    [.transfer pledgeAccount rewarder reward "get reward"])

/-- `pre_allot`: what has been deducted and can be paid out. A pledge below zero covers none of
it. -/
def preAllot (b : PledgeInfo) : Except String Asset := do
  let none ← Asset.make 0 b.pledge.symbol
  let below ← b.pledge.lt none
  if below then b.deduction.add b.pledge else pure b.deduction

/-- `reward_assign`. -/
def rewardAssign (s : State) (rewarder : Name) (quantity : Asset) : Except String State :=
  match s.reward.find rewarder quantity.symbol.code with
  | none => pure { s with reward := s.reward.put rewarder quantity.symbol.code quantity }
  | some old => do
    let sum ← old.add quantity
    pure { s with reward := s.reward.put rewarder quantity.symbol.code sum }

/-- Action `allotreward`. The code after the check of the deduction is that of `reward_assign`. -/
def allotreward (env : Env) (s : State) (pledgeName pledger rewarder : Name) (quantity : Asset)
    (_memo : String) : Except String State := do
  let deductor ← checkPledgeTyp s pledgeName quantity.symbol
  requireAuth env deductor
  let b ← fetch (s.pledge.find pledger pledgeName) "the pledge do not exist"
  let pre ← preAllot b
  check (0 < quantity.amount) "the quantity must be a positive number"
  let enough ← quantity.le pre
  check (enough = true) "the quantity is biger then the deduction"
  let deduction ← b.deduction.sub quantity
  rewardAssign { s with pledge := s.pledge.put pledger pledgeName { b with deduction } } rewarder
    quantity

/-- Action `open`. -/
def «open» (env : Env) (s : State) (pledgeName payer : Name) (_memo : String) :
    Except String State := do
  requireAuth env payer
  let type ← fetch (s.pledgetype.find pledgeName) "the pledge type do not exist"
  match s.pledge.find payer pledgeName with
  | some _ => pure s
  | none => do
    let none ← Asset.make 0 type.pledge.symbol
    pure { s with pledge := s.pledge.put payer pledgeName ⟨none, none⟩ }

/-- Action `close`. -/
def close (env : Env) (s : State) (pledgeName payer : Name) (_memo : String) :
    Except String State := do
  requireAuth env payer
  let type ← fetch (s.pledgetype.find pledgeName) "the pledge type do not exist"
  let b ← fetch (s.pledge.find payer pledgeName) "the pledge record has exist"
  let none ← Asset.make 0 type.pledge.symbol
  let noPledge ← b.pledge.eq none
  check (noPledge = true) "the pledge is not 0,can not be closed"
  let noDeduction ← b.deduction.eq none
  check (noDeduction = true) "the deduction is not 0,can not be closed"
  pure { s with pledge := s.pledge.erase payer pledgeName }

/-- Action `amendpledge`. -/
def amendpledge (env : Env) (s : State) (pledgeName pledger : Name) (pledge deduction : Asset)
    (_memo : String) : Except String State := do
  requireAuth env pledgeAccount
  let b ← fetch (s.pledge.find pledger pledgeName) "the pledge record has exist"
  check (b.pledge.symbol = pledge.symbol) "the pledge is not 0,can not be closed"
  check (b.deduction.symbol = deduction.symbol) "the deduction is not 0,can not be closed"
  pure { s with pledge := s.pledge.put pledger pledgeName ⟨pledge, deduction⟩ }

/-- Action `dealreward`: the first rewarder reported, the others approved. -/
def dealreward (env : Env) (s : State) (pledgeName pledger : Name) (rewarder : List Name)
    (_memo : String) : Except String State := do
  let pt ← fetch (s.pledgetype.find pledgeName) "the pledge type do not exist"
  match rewarder with
  | [] => .error "the rewarder must exist"
  | reporter :: _ => do
    requireAuth env pt.deductionAccount
    let b ← fetch (s.pledge.find pledger pledgeName) "the pledge do not exist"
    let pre ← preAllot b
    check (0 < pre.amount) "the quantity must be a positive number"
    let deduction ← b.deduction.sub pre
    let s := { s with pledge := s.pledge.put pledger pledgeName { b with deduction } }
    let reportReward ← pre.div 2
    let approveReward ← pre.div (2 * (rewarder.length - 1) : Nat)
    let extra ← reportReward.sub approveReward
    let s ← rewardAssign s reporter extra
    rewarder.foldlM (fun s reward => rewardAssign s reward approveReward) s

/-! ## The contract -/

/-- The actions of the contract with their arguments. -/
inductive Action where
  | addtype (pledgeName deductionAccount ramPayer : Name) (quantity : Asset) (memo : String)
  | deduction (pledgeName debitee : Name) (quantity : Asset) (memo : String)
  | withdraw (pledgeName pledger : Name) (quantity : Asset) (memo : String)
  | getreward (rewarder : Name) (quantity : Asset) (memo : String)
  | allotreward (pledgeName pledger rewarder : Name) (quantity : Asset) (memo : String)
  | «open» (pledgeName payer : Name) (memo : String)
  | close (pledgeName payer : Name) (memo : String)
  | amendpledge (pledgeName pledger : Name) (pledge deduction : Asset) (memo : String)
  | dealreward (pledgeName pledger : Name) (rewarder : List Name) (memo : String)
  deriving DecidableEq

/-- What an action does. -/
def exec (env : Env) (s : State) : Action → Except String (State × List Effect)
  | .addtype pledgeName deductionAccount ramPayer quantity memo =>
    silent (addtype env s pledgeName deductionAccount ramPayer quantity memo)
  | .deduction pledgeName debitee quantity memo =>
    silent (deduction env s pledgeName debitee quantity memo)
  | .withdraw pledgeName pledger quantity memo => withdraw env s pledgeName pledger quantity memo
  | .getreward rewarder quantity memo => getreward env s rewarder quantity memo
  | .allotreward pledgeName pledger rewarder quantity memo =>
    silent (allotreward env s pledgeName pledger rewarder quantity memo)
  | .open pledgeName payer memo => silent («open» env s pledgeName payer memo)
  | .close pledgeName payer memo => silent (close env s pledgeName payer memo)
  | .amendpledge pledgeName pledger pledge deduction memo =>
    silent (amendpledge env s pledgeName pledger pledge deduction memo)
  | .dealreward pledgeName pledger rewarder memo =>
    silent (dealreward env s pledgeName pledger rewarder memo)

end Eosforce.Pledge
