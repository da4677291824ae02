import Eosforce.Lib.Run
import Eosforce.System.Onblock
import Eosforce.System.Transfer

/-!
# The system contract as a state machine

* `Action`, `exec`: the actions of the contract with their arguments, and what one does.
* `Genesis`: a state before any action. The node creates accounts and producers before the contract
  runs, so their rows are arbitrary, with balances that are not negative and nothing staked.
* `Step`, `Reachable`: a state with a chain height; each action runs at a block not below the
  height.
-/

namespace Eosforce.System

open Fallible Keyed Runs

/-- The actions of the system contract. -/
inductive Action where
  | transfer (src dst : Name) (quantity : Asset) (memo : String)
  | updatebp (bpname : Name) (blockSigningKey : String) (commissionRate : Nat) (url : String)
  | vote (voter bpname : Name) (stake : Asset)
  | revote (voter frombp tobp : Name) (restake : Asset)
  | unfreeze (voter bpname : Name)
  | vote4ram (voter bpname : Name) (stake : Asset)
  | unfreezeram (voter bpname : Name)
  | votefix (voter bpname typ : Name) (stake : Asset) (stakeTyp : Nat)
  | revotefix (voter : Name) (key : Nat) (bpname : Name)
  | outfixvote (voter : Name) (key : Nat)
  | claim (voter bpname : Name)
  | onblock (bpname : Name) (scheduleVersion : Nat)
  | setemergency (bpname : Name) (emergency : Bool)
  | heartbeat (bpname : Name) (timestamp : Nat)
  | removebp (bpname : Name)
  | punishbp (bpname proposaler : Name)
  | approvebp (bpname approver : Name)
  | bailpunish (bpname : Name)
  | bpclaim (bpname : Name)
  | monitorevise (bpname : Name)
  | removepunish (bpname : Name)
  | updateconfig (config : Name) (numberValue : Nat) (stringValue : String)
  deriving DecidableEq

/-- What an action does. -/
def exec (env : Env) (s : State) : Action → Except String (State × List Effect)
  | .transfer src dst quantity memo => transfer env s src dst quantity memo
  | .updatebp bpname key rate url => silent (updatebp env s bpname key rate url)
  | .vote voter bpname stake => silent (vote env s voter bpname stake)
  | .revote voter frombp tobp restake => silent (revote env s voter frombp tobp restake)
  | .unfreeze voter bpname => silent (unfreeze env s voter bpname)
  | .vote4ram voter bpname stake => vote4ram env s voter bpname stake
  | .unfreezeram voter bpname => silent (unfreezeram env s voter bpname)
  | .votefix voter bpname typ stake stakeTyp =>
    silent (votefix env s voter bpname typ stake stakeTyp)
  | .revotefix voter key bpname => silent (revotefix env s voter key bpname)
  | .outfixvote voter key => silent (outfixvote env s voter key)
  | .claim voter bpname => silent (claim env s voter bpname)
  | .onblock bpname version => onblock env s bpname version
  | .setemergency bpname emergency => silent (setemergency env s bpname emergency)
  | .heartbeat bpname timestamp => silent (heartbeat env s bpname timestamp)
  | .removebp bpname => silent (removebp env s bpname)
  | .punishbp bpname proposaler => silent (punishbp env s bpname proposaler)
  | .approvebp bpname approver => approvebp env s bpname approver
  | .bailpunish bpname => silent (bailpunish env s bpname)
  | .bpclaim bpname => silent (bpclaim env s bpname)
  | .monitorevise bpname => silent (monitorevise env s bpname)
  | .removepunish bpname => silent (removepunish env s bpname)
  | .updateconfig config number string => silent (updateconfig env s config number string)

/-- The state after an action that succeeds. -/
def execTo (env : Env) (s : State) (a : Action) : State :=
  match exec env s a with
  | .ok (t, _) => t
  | .error _ => s

theorem exec_execTo {env : Env} {s : State} {a : Action} (h : (exec env s a).isOk = true) :
    ∃ fx, exec env s a = .ok (execTo env s a, fx) := by
  unfold execTo
  cases he : exec env s a with
  | error e => rw [he] at h; cases h
  | ok r => exact ⟨r.2, rfl⟩

/-- The context of a block with 23 active producers. -/
def Env.block (block : Nat) : Env :=
  { currentBlockNum := u32 block, currentBlockNum_lt := u32_lt block,
    activeProducers := List.range numOfTopBps }

/-! ## Runs -/

/-- A state before any action. -/
structure Genesis (s : State) : Prop where
  accounts : ∀ k a, s.accounts.find k = some a →
    a.available.symbol = coreSymbol ∧ 0 ≤ a.available.amount
  bps : ∀ k b, s.bps.find k = some b → b.totalStaked = 0 ∧ b.rewardsPool = Asset.zero ∧
    b.totalVoteage = 0 ∧ b.voteageUpdateHeight = 0
  votes : s.votes = ∅
  votes4ram : s.votes4ram = ∅
  vote4ramsum : s.vote4ramsum = ∅
  fixvotes : s.fixvotes = ∅
  schedules : s.schedules = ∅
  gvotestat : s.gvotestat = none
  blockreward : s.blockreward = none
  bpmonitor : s.bpmonitor = ∅
  drainblocks : s.drainblocks = ∅
  punishbps : s.punishbps = ∅
  bpsreward : s.bpsreward = ∅
  lastproducer : s.lastproducer = none

/-- Accounts with tokens and bps that nobody has voted for are such a state. -/
theorem Genesis.of_rows {accounts : Table Name AccountInfo} {bps : Table Name BpInfo}
    (haccounts : ∀ k a, accounts.find k = some a →
      a.available.symbol = coreSymbol ∧ 0 ≤ a.available.amount)
    (hbps : ∀ k b, bps.find k = some b → b.totalStaked = 0 ∧ b.rewardsPool = Asset.zero ∧
      b.totalVoteage = 0 ∧ b.voteageUpdateHeight = 0) : Genesis { accounts, bps } where
  accounts := haccounts
  bps := hbps
  votes := rfl
  votes4ram := rfl
  vote4ramsum := rfl
  fixvotes := rfl
  schedules := rfl
  gvotestat := rfl
  blockreward := rfl
  bpmonitor := rfl
  drainblocks := rfl
  punishbps := rfl
  bpsreward := rfl
  lastproducer := rfl

/-- The state of the contract and the height of the last block that ran an action. -/
structure Point where
  state : State
  height : Nat

/-- One action, at a block not below the height. -/
def Step (p : Point) (a : Env × Action) (q : Point) : Prop :=
  p.height ≤ a.1.currentBlockNum ∧ q.height = a.1.currentBlockNum ∧
    ∃ fx, exec a.1 p.state a.2 = .ok (q.state, fx)

/-- After an action in a context. -/
def Point.next (p : Point) (env : Env) (a : Action) : Point :=
  ⟨execTo env p.state a, env.currentBlockNum⟩

theorem Point.next_step (p : Point) (env : Env) (a : Action) (h : p.height ≤ env.currentBlockNum)
    (hok : (exec env p.state a).isOk = true) : Step p (env, a) (p.next env a) :=
  ⟨h, rfl, exec_execTo hok⟩

/-- The states that actions lead to. -/
def Reachable (p : Point) : Prop :=
  ∃ s tr, Genesis s ∧ Run Step ⟨s, 0⟩ tr p

/-- An invariant of the genesis states and of the steps holds in every reachable state. -/
theorem Reachable.inv {I : Point → Prop} (hg : ∀ s, Genesis s → I ⟨s, 0⟩)
    (hstep : ∀ p a q, I p → Step p a q → I q) {p : Point} (h : Reachable p) : I p := by
  obtain ⟨s, tr, hs, hr⟩ := h
  exact (hr.inv (hg s hs) hstep).1

theorem Reachable.step {p q : Point} {a : Env × Action} (h : Reachable p) (hs : Step p a q) :
    Reachable q := by
  obtain ⟨s, tr, hg, hr⟩ := h
  exact ⟨s, _, hg, hr.snoc hs⟩

end Eosforce.System
