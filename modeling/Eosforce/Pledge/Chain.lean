import Eosforce.Lib.Run
import Eosforce.Pledge.Actions
import Eosforce.System.Transfer

/-!
# The pledge contract on the chain

The contract together with the system contract's accounts: the inline transfers of a pledge action
run in `transfer`, and a transfer that names `eosio.pledge` notifies it.

* `runTransfer`, `runInline`, `Chain.exec`: one transaction action with what it sends.
* `Step`, `Reachable`: the runs of all pledge actions but `amendpledge`, with transfers from other
  accounts in between.
-/

namespace Eosforce.Pledge

open Fallible Keyed Runs

/-- The accounts of the system contract and the tables of the pledge contract. -/
structure Chain where
  system : System.State
  pledge : State

/-- A transfer with its notification of the pledge contract. -/
def runTransfer (env : Env) (w : Chain) (src dst : Name) (quantity : Asset) (memo : String) :
    Except String Chain := do
  let (system, fx) ← System.transfer env w.system src dst quantity memo
  if .requireRecipient pledgeAccount ∈ fx then do
    let pledge ← addpledge env w.pledge src dst quantity memo
    pure { system, pledge }
  else pure { w with system }

/-- An inline action of the pledge contract, with the authority of `eosio.pledge`. -/
def runEffect (env : Env) (w : Chain) : Effect → Except String Chain
  | .transfer src dst quantity memo =>
    runTransfer { env with auths := [pledgeAccount] } w src dst quantity memo
  | _ => pure w

/-- The inline actions in the order of their sending. -/
def runInline (env : Env) (w : Chain) (fx : List Effect) : Except String Chain :=
  fx.foldlM (runEffect env) w

/-- The actions of a run. -/
inductive ChainAction where
  | pledge (a : Action)
  | transfer (src dst : Name) (quantity : Asset) (memo : String)
  deriving DecidableEq

/-- What an action does, its inline actions included. -/
def Chain.exec (env : Env) (w : Chain) : ChainAction → Except String Chain
  | .pledge a => do
    let (pledge, fx) ← Pledge.exec env w.pledge a
    runInline env { w with pledge } fx
  | .transfer src dst quantity memo => runTransfer env w src dst quantity memo

/-- Not `amendpledge`, and no transfer signed by `eosio.pledge` itself. -/
def ChainAction.Covered : ChainAction → Prop
  | .pledge (.amendpledge ..) => False
  | .pledge _ => True
  | .transfer src _ _ _ => src ≠ pledgeAccount

/-- The core tokens of an account. -/
def balance (s : System.State) (account : Name) : Int :=
  (s.accounts.find account).elim 0 fun a => a.available.amount

/-- Before any action of the pledge contract. -/
structure Genesis (w : Chain) : Prop where
  pledgetype : w.pledge.pledgetype = ∅
  pledge : w.pledge.pledge = ∅
  reward : w.pledge.reward = ∅
  balance : 0 ≤ balance w.system pledgeAccount

/-- One covered action. -/
def Step (w : Chain) (a : Env × ChainAction) (w' : Chain) : Prop :=
  a.2.Covered ∧ w.exec a.1 a.2 = .ok w'

/-- The states that covered actions lead to. -/
def Reachable (w : Chain) : Prop := ∃ w₀ tr, Genesis w₀ ∧ Run Step w₀ tr w

end Eosforce.Pledge
