import Eosforce.Basic
import Eosforce.Lib.Table

/-!
# Tables of `eosio.budget`

`contracts/eosio.budget/include/eosio.budget/eosio.budget.hpp`. A row's primary key is its table key.

* `Ballot`: the three lists of approvers that a motion's `approvers` row and a `takecoins` row keep.
* `MotionInfo`, `TakecoinInfo`: a motion and a request for tokens of one.
* `State`: the tables.
-/

namespace Eosforce

open Keyed

/-- The name `eosio.budget`: the key of the committee row, and the account of the contract. -/
def eosioBudget : Name := 0x5530ea00fa4b1590

example : Name.ofString "eosio.budget" = .ok eosioBudget := by decide

namespace Budget

/-- `APPROVE_BLOCK_NUM`. -/
def approveBlockNum : Nat := 14 * 28800

/-- `MIN_BUDGET_PLEDGE`. -/
def minBudgetPledge : Nat := 100 * 10000

/-- The approvers that have not voted, that approved and that did not. -/
structure Ballot where
  requested : List Name
  approved : List Name := []
  unapproved : List Name := []
  deriving DecidableEq

namespace Ballot

/-- `isize`. -/
def size (b : Ballot) : Nat := b.requested.length + b.approved.length + b.unapproved.length

/-- The approver approves. -/
def agree (b : Ballot) (approver : Name) : Ballot :=
  { b with requested := b.requested.erase approver, approved := b.approved ++ [approver] }

/-- The approver does not approve. -/
def refuse (b : Ballot) (approver : Name) : Ballot :=
  { b with requested := b.requested.erase approver, unapproved := b.unapproved ++ [approver] }

/-- More than two thirds approved. -/
def Passed (b : Ballot) : Prop := b.approved.length > b.size * 2 / 3

/-- More than a third did not approve. -/
def Refused (b : Ballot) : Prop := b.unapproved.length > b.size / 3

instance (b : Ballot) : Decidable b.Passed := inferInstanceAs (Decidable (_ > _))

instance (b : Ballot) : Decidable b.Refused := inferInstanceAs (Decidable (_ > _))

end Ballot

/-- `motion_info`. The section is 0 under review, 1 passed, 2 refused, 3 turned down. -/
structure MotionInfo where
  rootId : Nat := 0
  title : String
  content : String
  quantity : Asset
  proposer : Name
  «section» : Nat := 0
  takecoinNum : Nat := 0
  approveEndBlockNum : Nat
  deriving DecidableEq

/-- `takecoin_motion_info`. The section is 0 under review, 1 paid, 2 refused. -/
structure TakecoinInfo where
  montionId : Nat
  content : String
  quantity : Asset
  receiver : Name
  «section» : Nat := 0
  endBlockNum : Nat
  ballot : Ballot
  deriving DecidableEq

structure BudgetConfig where
  numberValue : Nat
  stringValue : String
  deriving DecidableEq

/-- The tables of the contract. -/
structure State where
  /-- The `member`s. -/
  committee : Option (List Name) := none
  motions : Table Nat MotionInfo := ∅
  /-- By the proposer of the motion and its id. -/
  approvers : Scoped Name Nat Ballot := ∅
  /-- By proposer and id. -/
  takecoins : Scoped Name Nat TakecoinInfo := ∅
  budgetconfig : Table Name BudgetConfig := ∅

end Budget

end Eosforce
