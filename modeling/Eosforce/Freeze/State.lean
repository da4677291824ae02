import Eosforce.Basic
import Eosforce.Lib.Table

/-!
# Tables of `eosio.freeze`

`contracts/eosio.freeze/include/eosio.freeze/eosio.freeze.hpp`, and the one reader of these tables
outside the contract: `system_contract::is_account_freezed`
(`contracts/eosio.system/src/freeze.cpp`).
-/

namespace Eosforce

open Keyed

namespace Freeze

/-- `freezed_table_stat_t`. -/
inductive FreezedTableStat where
  | committing | locked | actived | banned
  deriving DecidableEq

/-- `freezed_table_state`, without the two vectors the contract does not use. -/
structure FreezedTableState where
  lastCommitBlockNum : Nat := 0
  lockedBlockNum : Nat := 0
  activedBlockNum : Nat := 0
  state : FreezedTableStat := .committing
  freezedSize : Nat := 0
  deriving DecidableEq

/-- The tables of the contract: `freezed` (the `unfreeze_block_num` by committer and account),
`freezedstat` by committer, the singleton `gfstate` (its `committer`) and `actaccounts`. -/
structure State where
  freezed : Scoped Name Name Nat := ∅
  freezedstat : Table Name FreezedTableState := ∅
  gfstate : Option Name := none
  actaccounts : Table Name Unit := ∅

end Freeze

/-- `system_contract::is_account_freezed`. -/
def isAccountFreezed (f : Freeze.State) (account : Name) (currBlockNum : Nat) : Bool :=
  let actTable := f.gfstate.getD 0
  if actTable = 0 then false
  else
    match f.freezed.find actTable account with
    | none => false
    | some unfreezeBlockNum =>
      decide (unfreezeBlockNum ≤ 1024) || decide (currBlockNum ≤ unfreezeBlockNum)

end Eosforce
