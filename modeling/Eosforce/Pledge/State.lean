import Eosforce.Basic
import Eosforce.Lib.Table

/-!
# Tables of `eosio.pledge`

`contracts/eosio.pledge/include/eosio.pledge/eosio.pledge.hpp`. A row's primary key is its table
key. The system and the budget contract read the `pledge` table.
-/

namespace Eosforce

open Keyed

namespace Pledge

/-- `pledge_type`: `quantity` of `addtype` is kept for its symbol. -/
structure PledgeType where
  deductionAccount : Name
  pledge : Asset
  deriving DecidableEq

/-- `pledge_info`: what a pledger has pledged, and what was deducted and is not yet paid out. -/
structure PledgeInfo where
  pledge : Asset
  deduction : Asset
  deriving DecidableEq

/-- The tables of the contract: `pledgetype` by type name, `pledge` by pledger and type name,
`reward` by rewarder and raw symbol code. -/
structure State where
  pledgetype : Table Name PledgeType := ∅
  pledge : Scoped Name Name PledgeInfo := ∅
  reward : Scoped Name Nat Asset := ∅

end Pledge

end Eosforce
