import Eosforce.Host

/-!
# Tables of `eosio.token`

`contracts/eosio.token/include/eosio.token/eosio.token.hpp`. A row's primary key, the raw symbol
code, is its table key. The `stat` table of a symbol has the code as its scope too.

* `CurrencyStats`, `State`: the tables.
* `Ctx`: what an action reads besides its arguments and the tables.
-/

namespace Eosforce.Token

open Keyed

/-- `currency_stats`. -/
structure CurrencyStats where
  supply : Asset
  maxSupply : Asset
  issuer : Name
  deriving DecidableEq

/-- The tables of the contract: `stat` by symbol code, `accounts` by owner and symbol code. -/
structure State where
  stat : Table Nat CurrencyStats := ∅
  accounts : Scoped Name Nat Asset := ∅

/-- The context of an action. -/
structure Ctx extends Env where
  /-- `is_account`. -/
  isAccount : Name → Bool := fun _ => true

/-- The context of an action of an account, where every name is an account. -/
def Ctx.of (account : Name) : Ctx := { Env.of account 1 with }

end Eosforce.Token
