import Eosforce.System.State

/-!
# Transfer of the core token (`contracts/eosio.system/src/transfer.cpp`)
-/

namespace Eosforce.System

open Fallible Keyed

/-- The two `modify` calls: for one account on both sides, the second sees what the first wrote. -/
def moveTokens (s : State) (src dst : Name) (quantity : Asset) : Except String State := do
  let srcAct ← fetch (s.accounts.find src) "from account is not found in accounts table"
  let available ← srcAct.available.sub quantity
  let accounts := s.accounts.put src { srcAct with available }
  let dstAct ← fetch (accounts.find dst) "to account is not found in accounts table"
  let available ← dstAct.available.add quantity
  pure { s with accounts := accounts.put dst { dstAct with available } }

/-- Action `transfer`. -/
def transfer (env : Env) (s : State) (src dst : Name) (quantity : Asset) (memo : String) :
    Except String (State × List Effect) := do
  requireAuth env src
  let srcAct ← fetch (s.accounts.find src) "from account is not found in accounts table"
  let _dstAct ← fetch (s.accounts.find dst) "to account is not found in accounts table"
  check (quantity.symbol = coreSymbol) "only support EOS which has 4 precision"
  check (0 ≤ quantity.amount ∧ quantity.amount ≤ srcAct.available.amount)
    "need 0.0000 EOS < quantity < available balance"
  check (memo.utf8ByteSize ≤ 256) "memo has more than 256 bytes"
  check (¬env.freezed src) "account is freezed by EOSC FIP #11"
  let s ← moveTokens s src dst quantity
  pure (s, [.requireRecipient src, .requireRecipient dst])

end Eosforce.System
