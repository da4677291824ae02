import Eosforce.Host

/-!
# Tables of `eosio.msig`

`contracts/eosio.msig/include/eosio.msig/eosio.msig.hpp`. Each proposer has tables of its own, in
which a proposal's name is the key.

* `PackedTransaction`: what the contract reads from the bytes of a packed transaction. Type `τ` of
  the bytes and type `η` of the checksums are arbitrary.
* `PermissionLevel`, `Approval`, `ApprovalsInfo`, `OldApprovalsInfo`, `State`: the tables. The first
  version of the contract kept approvals without times; its rows are still served.
* `Ctx`: the context of an action. A `time_point` is a number of microseconds.
* `Deferred`: the transaction that the contract sends.
-/

namespace Eosforce.Msig

open Fallible Keyed

/-- What the contract reads from the bytes of a packed transaction. -/
class PackedTransaction (τ : Type) (η : outParam Type) where
  /-- The `expiration` of the unpacked `transaction_header`. -/
  expiration : τ → Except String Nat
  sha256 : τ → η

/-- `permission_level`. -/
structure PermissionLevel where
  actor : Name
  permission : Name
  deriving DecidableEq

/-- `approval`. -/
structure Approval where
  level : PermissionLevel
  time : Nat
  deriving DecidableEq

/-- A row of table `approvals2`. -/
structure ApprovalsInfo where
  requestedApprovals : List Approval
  providedApprovals : List Approval := []
  deriving DecidableEq

/-- A row of table `approvals`. -/
structure OldApprovalsInfo where
  requestedApprovals : List PermissionLevel
  providedApprovals : List PermissionLevel := []
  deriving DecidableEq

/-- The tables of the contract. -/
structure State (τ : Type) where
  proposals : Scoped Name Name τ := ∅
  approvals : Scoped Name Name ApprovalsInfo := ∅
  oldApprovals : Scoped Name Name OldApprovalsInfo := ∅
  /-- The `last_invalidation_time` of an account. -/
  invalidations : Table Name Nat := ∅

/-- A transaction that `send_deferred` hands to the chain. -/
structure Deferred (τ : Type) where
  senderId : Nat
  payer : Name
  trx : τ
  deriving DecidableEq

/-- The context of an action. -/
structure Ctx (τ : Type) where
  /-- The permission levels that signed the action. -/
  auths : List PermissionLevel
  currentTimePoint : Nat
  /-- `check_transaction_authorization` with no keys. -/
  checkTransactionAuthorization : τ → List PermissionLevel → Int
  /-- Whether the chain accepts the deferred transaction. -/
  sendDeferred : Deferred τ → Except String Unit := fun _ => .ok ()

/-- `eosio::time_point_sec(current_time_point())`, a `uint32_t`. -/
def Ctx.currentTimeSec {τ : Type} (ctx : Ctx τ) : Nat := u32 (ctx.currentTimePoint / 1000000)

/-- `require_auth` of a permission level. -/
def requireLevel {τ : Type} (ctx : Ctx τ) (level : PermissionLevel) : Except String Unit :=
  check (level ∈ ctx.auths) "missing required authority"

/-- `require_auth` of an account: with any of its permissions. -/
def requireActor {τ : Type} (ctx : Ctx τ) (account : Name) : Except String Unit :=
  check (∃ level ∈ ctx.auths, level.actor = account) "missing required authority"

/-- `(uint128_t(proposer.value) << 64) | proposal_name.value`. -/
def senderId (proposer proposalName : Name) : Nat := proposer <<< 64 ||| proposalName

end Eosforce.Msig
