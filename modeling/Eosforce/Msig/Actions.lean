import Eosforce.Lib.Lane
import Eosforce.Msig.State

/-!
# Actions of `eosio.msig`

`contracts/eosio.msig/src/eosio.msig.cpp`, action by action. An action that fails leaves the tables
as they were.

* `propose`, `approve`, `unapprove`, `cancel`, `exec`, `invalidate`: the actions.
* `eraseApprovals`, `takeApprovals`: the choice between the table of approvals and the old one, at
  the end of `cancel` and in `exec`.
* `Action`, `apply`: the actions with their arguments, and what they do.
-/

namespace Eosforce.Msig

open Fallible Keyed Lanes PackedTransaction

variable {τ η : Type} [PackedTransaction τ η] [DecidableEq η]

/-- Action `propose`. -/
def propose (ctx : Ctx τ) (s : State τ) (proposer proposalName : Name)
    (requested : List PermissionLevel) (trx : τ) : Except String (State τ) := do
  let expiration ← expiration trx
  requireActor ctx proposer
  check (ctx.currentTimeSec ≤ expiration) "transaction expired"
  check ((s.proposals.find proposer proposalName).isNone = true)
    "proposal with the same name exists"
  check (0 < ctx.checkTransactionAuthorization trx requested) "transaction authorization failed"
  let proposals ← emplace (s.proposals.scope proposer) proposalName trx
  let approvals ← emplace (s.approvals.scope proposer) proposalName
    { requestedApprovals := requested.map fun level => ⟨level, 0⟩ }
  pure { s with
    proposals := s.proposals.setScope proposer proposals
    approvals := s.approvals.setScope proposer approvals }

/-- `assert_sha256` of the proposal, where the approver gives a checksum. -/
def checkHash (s : State τ) (proposer proposalName : Name) (proposalHash : Option η) :
    Except String Unit :=
  match proposalHash with
  | none => .ok ()
  | some hash => do
    let trx ← fetch (s.proposals.find proposer proposalName) "proposal not found"
    check (sha256 trx = hash) "hash mismatch"

/-- Action `approve`. -/
def approve (ctx : Ctx τ) (s : State τ) (proposer proposalName : Name) (level : PermissionLevel)
    (proposalHash : Option η) : Except String (State τ) := do
  requireLevel ctx level
  checkHash s proposer proposalName proposalHash
  match s.approvals.find proposer proposalName with
  | some apps => do
    check (∃ a ∈ apps.requestedApprovals, a.level = level)
      "approval is not on the list of requested approvals"
    pure { s with approvals := s.approvals.put proposer proposalName {
      requestedApprovals := pop Approval.level level apps.requestedApprovals
      providedApprovals := apps.providedApprovals ++ [⟨level, ctx.currentTimePoint⟩] } }
  | none => do
    let apps ← fetch (s.oldApprovals.find proposer proposalName) "proposal not found"
    check (level ∈ apps.requestedApprovals) "approval is not on the list of requested approvals"
    pure { s with oldApprovals := s.oldApprovals.put proposer proposalName {
      requestedApprovals := apps.requestedApprovals.erase level
      providedApprovals := apps.providedApprovals ++ [level] } }

/-- Action `unapprove`. -/
def unapprove (ctx : Ctx τ) (s : State τ) (proposer proposalName : Name) (level : PermissionLevel) :
    Except String (State τ) := do
  requireLevel ctx level
  match s.approvals.find proposer proposalName with
  | some apps => do
    check (∃ a ∈ apps.providedApprovals, a.level = level) "no approval previously granted"
    pure { s with approvals := s.approvals.put proposer proposalName {
      requestedApprovals := apps.requestedApprovals ++ [⟨level, ctx.currentTimePoint⟩]
      providedApprovals := pop Approval.level level apps.providedApprovals } }
  | none => do
    let apps ← fetch (s.oldApprovals.find proposer proposalName) "proposal not found"
    check (level ∈ apps.providedApprovals) "no approval previously granted"
    pure { s with oldApprovals := s.oldApprovals.put proposer proposalName {
      requestedApprovals := apps.requestedApprovals ++ [level]
      providedApprovals := apps.providedApprovals.erase level } }

/-- The end of `cancel`: the row leaves the table of approvals, or else the old one. -/
def eraseApprovals (s : State τ) (proposer proposalName : Name) : Except String (State τ) :=
  match s.approvals.find proposer proposalName with
  | some _ => .ok { s with approvals := s.approvals.erase proposer proposalName }
  | none => do
    check ((s.oldApprovals.find proposer proposalName).isSome = true) "proposal not found"
    pure { s with oldApprovals := s.oldApprovals.erase proposer proposalName }

/-- Only the proposer may cancel a transaction that has not expired. -/
def checkCancel (ctx : Ctx τ) (trx : τ) (proposer canceler : Name) : Except String Unit :=
  if canceler = proposer then .ok ()
  else do
    let expiration ← expiration trx
    check (expiration < ctx.currentTimeSec) "cannot cancel until expiration"

/-- Action `cancel`. -/
def cancel (ctx : Ctx τ) (s : State τ) (proposer proposalName canceler : Name) :
    Except String (State τ) := do
  requireActor ctx canceler
  let trx ← fetch (s.proposals.find proposer proposalName) "proposal not found"
  checkCancel ctx trx proposer canceler
  eraseApprovals { s with proposals := s.proposals.erase proposer proposalName }
    proposer proposalName

/-- The provided approvals that count in `exec`, and the tables without them. An approval counts
unless its actor has invalidated since, in the old table unless its actor has ever invalidated. -/
def takeApprovals (s : State τ) (proposer proposalName : Name) :
    Except String (List PermissionLevel × State τ) :=
  match s.approvals.find proposer proposalName with
  | some apps =>
    let counted := apps.providedApprovals.filter fun p =>
      match s.invalidations.find p.level.actor with
      | none => true
      | some lastInvalidationTime => lastInvalidationTime < p.time
    .ok (counted.map (·.level),
      { s with approvals := s.approvals.erase proposer proposalName })
  | none => do
    let apps ← fetch (s.oldApprovals.find proposer proposalName) "proposal not found"
    pure (apps.providedApprovals.filter fun level => (s.invalidations.find level.actor).isNone,
      { s with oldApprovals := s.oldApprovals.erase proposer proposalName })

/-- Action `exec`. -/
def exec (ctx : Ctx τ) (s : State τ) (proposer proposalName executer : Name) :
    Except String (State τ × Option (Deferred τ)) := do
  requireActor ctx executer
  let trx ← fetch (s.proposals.find proposer proposalName) "proposal not found"
  let expiration ← expiration trx
  check (ctx.currentTimeSec ≤ expiration) "transaction expired"
  let (approvals, s) ← takeApprovals s proposer proposalName
  check (0 < ctx.checkTransactionAuthorization trx approvals) "transaction authorization failed"
  let sent : Deferred τ := ⟨senderId proposer proposalName, executer, trx⟩
  ctx.sendDeferred sent
  pure ({ s with proposals := s.proposals.erase proposer proposalName }, some sent)

/-- Action `invalidate`: a new row or a changed one. -/
def invalidate (ctx : Ctx τ) (s : State τ) (account : Name) : Except String (State τ) := do
  requireActor ctx account
  pure { s with invalidations := s.invalidations.put account ctx.currentTimePoint }

/-! ## The contract -/

/-- The actions of the contract with their arguments. -/
inductive Action (τ η : Type) where
  | propose (proposer proposalName : Name) (requested : List PermissionLevel) (trx : τ)
  | approve (proposer proposalName : Name) (level : PermissionLevel) (proposalHash : Option η)
  | unapprove (proposer proposalName : Name) (level : PermissionLevel)
  | cancel (proposer proposalName canceler : Name)
  | exec (proposer proposalName executer : Name)
  | invalidate (account : Name)

/-- The result of an action that sends nothing. -/
def unsent (r : Except String (State τ)) : Except String (State τ × Option (Deferred τ)) := do
  let s ← r
  pure (s, none)

/-- What an action does, and what it sends. -/
def apply (ctx : Ctx τ) (s : State τ) : Action τ η → Except String (State τ × Option (Deferred τ))
  | .propose proposer proposalName requested trx =>
    unsent (propose ctx s proposer proposalName requested trx)
  | .approve proposer proposalName level proposalHash =>
    unsent (approve ctx s proposer proposalName level proposalHash)
  | .unapprove proposer proposalName level => unsent (unapprove ctx s proposer proposalName level)
  | .cancel proposer proposalName canceler => unsent (cancel ctx s proposer proposalName canceler)
  | .exec proposer proposalName executer => exec ctx s proposer proposalName executer
  | .invalidate account => unsent (invalidate ctx s account)

end Eosforce.Msig
