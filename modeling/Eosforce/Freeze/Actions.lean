import Eosforce.Host

/-!
# Actions of `eosio.freeze` (`contracts/eosio.freeze/src/eosio.freeze.cpp`)

* `addfreezed`, `delfreezed`, `lockfreezed`: a committer fills its table and locks it.
* `actfreezed`: the chain activates a locked table, from where on `is_account_freezed` reads it.
* `confirmact`, `actconfirmed`: an account that confirmed itself before the activation leaves the
  active table.
* `exec`: what an action does. No action sends anything.
-/

namespace Eosforce.Freeze

open Fallible Keyed

/-- No table is active: what every action but `actconfirmed` checks. -/
def NotActivited (s : State) : Prop := s.gfstate.getD 0 = 0

instance (s : State) : Decidable (NotActivited s) := inferInstanceAs (Decidable (_ = _))

/-- The committer's table is not locked; a committer without a row is committing. -/
def Committing (s : State) (committer : Name) : Prop :=
  ∀ f ∈ s.freezedstat.find committer, f.state = .committing

instance (s : State) (committer : Name) : Decidable (Committing s committer) :=
  inferInstanceAs (Decidable (∀ f ∈ s.freezedstat.find committer, f.state = .committing))

/-- One iteration of `addfreezed`: an account that the table lacks is added and counted. -/
def addAccount (r : Table Name Nat × Nat) (f : Name) : Table Name Nat × Nat :=
  if (r.1.find f).isNone then (r.1.put f 0, r.2 + 1) else r

/-- The loop of `addfreezed`: the table with the accounts that it lacked, and how many these are. -/
def addAccounts (t : Table Name Nat) (accounts : List Name) : Table Name Nat × Nat :=
  accounts.foldl addAccount (t, 0)

/-- Action `addfreezed`. -/
def addfreezed (env : Env) (s : State) (committer : Name) (freezedAccounts : List Name)
    (_memo : String) : Except String State := do
  requireAuth env committer
  check (freezedAccounts.length ≤ 256) "freezed account size need <= 256"
  check (NotActivited s) "freezed table has activited"
  check (Committing s committer) "freezed state should be committing"
  let fstat := (s.freezedstat.find committer).getD {}
  let (freezed, added) := addAccounts (s.freezed.scope committer) freezedAccounts
  pure { s with
    freezed := s.freezed.setScope committer freezed
    freezedstat := s.freezedstat.put committer { fstat with
      lastCommitBlockNum := env.currentBlockNum
      freezedSize := u32 (fstat.freezedSize + added) } }

/-- Action `delfreezed`: for a new committer, `modify` gets the end iterator of the `find` before
the row was made. -/
def delfreezed (env : Env) (s : State) (committer delAcc : Name) (_memo : String) :
    Except String State := do
  requireAuth env committer
  check (NotActivited s) "freezed table has activited"
  check (Committing s committer) "freezed state should be committing"
  check ((s.freezed.find committer delAcc).isSome = true) "del account not in table"
  let fstat ← fetch (s.freezedstat.find committer) "cannot pass end iterator to modify"
  pure { s with
    freezed := s.freezed.erase committer delAcc
    freezedstat := s.freezedstat.put committer { fstat with
      lastCommitBlockNum := env.currentBlockNum
      freezedSize := u32sub fstat.freezedSize 1 } }

/-- Action `lockfreezed`: the committer locks, the chain unlocks. -/
def lockfreezed (env : Env) (s : State) (committer : Name) (isLocked : Bool) :
    Except String State := do
  requireAuth env (if isLocked then committer else systemAccount)
  check (NotActivited s) "freezed table has activited"
  let fstat ← fetch (s.freezedstat.find committer) "committer table no found"
  check (fstat.state ≠ .actived) "table has actived"
  check (fstat.state ≠ .banned) "table has banned"
  check (decide (fstat.state ≠ .committing) ≠ isLocked) "no chang state"
  pure { s with freezedstat := s.freezedstat.put committer { fstat with
    state := if isLocked then .locked else .committing
    lockedBlockNum := env.currentBlockNum } }

/-- Action `actfreezed`. -/
def actfreezed (env : Env) (s : State) (committer : Name) : Except String State := do
  requireAuth env systemAccount
  check (NotActivited s) "freezed table has activited"
  let fstat ← fetch (s.freezedstat.find committer) "committer table no found"
  check (fstat.state = .locked) "table not locked"
  pure { s with
    freezedstat := s.freezedstat.put committer { fstat with
      state := .actived
      activedBlockNum := env.currentBlockNum }
    gfstate := some committer }

/-- Action `confirmact`. -/
def confirmact (env : Env) (s : State) (account : Name) : Except String State := do
  requireAuth env account
  check (NotActivited s) "freezed table has activited"
  check (s.actaccounts.find account = none) "account has confirm actived"
  pure { s with actaccounts := s.actaccounts.put account () }

/-- Action `actconfirmed`. -/
def actconfirmed (env : Env) (s : State) (account : Name) : Except String State := do
  requireAuth env account
  let actTableCommitter ← fetch s.gfstate "freezed table not activited"
  check (actTableCommitter ≠ 0) "freezed table not activited"
  check ((s.actaccounts.find account).isSome = true) "account not confirm actived"
  let fstat ← fetch (s.freezedstat.find actTableCommitter) "no freezed stat found"
  check ((s.freezed.find actTableCommitter account).isSome = true) "del account not in table"
  pure { s with
    actaccounts := s.actaccounts.erase account
    freezed := s.freezed.erase actTableCommitter account
    freezedstat := s.freezedstat.put actTableCommitter { fstat with
      freezedSize := u32sub fstat.freezedSize 1 } }

/-! ## The contract -/

/-- The actions of the contract with their arguments. -/
inductive Action where
  | addfreezed (committer : Name) (freezeds : List Name) (memo : String)
  | delfreezed (committer freezeds : Name) (memo : String)
  | lockfreezed (committer : Name) (isLocked : Bool)
  | actfreezed (committer : Name)
  | confirmact (account : Name)
  | actconfirmed (account : Name)
  deriving DecidableEq

/-- What an action does. -/
def exec (env : Env) (s : State) : Action → Except String State
  | .addfreezed committer freezeds memo => addfreezed env s committer freezeds memo
  | .delfreezed committer freezeds memo => delfreezed env s committer freezeds memo
  | .lockfreezed committer isLocked => lockfreezed env s committer isLocked
  | .actfreezed committer => actfreezed env s committer
  | .confirmact account => confirmact env s account
  | .actconfirmed account => actconfirmed env s account

end Eosforce.Freeze
