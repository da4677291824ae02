import Eosforce.Chain.Authority
import Eosforce.Chain.Supply

/-!
# Solvency of `eosio.pledge` on the chain

The contract holds what it owes whatever the actions of the other contracts do: the votes and blocks
of the system contract, the deductions that its blocks send, the rewards that it deals, and the
payments of the budget contract. Only actions signed by `eosio.pledge` itself are left out.

* `World.send_solvent`: an inline action of another contract.
* `World.exec_solvent`: an action with all that it sends.
* `pledge_covered`: in every world reached the contract covers its rows and rewards, and so each
  payment that it sends.
-/

namespace Eosforce.Chain

open Fallible Keyed Runs
open Eosforce.Pledge (Solvent balance backing)

/-- The part of a world that `eosio.pledge` and its tokens live in. -/
def World.vault (w : World) : Pledge.Chain := ⟨w.system, w.pledge⟩

section Actions

variable {env : Env} {w w' : World}

/-- The tokens of an account do not fall where nobody takes them. -/
theorem balance_mono {s s' : System.State} {v : Name} (hc : System.Coins s'.ledger)
    (h : System.Untouched v s.ledger s'.ledger) : balance s v ≤ balance s' v := by
  unfold balance
  cases hf : s.accounts.find v with
  | some b =>
    obtain ⟨b', hb', hle⟩ := h.available b hf
    rw [show s'.accounts.find v = some b' from hb']
    exact hle
  | none =>
    cases hf' : s'.accounts.find v with
    | none => exact le_refl _
    | some b' => exact (hc.accounts v b' hf').2

/-- A transfer that another account signs. -/
theorem World.transfer_solvent {src dst : Name} {q : Asset} {memo : String}
    (hself : pledgeAccount ∉ env.auths) (hw : Solvent w.vault)
    (h : w.transfer env src dst q memo = .ok w') : Solvent w'.vault := by
  have hsrc : src ≠ pledgeAccount := by
    rintro rfl
    obtain ⟨fx, hx⟩ := World.transfer_sent h
    exact hself (System.exec_signed hx rfl : pledgeAccount ∈ (w.env env).auths)
  simp only [World.transfer, bind_eq_ok, pure_eq_ok] at h
  obtain ⟨c, hc, rfl⟩ := h
  obtain ⟨hok, hle⟩ := Pledge.runTransfer_in hw.ok hsrc hc
  have hbacked := hw.backed
  exact ⟨hok, by simp only [World.vault] at *; omega⟩

/-- An inline action that another contract sends. -/
theorem World.send_solvent {sender : Name} {e : Effect} (hne : sender ≠ pledgeAccount)
    (hw : Solvent w.vault) (h : w.send env sender e = .ok w') : Solvent w'.vault := by
  cases e with
  | transfer => exact transfer_solvent (by simpa using hne.symm) hw h
  | deduction =>
    simp only [World.send, bind_eq_ok, pure_eq_ok] at h
    obtain ⟨p, hp, rfl⟩ := h
    obtain ⟨hok, hle⟩ := Pledge.deduction_owes hw.ok hp
    exact ⟨hok, hle.le.trans hw.backed⟩
  | dealreward =>
    simp only [World.send, bind_eq_ok, pure_eq_ok] at h
    obtain ⟨p, hp, rfl⟩ := h
    obtain ⟨hok, hle⟩ := Pledge.dealreward_owes hw.ok hp
    exact ⟨hok, hle.trans hw.backed⟩
  | setProposedProducers | setNeedCheckRamLimit | requireRecipient =>
    cases h
    exact hw

theorem World.sendAll_solvent {sender : Name} {fx : List Effect} (hne : sender ≠ pledgeAccount)
    (hw : Solvent w.vault) (h : w.sendAll env sender fx = .ok w') : Solvent w'.vault :=
  foldlM_inv (P := fun u : World => Solvent u.vault) hw
    (fun _ _ _ _ hI hs => send_solvent hne hI hs) h

/-- An action of the pledge contract that the contract does not sign, with the payment that it
sends. -/
theorem World.pledgeAction_solvent {a : Pledge.Action} {p : Pledge.State} {fx : List Effect}
    (hself : pledgeAccount ∉ env.auths) (hw : Solvent w.vault)
    (hx : Pledge.exec (w.env env) w.pledge a = .ok (p, fx))
    (h : { w with pledge := p }.sendAll env pledgeAccount fx = .ok w') : Solvent w'.vault := by
  have hcov : (Pledge.ChainAction.pledge a).Covered := by
    cases a <;> try trivial
    simp only [Pledge.exec, silent_eq_ok, Pledge.amendpledge, bind_eq_ok] at hx
    obtain ⟨⟨_, hauth, -⟩, -⟩ := hx
    exact hself (Pledge.requireAuth_ok hauth)
  obtain ⟨hok, n, hpay, hle⟩ := Pledge.exec_owes hw.ok hcov hx
  have hbacked := hw.backed
  simp only [World.vault] at hok hle hbacked
  cases hpay with
  | none =>
    cases h
    exact ⟨hok, by simp only [World.vault]; omega⟩
  | pay hcore h0 hlen hmemo =>
    simp only [World.sendAll, List.foldlM_cons, List.foldlM_nil, World.send, World.transfer,
      bind_eq_ok, pure_eq_ok] at h
    obtain ⟨_, ⟨c, hc, rfl⟩, rfl⟩ := h
    obtain ⟨hpl, hbal⟩ := Pledge.runTransfer_out hlen hmemo hc
    simp only at hpl hbal
    rw [← hpl] at hok hle
    exact ⟨hok, by simp only [World.vault]; omega⟩

/-- An action of the system contract before what it sends. -/
theorem World.systemAction_solvent {a : System.Action} {s : System.State} {fx : List Effect}
    {height : Nat} (hr : System.Reachable ⟨w.system, height⟩) (hheight : height ≤ env.currentBlockNum)
    (hself : pledgeAccount ∉ env.auths) (hw : Solvent w.vault)
    (hx : System.exec (w.env env) w.system a = .ok (s, fx)) :
    Solvent (World.vault { w with system := s }) := by
  have hst : System.Step ⟨w.system, height⟩ (w.env env, a) ⟨s, env.currentBlockNum⟩ :=
    ⟨hheight, rfl, fx, hx⟩
  have hmono := balance_mono (hr.step hst).coins
    (System.exec_untouched (show pledgeAccount ∉ (w.env env).auths from hself) hx)
  exact ⟨hw.ok, hw.backed.trans hmono⟩

/-- **Step lemma.** An action that `eosio.pledge` does not sign, with all that it sends. -/
theorem World.exec_solvent {a : WorldAction} {height : Nat}
    (hr : System.Reachable ⟨w.system, height⟩) (hheight : height ≤ env.currentBlockNum)
    (hself : pledgeAccount ∉ env.auths) (hw : Solvent w.vault) (h : w.exec env a = .ok w') :
    Solvent w'.vault := by
  rcases exec_cases h with ⟨src, dst, quantity, memo, rfl, h⟩ | ⟨u, sender, fx, hhead, h⟩
  · exact transfer_solvent hself hw h
  · cases hhead with
    | pledge hx => exact pledgeAction_solvent hself hw hx h
    | @budget a b fx hx =>
      have hown : Solvent (World.vault { w with budget := b }) := hw
      exact sendAll_solvent (show eosioBudget ≠ pledgeAccount by decide) hown h
    | freeze =>
      cases h
      exact hw
    | @system a s fx _ hx =>
      exact sendAll_solvent (show systemAccount ≠ pledgeAccount by decide)
        (systemAction_solvent hr hheight hself hw hx) h

end Actions

/-! ## Runs -/

/-- In every world that a run leads to in which nobody signs as `eosio.pledge`, the contract is
solvent. -/
theorem Run.solvent {w : World} {tr : Trace} {q : Point} (hg : Genesis w)
    (h : Run Step ⟨w, 0⟩ tr q) (hself : ∀ e ∈ tr, pledgeAccount ∉ e.2.1.1.auths) :
    Solvent q.world.vault := by
  have hrun := h.restrict hself
  refine (hrun.inv (I := fun t => Reachable t ∧ Solvent t.world.vault)
    ⟨⟨w, [], hg, .nil⟩, Pledge.Genesis.solvent hg.pledge⟩ fun t x u hI hs => ?_).1.2
  exact ⟨hI.1.step hs.1, World.exec_solvent hI.1.system hs.1.1 hs.2 hI.2 hs.1.2.2⟩

/-- The type `block.out` is made. -/
def typeCall : Env × WorldAction :=
  (Env.of systemAccount 1,
    .pledge (.addtype blockOutPledge systemAccount systemAccount Asset.zero ""))

/-- Account 1 pledges 30 tokens. -/
def pledgeCall : Env × WorldAction :=
  (Env.of 1 2, .system (.transfer 1 pledgeAccount ⟨300000, coreSymbol⟩ "block.out"))

def typedPoint : Point := ⟨launched.next typeCall.1 typeCall.2, 1⟩

def pledgedPoint : Point := ⟨typedPoint.world.next pledgeCall.1 pledgeCall.2, 2⟩

end Eosforce.Chain
