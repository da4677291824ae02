import Eosforce.System.ClaimOrder
import Eosforce.System.Frozen

/-!
# Authority

Every action but `onblock` requires the authority of one account, and an action on an account's
tokens and votes the authority of that account.

* `Action.signer`, `exec_signed`: the account that signs an action.
* `Untouched`: what an account keeps without its authority: its available tokens do not fall, and
  its votes of every kind are the same rows.
* `exec_untouched`: an action that an account does not sign leaves it untouched.
-/

namespace Eosforce.System

open Fallible Keyed

variable {env : Env} {s s' : State}

/-! ## Signers -/

/-- The account whose authority an action requires. -/
def Action.signer : Action → Option Name
  | .transfer src _ _ _ => some src
  | .vote voter _ _ | .vote4ram voter _ _ | .revote voter _ _ _ | .unfreeze voter _
  | .unfreezeram voter _ | .votefix voter _ _ _ _ | .revotefix voter _ _ | .outfixvote voter _
  | .claim voter _ => some voter
  | .updatebp bpname _ _ _ | .setemergency bpname _ | .heartbeat bpname _ | .bailpunish bpname
  | .bpclaim bpname | .removepunish bpname => some bpname
  | .punishbp _ proposaler => some proposaler
  | .approvebp _ approver => some approver
  | .removebp _ | .monitorevise _ | .updateconfig _ _ _ => some systemAccount
  | .onblock _ _ => none

theorem signed_of_ok {β : Type} {f : Unit → Except String β} {v : Name} {r : β}
    (h : (requireAuth env v >>= f) = .ok r) : v ∈ env.auths := by
  rw [bind_eq_ok] at h
  obtain ⟨_, h, -⟩ := h
  exact check_eq_ok.mp h

theorem voteByTypImp_signed {typ : VoteTyp} {voter bpname : Name} {stake : Asset}
    {r : State × Int} (h : voteByTypImp typ env s voter bpname stake = .ok r) :
    voter ∈ env.auths :=
  signed_of_ok h

/-- An action succeeds with the authority of its signer only. -/
theorem exec_signed {a : Action} {fx : List Effect} {v : Name} (h : exec env s a = .ok (s', fx))
    (hv : a.signer = some v) : v ∈ env.auths := by
  cases a <;> cases hv <;> simp only [exec, silent_eq_ok] at h
  case vote =>
    simp only [vote, bind_eq_ok] at h
    obtain ⟨⟨_, h, -⟩, -⟩ := h
    exact voteByTypImp_signed h
  case vote4ram =>
    simp only [vote4ram, bind_eq_ok] at h
    obtain ⟨_, h, -⟩ := h
    exact voteByTypImp_signed h
  case transfer => exact signed_of_ok h
  case approvebp => exact signed_of_ok h
  all_goals exact signed_of_ok h.1

/-! ## Accounts that do not sign -/

/-- What the ledger keeps for an account that does not sign. -/
structure Untouched (v : Name) (l l' : Ledger) : Prop where
  available : ∀ b, l.accounts.find v = some b →
    ∃ b', l'.accounts.find v = some b' ∧ b.available.amount ≤ b'.available.amount
  votes : ∀ typ bp, (l'.votesTbl typ).find v bp = (l.votesTbl typ).find v bp
  fixvotes : ∀ k, l'.fixvotes.find v k = l.fixvotes.find v k

theorem Untouched.refl (v : Name) (l : Ledger) : Untouched v l l :=
  ⟨fun b hb => ⟨b, hb, le_refl _⟩, fun _ _ => rfl, fun _ => rfl⟩

theorem Untouched.trans {v : Name} {l m n : Ledger} (h : Untouched v l m)
    (h' : Untouched v m n) : Untouched v l n where
  available := by
    intro b hb
    obtain ⟨c, hc, hle⟩ := h.available b hb
    obtain ⟨d, hd, hle'⟩ := h'.available c hc
    exact ⟨d, hd, hle.trans hle'⟩
  votes := fun typ bp => (h'.votes typ bp).trans (h.votes typ bp)
  fixvotes := fun k => (h'.fixvotes k).trans (h.fixvotes k)

/-- The votes of every kind are the same rows, and the available tokens do not fall. -/
theorem Untouched.of_votes {v : Name} {l l' : Ledger} (hacc : AccountsGrow l.accounts l'.accounts)
    (hv : l'.votes = l.votes) (hr : l'.votes4ram = l.votes4ram)
    (hf : l'.fixvotes = l.fixvotes) : Untouched v l l' where
  available := hacc v
  votes := by
    intro typ bp
    cases typ
    · exact congrArg (fun t : Scoped Name Name VoteInfo => t.find v bp) hv
    · exact congrArg (fun t : Scoped Name Name VoteInfo => t.find v bp) hr
  fixvotes := fun k => congrArg (fun t : Scoped Name Nat FixTimeVoteInfo => t.find v k) hf

/-- The action writes rows of another account only. -/
theorem Untouched.of_ne {v voter : Name} {l l' : Ledger} (hv : v ≠ voter)
    (hacc : ∀ k, k ≠ voter → l'.accounts.find k = l.accounts.find k)
    (hvotes : ∀ typ k bp, k ≠ voter → (l'.votesTbl typ).find k bp = (l.votesTbl typ).find k bp)
    (hfix : ∀ k n, k ≠ voter → l'.fixvotes.find k n = l.fixvotes.find k n) :
    Untouched v l l' where
  available := fun b hb => ⟨b, (hacc v hv).trans hb, le_refl _⟩
  votes := fun typ bp => hvotes typ v bp hv
  fixvotes := fun k => hfix v k hv

/-- A change by an action that the account does not sign. -/
theorem Change.untouched {a : Action} {l : Ledger} {v : Name} (hch : Change env s a l)
    (hg : a.moves = false → AccountsGrow s.ledger.accounts l.accounts)
    (hv : ∀ k, a.signer = some k → v ≠ k) : Untouched v s.ledger l := by
  cases hch with
  | @transfer src dst q memo b c hsrc hsym hq hle hdst =>
    have hne := hv src rfl
    refine ⟨fun x hx => ?_, fun typ _ => by cases typ <;> rfl, fun _ => rfl⟩
    exact AccountsGrow.credit hdst hq v x ((Table.find_put_ne _ _ hne.symm).trans hx)
  | updatebp => exact .of_votes (.refl _) rfl rfl rfl
  | @cast typ voter bpname stake b bp change r hb =>
    have hne := hv voter (by cases typ <;> rfl)
    refine .of_ne hne (fun k hk => Table.find_put_ne _ _ hk.symm) (fun typ' k bp hk => ?_)
      fun k n hk => ?_
    · rw [← ledger_votesTbl]
      cases typ <;> exact setVotesTbl_find hk
    · cases typ <;> rfl
  | @revote voter frombp tobp restake bpf bpt vf vt =>
    refine .of_ne (hv voter rfl) (fun _ _ => rfl) (fun typ' k b hk => ?_) fun _ _ _ => rfl
    cases typ' with
    | votes =>
      exact (Scoped.find_put_scope _ _ hk.symm).trans (Scoped.find_put_scope _ _ hk.symm)
    | votes4ram => rfl
  | @unfreeze typ voter bpname b r hb hr hpos =>
    have hne := hv voter (by cases typ <;> rfl)
    refine .of_ne hne (fun k hk => Table.find_put_ne _ _ hk.symm) (fun typ' k bp hk => ?_)
      fun k n hk => ?_
    · rw [← ledger_votesTbl]
      cases typ <;> exact setVotesTbl_find hk
    · cases typ <;> rfl
  | @votefix voter bpname typ stake stakeTyp key d b bp accounts votes f _ _ hb _ _ _ _ hsrc =>
    refine .of_ne (hv voter rfl) (fun k hk => ?_) (fun typ' k b hk => ?_)
      fun k n hk => Scoped.find_put_scope _ _ hk.symm
    · rcases hsrc with ⟨rfl, -, -⟩ | ⟨rfl, -⟩
      · exact Table.find_put_ne _ _ hk.symm
      · rfl
    · cases typ' with
      | votes =>
        rcases hsrc with ⟨-, -, rfl⟩ | ⟨-, w, -, -, rfl⟩
        · rfl
        · exact Scoped.find_put_scope _ _ hk.symm
      | votes4ram => rfl
  | @revotefix voter key bpname f =>
    exact .of_ne (hv voter rfl) (fun _ _ => rfl) (fun typ' _ _ _ => by cases typ' <;> rfl)
      fun k n hk => Scoped.find_put_scope _ _ hk.symm
  | @outfixvote voter key f bp w =>
    refine .of_ne (hv voter rfl) (fun _ _ => rfl) (fun typ' k b hk => ?_)
      fun k n hk => Scoped.find_put_scope _ _ hk.symm
    cases typ' with
    | votes => exact Scoped.find_put_scope _ _ hk.symm
    | votes4ram => rfl
  | @claim voter bpname b bp newest reward votes fixvotes hb hbp hn =>
    refine .of_ne (hv voter rfl) (fun k hk => Table.find_put_ne _ _ hk.symm)
      (fun typ' k b hk => ?_) fun k n hk => ?_
    · cases typ' with
      | votes =>
        obtain ⟨age, hcv, -⟩ := newestVoteage_eq hn
        rcases (claimVote_spec hcv).2 with ⟨rfl, -⟩ | ⟨w, -, rfl⟩
        · rfl
        · exact Scoped.find_put_scope _ _ hk.symm
      | votes4ram => rfl
    · show (s.fixvotes.setScope voter fixvotes).find k n = _
      rw [Scoped.find_setScope, if_neg hk.symm]
      rfl
  | @bpclaim bpname b blockreward bpsreward x y hb _ _ hpos =>
    exact .of_votes (AccountsGrow.credit hb hpos.le) rfl rfl rfl
  | other hm hvotes hram hfix => exact .of_votes (hg hm) hvotes hram hfix

/-- **Step lemma.** An action that an account does not sign takes none of its tokens and leaves its
votes as they are. -/
theorem exec_untouched {a : Action} {fx : List Effect} {v : Name} (hv : v ∉ env.auths)
    (h : exec env s a = .ok (s', fx)) : Untouched v s.ledger s'.ledger := by
  refine (exec_change h).untouched (fun hm => (exec_grow hm h).1) ?_
  rintro k hk rfl
  exact hv (exec_signed h hk)

/-- An account stays in the table. -/
theorem exec_account {a : Action} {fx : List Effect} (h : exec env s a = .ok (s', fx))
    (hv : (s.accounts.find v).isSome = true) : (s'.accounts.find v).isSome = true := by
  have hch := exec_change h
  have hgrow := fun hm => (exec_grow (a := a) hm h).1
  change _ → AccountsGrow _ s'.ledger.accounts at hgrow
  change (s'.ledger.accounts.find v).isSome = true
  generalize s'.ledger = l at *
  cases hch with
  | transfer => exact isSome_put _ (isSome_put _ hv)
  | cast | unfreeze | claim | bpclaim => exact isSome_put _ hv
  | votefix _ _ _ _ _ _ _ hsrc =>
    rcases hsrc with ⟨rfl, -, rfl⟩ | ⟨rfl, _, -, -, rfl⟩
    · exact isSome_put _ hv
    · exact hv
  | other hm =>
    obtain ⟨a, ha⟩ := Option.isSome_iff_exists.mp hv
    obtain ⟨a', ha', -⟩ := hgrow hm v a ha
    exact isSome_of_find ha'
  | _ => exact hv

end Eosforce.System
