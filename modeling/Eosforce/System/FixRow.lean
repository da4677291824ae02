import Eosforce.System.ClaimVotes

/-!
# The row of a fix-time vote

`FixRow` is all that an action does to one row of `fixvotes`: `votefix` makes it, `claim` and
`revotefix` clean its age, `outfixvote` withdraws it, and `claim` erases it once it is withdrawn.
-/

namespace Eosforce.System

open Fallible Keyed

variable {env : Env} {s s' : State}

/-- What an action at a block does to the row of a fix-time vote. -/
inductive FixRow (block : Nat) (a : Action) (v : Name) (key : Nat) :
    Option FixTimeVoteInfo → Option FixTimeVoteInfo → Prop
  | same {o : Option FixTimeVoteInfo} : FixRow block a v key o o
  /-- The age is cleaned, or the vote moves to another bp. -/
  | aged {f f' : FixTimeVoteInfo} : f'.isWithdraw = f.isWithdraw →
    f'.withdrawBlockNum = f.withdrawBlockNum → f'.votepowerAge.staked = f.votepowerAge.staked →
    FixRow block a v key (some f) (some f')
  | made {b typ : Name} {stake : Asset} {stakeTyp : Nat} {d : FixVoteData} {f : FixTimeVoteInfo} :
    a = .votefix v b typ stake stakeTyp → getDataByTyp typ = some d → 0 < stake.amount →
    f.isWithdraw = false → f.withdrawBlockNum = u32 (block + u32 (d.days * blockNumPerDay)) →
    f.votepowerAge.staked.amount = stake.amount * d.power → FixRow block a v key none (some f)
  | withdrawn {f : FixTimeVoteInfo} : a = .outfixvote v key → f.isWithdraw = false →
    f.withdrawBlockNum ≤ block →
    FixRow block a v key (some f) (some { f with vote := Asset.zero, isWithdraw := true })
  | erased {f : FixTimeVoteInfo} : f.isWithdraw = true → FixRow block a v key (some f) none

theorem exec_fixRow {a : Action} {fx : List Effect} (h : exec env s a = .ok (s', fx)) (v : Name)
    (key : Nat) :
    FixRow env.currentBlockNum a v key (s.fixvotes.find v key) (s'.fixvotes.find v key) := by
  have hch := exec_change h
  change FixRow _ _ _ _ _ (s'.ledger.fixvotes.find v key)
  generalize s'.ledger = l at hch
  cases hch with
  | transfer | updatebp | revote | bpclaim => exact .same
  | @cast typ => cases typ <;> exact .same
  | @unfreeze typ => cases typ <;> exact .same
  | @votefix v' b typ stake stakeTyp key' d act bp accounts votes f hd _ _ _ hpos _ _ _ hkey hf =>
    show FixRow _ _ _ _ _ ((s.fixvotes.put v' key' f).find v key)
    rw [Scoped.find_put]
    split
    · rename_i he
      obtain ⟨rfl, rfl⟩ := he
      subst hf
      rw [hkey]
      exact .made rfl hd hpos rfl rfl rfl
    · exact .same
  | @revotefix v' key' b f bpf bpt hf =>
    show FixRow _ _ _ _ _ ((s.fixvotes.put v' key' _).find v key)
    rw [Scoped.find_put]
    split
    · rename_i he
      obtain ⟨rfl, rfl⟩ := he
      rw [hf]
      exact .aged rfl rfl rfl
    · exact .same
  | @outfixvote v' key' f bp r hf hbp hw hno =>
    show FixRow _ _ _ _ _ ((s.fixvotes.put v' key' _).find v key)
    rw [Scoped.find_put]
    split
    · rename_i he
      obtain ⟨rfl, rfl⟩ := he
      rw [hf]
      exact .withdrawn rfl hno hw
    · exact .same
  | @claim v' b act bp newest reward votes fixvotes _ _ hn =>
    obtain ⟨age, -, hf⟩ := newestVoteage_eq hn
    show FixRow _ _ _ _ _ ((s.fixvotes.setScope v' fixvotes).find v key)
    rw [Scoped.find_setScope]
    split
    · rename_i he
      subst he
      have hfind := claimFixVotes_find env.currentBlockNum b (s.fixvotes.scope v') age key
      rw [hf] at hfind
      rw [hfind]
      show FixRow _ _ _ _ ((s.fixvotes.scope v').find key) _
      cases hk : (s.fixvotes.scope v').find key with
      | none => exact .same
      | some f =>
        rw [Option.bind_some]
        unfold claimedFixVote
        split
        · split
          · exact .erased ‹_›
          · exact .aged rfl rfl rfl
        · exact .same
    · exact .same
  | other _ _ _ hf =>
    rw [hf]
    exact .same

end Eosforce.System
