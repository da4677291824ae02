import Eosforce.System.ClaimVotes

/-!
# Frozen accounts

`is_account_freezed` is checked by the actions that spend an account's tokens or move its votes. The
actions without the check leave a frozen account's stake where it is.

* `exec_guarded`: the actions with the check.
* `Kept`: what a frozen account keeps: its available tokens, its stakes, its fix-time votes.
* `Credits`: what an action may add to the available tokens.
* `exec_frozen`: every action, signed by whomever, keeps a frozen account.
-/

namespace Eosforce.System

open Fallible Keyed

variable {env : Env} {s s' : State}

/-! ## The guards -/

/-- The account that an action with the check spends for. -/
def Action.spender : Action → Option Name
  | .transfer src _ _ _ => some src
  | .vote voter _ _ | .vote4ram voter _ _ | .revote voter _ _ _ | .votefix voter _ _ _ _
  | .revotefix voter _ _ => some voter
  | _ => none

theorem voteByTypImp_guarded {typ : VoteTyp} {voter bpname : Name} {stake : Asset}
    {r : State × Int} (h : voteByTypImp typ env s voter bpname stake = .ok r) :
    env.freezed voter = false := by
  simp only [voteByTypImp, bind_eq_ok, check_eq_ok, exists_const] at h
  obtain ⟨_, -, _, -, _, -, -, -, hf, -⟩ := h
  exact (Bool.not_eq_true _).mp hf

/-- An action with the check succeeds for accounts that are not frozen only. -/
theorem exec_guarded {a : Action} {fx : List Effect} {v : Name} (h : exec env s a = .ok (s', fx))
    (hv : a.spender = some v) : env.freezed v = false := by
  rw [← Bool.not_eq_true]
  cases a <;> cases hv <;> simp only [exec, silent_eq_ok] at h
  case transfer =>
    simp only [transfer, bind_eq_ok, check_eq_ok, exists_const] at h
    obtain ⟨_, -, _, -, _, -, -, -, -, hf, -⟩ := h
    exact hf
  case vote =>
    simp only [vote, bind_eq_ok] at h
    obtain ⟨⟨_, h, -⟩, -⟩ := h
    exact ne_true_of_eq_false (voteByTypImp_guarded h)
  case vote4ram =>
    simp only [vote4ram, bind_eq_ok] at h
    obtain ⟨_, h, -⟩ := h
    exact ne_true_of_eq_false (voteByTypImp_guarded h)
  case revote =>
    simp only [revote, bind_eq_ok, check_eq_ok, exists_const] at h
    obtain ⟨⟨_, -, -, -, -, hf, -⟩, -⟩ := h
    exact hf
  case votefix =>
    simp only [votefix, bind_eq_ok, check_eq_ok, exists_const] at h
    obtain ⟨⟨_, -, _, -, _, -, _, -, -, -, hf, -⟩, -⟩ := h
    exact hf
  case revotefix =>
    simp only [revotefix, bind_eq_ok, check_eq_ok, exists_const] at h
    obtain ⟨⟨_, -, _, -, -, -, -, hf, -⟩, -⟩ := h
    exact hf

/-! ## What is kept -/

/-- What the ledger keeps for an account: its available tokens do not fall, its stakes are the same,
and its fix-time votes are old ones for the same bps. -/
structure Kept (a : Name) (l l' : Ledger) : Prop where
  available : ∀ b, l.accounts.find a = some b →
    ∃ b', l'.accounts.find a = some b' ∧ b.available.amount ≤ b'.available.amount
  staked : ∀ typ bp, (((l'.votesTbl typ).find a bp).getD {}).voteage.staked =
    (((l.votesTbl typ).find a bp).getD {}).voteage.staked
  fixvotes : ∀ k f', l'.fixvotes.find a k = some f' →
    ∃ f, l.fixvotes.find a k = some f ∧ f'.bpname = f.bpname

theorem Kept.refl (a : Name) (l : Ledger) : Kept a l l :=
  ⟨fun b hb => ⟨b, hb, le_refl _⟩, fun _ _ => rfl, fun _ f hf => ⟨f, hf, rfl⟩⟩

theorem Kept.trans {a : Name} {l m n : Ledger} (h : Kept a l m) (h' : Kept a m n) : Kept a l n where
  available := by
    intro b hb
    obtain ⟨c, hc, hle⟩ := h.available b hb
    obtain ⟨d, hd, hle'⟩ := h'.available c hc
    exact ⟨d, hd, hle.trans hle'⟩
  staked := fun typ bp => (h'.staked typ bp).trans (h.staked typ bp)
  fixvotes := by
    intro k f' hf'
    obtain ⟨g, hg, hgb⟩ := h'.fixvotes k f' hf'
    obtain ⟨f, hf, hfb⟩ := h.fixvotes k g hg
    exact ⟨f, hf, hgb.trans hfb⟩

/-- What an action may add to the available tokens of an account: nothing, what leaves unstaking, a
reward, or a transfer. -/
inductive Credits (a : Name) (s : State) (l : Ledger) : Action → Prop
  | none {act : Action} : l.accounts.find a = s.accounts.find a → Credits a s l act
  | unfreeze {typ : VoteTyp} {bp : Name} {b : AccountInfo} {v : VoteInfo} :
    s.accounts.find a = some b → (s.votesTbl typ).find a bp = some v →
    l.accounts.find a = some (b.credit v.unstaking.amount) →
    (l.votesTbl typ).find a bp = some { v with unstaking := { v.unstaking with amount := 0 } } →
    Credits a s l (unfreezeAction typ a bp)
  | claim {bp : Name} : Credits a s l (.claim a bp)
  | bpclaim : Credits a s l (.bpclaim a)
  | onblock {bp : Name} {version : Nat} : Credits a s l (.onblock bp version)
  | transfer {src : Name} {quantity : Asset} {memo : String} :
    Credits a s l (.transfer src a quantity memo)

/-! ## The actions on votes -/

section Rows

variable {a voter : Name}

/-- A vote with its old stake is written. -/
theorem staked_put {t : Scoped Name Name VoteInfo} {bp : Name} {v : VoteInfo}
    (h : v.voteage.staked = ((t.find voter bp).getD {}).voteage.staked) (bp' : Name) :
    (((t.put voter bp v).find a bp').getD {}).voteage.staked =
      ((t.find a bp').getD {}).voteage.staked := by
  rw [Scoped.find_put]
  split
  · rename_i he
    obtain ⟨rfl, rfl⟩ := he
    exact h
  · rfl

theorem setVotesTbl_staked {l : Ledger} (typ : VoteTyp) {t : Scoped Name Name VoteInfo}
    (h : ∀ bp, ((t.find a bp).getD {}).voteage.staked =
      (((l.votesTbl typ).find a bp).getD {}).voteage.staked) (typ' : VoteTyp) (bp : Name) :
    ((((l.setVotesTbl typ t).votesTbl typ').find a bp).getD {}).voteage.staked =
      (((l.votesTbl typ').find a bp).getD {}).voteage.staked := by
  cases typ <;> cases typ' <;> first | rfl | exact h bp

theorem setVotesTbl_find {l : Ledger} {typ typ' : VoteTyp} {bp : Name} {v : VoteInfo} {k b : Name}
    (hk : k ≠ voter) :
    ((l.setVotesTbl typ ((l.votesTbl typ).put voter bp v)).votesTbl typ').find k b =
      (l.votesTbl typ').find k b := by
  cases typ <;> cases typ' <;>
    first | rfl | exact Scoped.find_put_scope _ _ hk.symm

/-- The action credits one account, `a` or another one. -/
theorem Credits.of_put {s : State} {l : Ledger} {act : Action} {k : Name} {b : AccountInfo}
    (hl : l.accounts = s.accounts.put k b) (h : k = a → Credits a s l act) : Credits a s l act := by
  by_cases hk : k = a
  · exact h hk
  · refine .none ?_
    rw [hl]
    exact Table.find_put_ne _ _ hk

/-- The action writes rows of another account only. -/
theorem Kept.of_ne {l l' : Ledger} (hv : a ≠ voter)
    (hacc : ∀ k, k ≠ voter → l'.accounts.find k = l.accounts.find k)
    (hvotes : ∀ typ k bp, k ≠ voter → (l'.votesTbl typ).find k bp = (l.votesTbl typ).find k bp)
    (hfix : ∀ k n, k ≠ voter → l'.fixvotes.find k n = l.fixvotes.find k n) : Kept a l l' where
  available := fun b hb => ⟨b, (hacc a hv).trans hb, le_refl _⟩
  staked := fun typ bp => by rw [hvotes typ a bp hv]
  fixvotes := fun k f hf => ⟨f, (hfix a k hv).symm.trans hf, rfl⟩

/-- The rows of a claim: cleaned votes with their stakes, and the fix-time votes that stay. -/
theorem claim_kept {h : Nat} {bpname : Name} {newest : Int} {votes : Scoped Name Name VoteInfo}
    {fixvotes : Table Nat FixTimeVoteInfo}
    (hn : newestVoteage h s voter bpname = (newest, votes, fixvotes)) :
    (∀ bp, ((votes.find a bp).getD {}).voteage.staked =
      ((s.votes.find a bp).getD {}).voteage.staked) ∧
    ∀ k f', (s.fixvotes.setScope voter fixvotes).find a k = some f' →
      ∃ f, s.fixvotes.find a k = some f ∧ f'.bpname = f.bpname := by
  obtain ⟨age, hv, hf⟩ := newestVoteage_eq hn
  refine ⟨fun bp => ?_, fun k f' hf' => ?_⟩
  · rcases (claimVote_spec hv).2 with ⟨rfl, -⟩ | ⟨v, hold, rfl⟩
    · rfl
    · exact staked_put (by rw [hold]; rfl) bp
  · rw [Scoped.find_setScope] at hf'
    split at hf'
    · subst_vars
      have he := claimFixVotes_find h bpname (s.fixvotes.scope voter) age k
      rw [hf, hf'] at he
      obtain ⟨f, hfk, hcl⟩ := Option.bind_eq_some_iff.mp he.symm
      refine ⟨f, hfk, ?_⟩
      unfold claimedFixVote at hcl
      split at hcl
      · split at hcl <;> cases hcl
        rfl
      · cases hcl
        rfl
    · exact ⟨f', hf', rfl⟩

end Rows

/-- **Step lemma.** An action at a block where account `a` is frozen, signed by whomever, keeps what
`a` has, and adds to its available tokens what leaves unstaking, rewards and transfers only. -/
theorem exec_frozen {act : Action} {fx : List Effect} {a : Name} (hf : env.freezed a = true)
    (h : exec env s act = .ok (s', fx)) :
    Kept a s.ledger s'.ledger ∧ Credits a s s'.ledger act := by
  have hguard : ∀ v, act.spender = some v → a ≠ v := by
    rintro v hv rfl
    rw [exec_guarded h hv] at hf
    cases hf
  have hgrow := fun hm => exec_grow (a := act) hm h
  have hc := exec_change h
  change _ → AccountsGrow s.ledger.accounts s'.ledger.accounts ∧
    (_ → s'.ledger.accounts = s.ledger.accounts) at hgrow
  generalize s'.ledger = l at hc hgrow
  cases hc with
  | @transfer src dst q memo b c hsrc hsym hq hle hdst =>
    have hne := hguard src rfl
    have hacc : ∀ x, (s.accounts.put src x).find a = s.accounts.find a := fun x =>
      Table.find_put_ne _ _ hne.symm
    refine ⟨⟨fun x hx => ?_, fun _ _ => rfl, fun _ f hf => ⟨f, hf, rfl⟩⟩, ?_⟩
    · exact AccountsGrow.credit hdst hq a x ((hacc _).trans hx)
    · by_cases hda : dst = a
      · subst hda
        exact .transfer
      · exact .none ((Table.find_put_ne _ _ hda).trans (hacc _))
  | updatebp =>
    exact ⟨⟨fun b hb => ⟨b, hb, le_refl _⟩, fun typ' _ => by cases typ' <;> rfl,
      fun _ f hf => ⟨f, hf, rfl⟩⟩, .none rfl⟩
  | @cast typ voter bpname stake b bp change v hb =>
    have hne := hguard voter (by cases typ <;> rfl)
    refine ⟨.of_ne hne (fun k hk => Table.find_put_ne _ _ hk.symm) (fun typ' k b hk => ?_)
      fun k n hk => ?_, .none (Table.find_put_ne _ _ hne.symm)⟩
    · rw [← ledger_votesTbl]
      cases typ <;> exact setVotesTbl_find hk
    · cases typ <;> rfl
  | @revote voter frombp tobp restake bpf bpt vf vt =>
    have hne := hguard voter rfl
    refine ⟨.of_ne hne (fun _ _ => rfl) (fun typ' k b hk => ?_) (fun _ _ _ => rfl), .none rfl⟩
    cases typ' with
    | votes =>
      exact (Scoped.find_put_scope _ _ hk.symm).trans (Scoped.find_put_scope _ _ hk.symm)
    | votes4ram => rfl
  | @unfreeze typ voter bpname b v hb hv hpos =>
    refine ⟨⟨?_, ?_, ?_⟩, ?_⟩
    · exact AccountsGrow.credit hb hpos.le a
    · intro typ' bp
      have hst := setVotesTbl_staked typ (l := s.ledger) (a := a)
        (t := (s.votesTbl typ).put voter bpname
          { v with unstaking := { v.unstaking with amount := 0 } })
        (fun bp => by
          rw [ledger_votesTbl]
          exact staked_put (by rw [hv]; rfl) bp) typ' bp
      cases typ <;> exact hst
    · cases typ <;> exact fun _ f hf => ⟨f, hf, rfl⟩
    · refine .of_put rfl ?_
      rintro rfl
      refine .unfreeze hb hv (Table.find_put_self _ _ _) ?_
      cases typ <;> exact Scoped.find_put_self _ _ _ _
  | @votefix voter bpname typ stake stakeTyp key d b bp accounts votes f _ _ hb _ _ _ _ hsrc hkey =>
    have hne := hguard voter rfl
    refine ⟨.of_ne hne (fun k hk => ?_) (fun typ' k b hk => ?_)
      (fun k n hk => Scoped.find_put_scope _ _ hk.symm), .none ?_⟩
    · rcases hsrc with ⟨rfl, -, -⟩ | ⟨rfl, -⟩
      · exact Table.find_put_ne _ _ hk.symm
      · rfl
    · cases typ' with
      | votes =>
        rcases hsrc with ⟨-, -, rfl⟩ | ⟨-, v, -, -, rfl⟩
        · rfl
        · exact Scoped.find_put_scope _ _ hk.symm
      | votes4ram => rfl
    · rcases hsrc with ⟨rfl, -, -⟩ | ⟨rfl, -⟩
      · exact Table.find_put_ne _ _ hne.symm
      · rfl
  | @revotefix voter key bpname f =>
    have hne := hguard voter rfl
    exact ⟨.of_ne hne (fun _ _ => rfl) (fun typ' _ _ _ => by cases typ' <;> rfl)
      (fun k n hk => Scoped.find_put_scope _ _ hk.symm), .none rfl⟩
  | @outfixvote voter key f bp v hfk hbp hw hno hv =>
    refine ⟨⟨fun b hb => ⟨b, hb, le_refl _⟩, fun typ' bp => ?_, fun k f' hf' => ?_⟩, .none rfl⟩
    · cases typ' with
      | votes => exact staked_put (by rw [hv]) bp
      | votes4ram => rfl
    · change (s.fixvotes.put voter key _).find a k = some f' at hf'
      rw [Scoped.find_put] at hf'
      split at hf'
      · rename_i he
        obtain ⟨rfl, rfl⟩ := he
        obtain rfl := Option.some.inj hf'
        exact ⟨f, hfk, rfl⟩
      · exact ⟨f', hf', rfl⟩
  | @claim voter bpname b bp newest reward votes fixvotes hb hbp hn hr h0 hpos hle =>
    obtain ⟨hstaked, hfix⟩ := claim_kept (a := a) hn
    refine ⟨⟨AccountsGrow.credit hb hpos a, fun typ' bp => ?_, hfix⟩, ?_⟩
    · cases typ' with
      | votes => exact hstaked bp
      | votes4ram => rfl
    · refine .of_put rfl ?_
      rintro rfl
      exact .claim
  | @bpclaim bpname b blockreward bpsreward x y hb _ _ hpos =>
    refine ⟨⟨AccountsGrow.credit hb hpos.le a, fun typ' bp => by cases typ' <;> rfl,
      fun _ f hf => ⟨f, hf, rfl⟩⟩, ?_⟩
    refine .of_put rfl ?_
    rintro rfl
    exact .bpclaim
  | other hm hv hv4 hfx =>
    obtain ⟨hg, hsame⟩ := hgrow hm
    refine ⟨⟨hg a, fun typ' bp => ?_, fun k f hf => ⟨f, ?_, rfl⟩⟩, ?_⟩
    · cases typ' with
      | votes => exact congrArg (fun t : Scoped Name Name VoteInfo =>
          ((t.find a bp).getD {}).voteage.staked) hv
      | votes4ram => exact congrArg (fun t : Scoped Name Name VoteInfo =>
          ((t.find a bp).getD {}).voteage.staked) hv4
    · exact (congrArg (fun t : Scoped Name Nat FixTimeVoteInfo => t.find a k) hfx).symm.trans hf
    · by_cases hon : ∃ b v, act = .onblock b v
      · obtain ⟨b, v, rfl⟩ := hon
        exact .onblock
      · refine .none (congrArg (fun t => t.find a) (hsame fun b v he => hon ⟨b, v, he⟩))

end Eosforce.System
