import Eosforce.System.Supply

/-!
# Where a token can go

A token is in an account, staked, unstaking, in a fix-time vote, or not yet paid out as a reward. A
step may take it from a place whose amount falls to one whose amount rises.

* `Place`, `Ledger.held`: the places of tokens and how many each holds.
* `Moves`: what one step may do to a token.
* `Flow`, `exec_flow`: the moves that the actions make, with what they say about the pots of
  unstaking tokens and the fix-time votes.
* `exec_unstakeHeight`: what an action does to the heights of the pots.
-/

namespace Eosforce.System

open Fallible Keyed Runs

/-- Where a token is. -/
inductive Place where
  | available (account : Name)
  | staked (typ : VoteTyp) (voter bpname : Name)
  | unstaking (typ : VoteTyp) (voter bpname : Name)
  | fixed (voter : Name) (key : Nat)
  /-- Not yet issued, or a reward that is not paid out. -/
  | reward
  deriving DecidableEq

namespace Ledger

/-- The vote, or the default row. -/
def vote (l : Ledger) (typ : VoteTyp) (voter bpname : Name) : VoteInfo :=
  ((l.votesTbl typ).find voter bpname).getD {}

/-- The tokens at a place; rewards are not counted. -/
def held (l : Ledger) : Place → Int
  | .available account => (l.accounts.find account).elim 0 fun a => a.available.amount
  | .staked typ voter bpname => (l.vote typ voter bpname).voteage.staked.amount
  | .unstaking typ voter bpname => (l.vote typ voter bpname).unstaking.amount
  | .fixed voter key => (l.fixvotes.find voter key).elim 0 fun f => f.vote.amount
  | .reward => 0

variable {l m : Ledger}

theorem vote_congr (hv : l.votes = m.votes) (hr : l.votes4ram = m.votes4ram) :
    l.vote = m.vote := by
  funext typ v b
  unfold vote
  cases typ with
  | votes => exact congrArg (fun t : Scoped Name Name VoteInfo => (t.find v b).getD {}) hv
  | votes4ram => exact congrArg (fun t : Scoped Name Name VoteInfo => (t.find v b).getD {}) hr

theorem held_congr (ha : l.accounts = m.accounts) (hv : l.vote = m.vote)
    (hf : l.fixvotes = m.fixvotes) : l.held = m.held := by
  funext R
  cases R <;> simp only [held, ha, hv, hf]

/-! ## Written rows -/

def putAccount (l : Ledger) (k : Name) (a : AccountInfo) : Ledger :=
  { l with accounts := l.accounts.put k a }

def putVote (l : Ledger) (typ : VoteTyp) (voter bpname : Name) (v : VoteInfo) : Ledger :=
  l.setVotesTbl typ ((l.votesTbl typ).put voter bpname v)

def putFixvote (l : Ledger) (voter : Name) (key : Nat) (f : FixTimeVoteInfo) : Ledger :=
  { l with fixvotes := l.fixvotes.put voter key f }

variable (l : Ledger)

@[simp] theorem vote_putAccount (k : Name) (a : AccountInfo) (typ : VoteTyp) (v b : Name) :
    (l.putAccount k a).vote typ v b = l.vote typ v b := by cases typ <;> rfl

@[simp] theorem vote_putFixvote (k : Name) (n : Nat) (f : FixTimeVoteInfo) (typ : VoteTyp)
    (v b : Name) : (l.putFixvote k n f).vote typ v b = l.vote typ v b := by cases typ <;> rfl

theorem vote_putVote (typ : VoteTyp) (v b : Name) (r : VoteInfo) (typ' : VoteTyp) (v' b' : Name) :
    (l.putVote typ v b r).vote typ' v' b' =
      if typ = typ' ∧ v = v' ∧ b = b' then r else l.vote typ' v' b' := by
  have hput (t : Scoped Name Name VoteInfo) : ((t.put v b r).find v' b').getD {} =
      if v = v' ∧ b = b' then r else (t.find v' b').getD {} := by
    rw [Scoped.find_put]
    split <;> rfl
  cases typ <;> cases typ'
  · simp only [true_and]
    exact hput l.votes
  · simp [vote, putVote, setVotesTbl, votesTbl]
  · simp [vote, putVote, setVotesTbl, votesTbl]
  · simp only [true_and]
    exact hput l.votes4ram

theorem held_putAccount (k : Name) (a : AccountInfo) (R : Place) :
    (l.putAccount k a).held R = if R = .available k then a.available.amount else l.held R := by
  cases R with
  | available k' =>
    simp only [held, putAccount, Table.find_put, Place.available.injEq, eq_comm (a := k')]
    split <;> rfl
  | _ => simp [held, putAccount, vote, votesTbl]

theorem held_putVote (typ : VoteTyp) (v b : Name) (r : VoteInfo) (R : Place) :
    (l.putVote typ v b r).held R =
      if R = .staked typ v b then r.voteage.staked.amount
      else if R = .unstaking typ v b then r.unstaking.amount else l.held R := by
  cases R with
  | staked typ' v' b' =>
    simp only [held, vote_putVote, Place.staked.injEq, eq_comm (a := typ'), eq_comm (a := v'),
      eq_comm (a := b'), reduceCtorEq, if_false]
    split <;> rfl
  | unstaking typ' v' b' =>
    simp only [held, vote_putVote, Place.unstaking.injEq, eq_comm (a := typ'), eq_comm (a := v'),
      eq_comm (a := b'), reduceCtorEq, if_false]
    split <;> rfl
  | _ => cases typ <;> simp [held, putVote, setVotesTbl]

theorem held_putFixvote (v : Name) (n : Nat) (f : FixTimeVoteInfo) (R : Place) :
    (l.putFixvote v n f).held R = if R = .fixed v n then f.vote.amount else l.held R := by
  cases R with
  | fixed v' n' =>
    simp only [held, putFixvote, Scoped.find_put, Place.fixed.injEq, eq_comm (a := v'),
      eq_comm (a := n')]
    split <;> rfl
  | _ => simp [held, putFixvote, vote, votesTbl]

end Ledger

variable {env : Env} {s s' : State}

/-! ## Moves -/

/-- A step may take a token from `P` to `Q`: the amount at `Q` rises and the one at `P` falls; a
reward is paid out where no amount falls. -/
def Moves (l l' : Ledger) (P Q : Place) : Prop :=
  l.held Q < l'.held Q ∧ (l'.held P < l.held P ∨ P = .reward ∧ ∀ R, l.held R ≤ l'.held R)

/-- Tokens go from `A` to `B`, and all other amounts stay. -/
theorem Moves.of_transfer {l l' : Ledger} {P Q A B : Place} (h : Moves l l' P Q)
    (hframe : ∀ R, R ≠ A → R ≠ B → l'.held R = l.held R) (hA : l'.held A ≤ l.held A)
    (hB : l.held B ≤ l'.held B) (hsum : l'.held A + l'.held B = l.held A + l.held B) :
    P = A ∧ Q = B ∧ l'.held A < l.held A := by
  obtain ⟨hQ, hP⟩ := h
  have hQB : Q = B := by
    by_contra hne
    by_cases hQA : Q = A
    · subst hQA
      omega
    · exact absurd (hframe Q hQA hne) (by omega)
  subst hQB
  have hfall : l'.held A < l.held A := by omega
  refine ⟨?_, rfl, hfall⟩
  rcases hP with hP | ⟨-, hP⟩
  · by_contra hne
    by_cases hPB : P = Q
    · subst hPB
      omega
    · exact absurd (hframe P hne hPB) (by omega)
  · exact absurd (hP A) (by omega)

/-- Amounts only rise: what moves is a reward. -/
theorem Moves.of_le {l l' : Ledger} {P Q : Place} (h : Moves l l' P Q)
    (hle : ∀ R, l.held R ≤ l'.held R) : P = .reward := by
  rcases h.2 with hP | hP
  · exact absurd (hle P) (by omega)
  · exact hP.1

/-- The block up to which the tokens of the pot are locked starts here. -/
def Ledger.unstakeHeight (l : Ledger) (typ : VoteTyp) (voter bpname : Name) : Nat :=
  (l.vote typ voter bpname).unstakeHeight

/-- The moves of the actions, from the ledger `l` to `l'` at a block. -/
inductive Flow (block : Nat) (l l' : Ledger) : Action → Place → Place → Prop
  | transfer {src dst : Name} {q : Asset} {memo : String} :
    Flow block l l' (.transfer src dst q memo) (.available src) (.available dst)
  | stake {typ : VoteTyp} {v b : Name} {stake : Asset} :
    Flow block l l' (castAction typ v b stake) (.available v) (.staked typ v b)
  /-- A vote is lowered: the pot is locked anew. -/
  | lower {typ : VoteTyp} {v b : Name} {stake : Asset} :
    stake.amount < l.held (.staked typ v b) → l'.unstakeHeight typ v b = block →
    Flow block l l' (castAction typ v b stake) (.staked typ v b) (.unstaking typ v b)
  | revote {v b b' : Name} {restake : Asset} :
    Flow block l l' (.revote v b b' restake) (.staked .votes v b) (.staked .votes v b')
  | unfreeze {typ : VoteTyp} {v b : Name} :
    u32 (l.unstakeHeight typ v b + frozenDelay) < block →
    Flow block l l' (unfreezeAction typ v b) (.unstaking typ v b) (.available v)
  | votefix {v b typ : Name} {stake : Asset} {stakeTyp key : Nat} {d : FixVoteData} {P : Place}
    {f : FixTimeVoteInfo} :
    (P = .available v ∨ P = .unstaking .votes v b) → getDataByTyp typ = some d →
    l'.fixvotes.find v key = some f → f.isWithdraw = false →
    f.withdrawBlockNum = u32 (block + u32 (d.days * blockNumPerDay)) →
    Flow block l l' (.votefix v b typ stake stakeTyp) P (.fixed v key)
  /-- A fix-time vote is over: the pot is locked anew. -/
  | outfixvote {v : Name} {key : Nat} {f : FixTimeVoteInfo} :
    l.fixvotes.find v key = some f → f.isWithdraw = false → f.withdrawBlockNum ≤ block →
    l'.unstakeHeight .votes v f.bpname = block →
    Flow block l l' (.outfixvote v key) (.fixed v key) (.unstaking .votes v f.bpname)
  | claim {v b : Name} {k : Name} : Flow block l l' (.claim v b) .reward (.available k)
  | bpclaim {b k : Name} : Flow block l l' (.bpclaim b) .reward (.available k)
  | onblock {b k : Name} {version : Nat} :
    Flow block l l' (.onblock b version) .reward (.available k)

/-! ## The heights of the pots -/

theorem castVote_unstakeHeight {h : Nat} {act : AccountInfo} {vts : Option VoteInfo} {stake : Asset}
    {change : Int} {r : VoteInfo} (h0 : 0 ≤ stake.amount)
    (hr : castVote h act vts stake = .ok (change, r)) :
    r.unstakeHeight =
      if stake.amount < (vts.getD {}).voteage.staked.amount then h
      else (vts.getD {}).unstakeHeight := by
  cases vts with
  | none =>
    simp only [castVote, bind_eq_ok, check_eq_ok, pure_eq_ok, Prod.mk.injEq] at hr
    obtain ⟨_, -, -, rfl⟩ := hr
    rw [if_neg (by simpa [Asset.zero] using h0)]
    rfl
  | some old =>
    simp only [castVote, bind_eq_ok, check_eq_ok, pure_eq_ok, Prod.mk.injEq] at hr
    obtain ⟨_, -, -, rfl⟩ := hr
    by_cases hlt : stake.amount < old.voteage.staked.amount
    · rw [if_pos (by omega), Option.getD_some, if_pos hlt]
    · rw [if_neg (by omega), Option.getD_some, if_neg hlt]

theorem voteByTypImp_unstakeHeight {typ : VoteTyp} {v b : Name} {stake : Asset} {r : State × Int}
    (h : voteByTypImp typ env s v b stake = .ok r) : r.1.ledger.unstakeHeight typ v b =
      if stake.amount < s.ledger.held (.staked typ v b) then env.currentBlockNum
      else s.ledger.unstakeHeight typ v b := by
  simp only [voteByTypImp, bind_eq_ok, fetch_eq_ok, check_eq_ok, pure_eq_ok, Prod.exists,
    exists_const] at h
  obtain ⟨_, -, act, hact, bp, hbp, -, hst, -, change, row, hrow, t, ht, rfl⟩ := h
  obtain ⟨rfl, -⟩ := applyChange_spec (by rw [setVotesTbl_accounts]; exact hact)
    (by rw [setVotesTbl_bps]; exact hbp) ht
  have hh := castVote_unstakeHeight hst.1 hrow
  rw [← ledger_votesTbl] at hh
  refine Eq.trans ?_ hh
  cases typ <;> exact congrArg (fun r : Option VoteInfo => (r.getD {}).unstakeHeight)
    (Scoped.find_put_self _ _ _ _)

/-- A lowered vote locks its pot anew, another cast vote leaves the height. -/
theorem cast_unstakeHeight {typ : VoteTyp} {v b : Name} {stake : Asset} {fx : List Effect}
    (h : exec env s (castAction typ v b stake) = .ok (s', fx)) : s'.ledger.unstakeHeight typ v b =
      if stake.amount < s.ledger.held (.staked typ v b) then env.currentBlockNum
      else s.ledger.unstakeHeight typ v b := by
  cases typ with
  | votes =>
    simp only [castAction, exec, silent_eq_ok, vote, bind_eq_ok, pure_eq_ok, Prod.exists] at h
    obtain ⟨⟨t, change, ht, rfl⟩, -⟩ := h
    exact voteByTypImp_unstakeHeight ht
  | votes4ram =>
    simp only [castAction, exec, vote4ram, bind_eq_ok, pure_eq_ok, Prod.exists,
      Prod.mk.injEq] at h
    obtain ⟨t, change, ht, u, hu, rfl, -⟩ := h
    rw [addVote4ramsum_ledger hu]
    exact voteByTypImp_unstakeHeight ht

/-- Tokens leave the pot after the delay. -/
theorem unfreeze_delay {typ : VoteTyp} {v b : Name} {fx : List Effect}
    (h : exec env s (unfreezeAction typ v b) = .ok (s', fx)) :
    u32 (s.ledger.unstakeHeight typ v b + frozenDelay) < env.currentBlockNum := by
  have key : ∀ t, unfreezeByTypImp typ env s v b = .ok t →
      u32 (s.ledger.unstakeHeight typ v b + frozenDelay) < env.currentBlockNum := by
    intro t ht
    simp only [unfreezeByTypImp, bind_eq_ok, fetch_eq_ok, check_eq_ok, exists_const] at ht
    obtain ⟨_, -, act, -, r, hr, hd, -⟩ := ht
    have hv : s.ledger.vote typ v b = r := by
      unfold Ledger.vote
      rw [ledger_votesTbl, hr]
      rfl
    unfold Ledger.unstakeHeight
    rw [hv]
    exact hd
  cases typ <;> simp only [unfreezeAction, exec, silent_eq_ok] at h <;> exact key _ h.1

/-! ## The moves of each action -/

section Flow

variable {P Q : Place} {l : Ledger}

theorem held_available {k : Name} {a : AccountInfo} (ha : s.accounts.find k = some a) :
    s.ledger.held (.available k) = a.available.amount := by
  show (s.accounts.find k).elim 0 _ = _
  rw [ha]
  rfl

theorem held_fixed {v : Name} {key : Nat} {f : FixTimeVoteInfo}
    (hf : s.fixvotes.find v key = some f) : s.ledger.held (.fixed v key) = f.vote.amount := by
  show (s.fixvotes.find v key).elim 0 _ = _
  rw [hf]
  rfl

theorem transfer_flow {src dst : Name} {q : Asset} {memo : String} {a b : AccountInfo}
    (ha : s.accounts.find src = some a) (hq : 0 ≤ q.amount)
    (hb : (s.accounts.put src (a.credit (-q.amount))).find dst = some b)
    (hl : l.held = ((s.ledger.putAccount src (a.credit (-q.amount))).putAccount dst
      (b.credit q.amount)).held) (hm : Moves s.ledger l P Q) (block : Nat) :
    Flow block s.ledger l (.transfer src dst q memo) P Q := by
  have hsrc := held_available ha
  by_cases hne : dst = src
  · -- a transfer to oneself changes nothing
    subst hne
    rw [Table.find_put_self] at hb
    obtain rfl := Option.some.inj hb
    have hsame : ∀ R, l.held R = s.ledger.held R := by
      intro R
      rw [hl, Ledger.held_putAccount, Ledger.held_putAccount]
      split
      · subst_vars
        rw [hsrc, AccountInfo.credit_amount, AccountInfo.credit_amount]
        omega
      · rfl
    have := hm.1
    rw [hsame] at this
    omega
  · rw [Table.find_put_ne _ _ (Ne.symm hne)] at hb
    have hdst := held_available hb
    have hsrc' : l.held (.available src) = a.available.amount - q.amount := by
      rw [hl, Ledger.held_putAccount, if_neg (by simpa using Ne.symm hne), Ledger.held_putAccount,
        if_pos rfl, AccountInfo.credit_amount]
      omega
    have hdst' : l.held (.available dst) = b.available.amount + q.amount := by
      rw [hl, Ledger.held_putAccount, if_pos rfl, AccountInfo.credit_amount]
    have hframe : ∀ R, R ≠ .available src → R ≠ .available dst → l.held R = s.ledger.held R := by
      intro R hA hB
      rw [hl, Ledger.held_putAccount, if_neg hB, Ledger.held_putAccount, if_neg hA]
    obtain ⟨rfl, rfl, -⟩ := hm.of_transfer hframe (by omega) (by omega) (by omega)
    exact .transfer

/-- A cast vote takes the added stake from the account, or puts the removed stake into the pot. -/
theorem cast_flow {typ : VoteTyp} {v b : Name} {stake : Asset} {act : AccountInfo} {change : Int}
    {r : VoteInfo} {block : Nat} (hact : s.accounts.find v = some act)
    (hrow : CastRow block (s.ledger.vote typ v b) stake change r)
    (hl : l.held = ((s.ledger.putVote typ v b r).putAccount v (act.credit (-max 0 change))).held)
    (hh : stake.amount < s.ledger.held (.staked typ v b) → l.unstakeHeight typ v b = block)
    (hm : Moves s.ledger l P Q) : Flow block s.ledger l (castAction typ v b stake) P Q := by
  have hav := held_available hact
  have hav' : l.held (.available v) = act.available.amount + -max 0 change := by
    rw [hl, Ledger.held_putAccount, if_pos rfl, AccountInfo.credit_amount]
  have hst' : l.held (.staked typ v b) = s.ledger.held (.staked typ v b) + change := by
    rw [hl, Ledger.held_putAccount, if_neg nofun, Ledger.held_putVote, if_pos rfl, hrow.voteage]
    have hc : change = stake.amount - s.ledger.held (.staked typ v b) := hrow.change_eq
    show stake.amount = _
    omega
  have hun' : l.held (.unstaking typ v b) =
      s.ledger.held (.unstaking typ v b) + max 0 (-change) := by
    rw [hl, Ledger.held_putAccount, if_neg nofun, Ledger.held_putVote, if_neg nofun, if_pos rfl,
      hrow.unstaking]
    rfl
  have hframe : ∀ R, R ≠ .available v → R ≠ .staked typ v b → R ≠ .unstaking typ v b →
      l.held R = s.ledger.held R := by
    intro R h1 h2 h3
    rw [hl, Ledger.held_putAccount, if_neg h1, Ledger.held_putVote, if_neg h2, if_neg h3]
  rcases le_or_gt 0 change with hc | hc
  · obtain ⟨rfl, rfl, -⟩ := hm.of_transfer (A := .available v) (B := .staked typ v b)
      (fun R h1 h2 => by
        by_cases h3 : R = .unstaking typ v b
        · subst h3
          omega
        · exact hframe R h1 h2 h3) (by omega) (by omega) (by omega)
    exact .stake
  · obtain ⟨rfl, rfl, -⟩ := hm.of_transfer (A := .staked typ v b) (B := .unstaking typ v b)
      (fun R h2 h3 => by
        by_cases h1 : R = .available v
        · subst h1
          omega
        · exact hframe R h1 h2 h3) (by omega) (by omega) (by omega)
    have hlt : stake.amount < s.ledger.held (.staked typ v b) := by
      have hce : change = stake.amount - s.ledger.held (.staked typ v b) := hrow.change_eq
      omega
    exact .lower hlt (hh hlt)

theorem revote_flow {v b b' : Name} {restake : Asset} {r r' : VoteInfo} {block : Nat}
    (hne : b ≠ b') (h0 : 0 < restake.amount)
    (hr : r.voteage.staked.amount = s.ledger.held (.staked .votes v b) - restake.amount)
    (hr' : r'.voteage.staked.amount = s.ledger.held (.staked .votes v b') + restake.amount)
    (hu : r.unstaking.amount = s.ledger.held (.unstaking .votes v b))
    (hu' : r'.unstaking.amount = s.ledger.held (.unstaking .votes v b'))
    (hl : l.held = ((s.ledger.putVote .votes v b r).putVote .votes v b' r').held)
    (hm : Moves s.ledger l P Q) : Flow block s.ledger l (.revote v b b' restake) P Q := by
  have hst : l.held (.staked .votes v b) = s.ledger.held (.staked .votes v b) - restake.amount := by
    rw [hl, Ledger.held_putVote, if_neg (by simpa using hne), if_neg nofun, Ledger.held_putVote,
      if_pos rfl, hr]
  have hst' : l.held (.staked .votes v b') =
      s.ledger.held (.staked .votes v b') + restake.amount := by
    rw [hl, Ledger.held_putVote, if_pos rfl, hr']
  have hframe : ∀ R, R ≠ .staked .votes v b → R ≠ .staked .votes v b' →
      l.held R = s.ledger.held R := by
    intro R h1 h2
    rw [hl, Ledger.held_putVote, if_neg h2]
    split
    · subst_vars
      exact hu'
    · rw [Ledger.held_putVote, if_neg h1]
      split
      · subst_vars
        exact hu
      · rfl
  obtain ⟨rfl, rfl, -⟩ := hm.of_transfer hframe (by omega) (by omega) (by omega)
  exact .revote

theorem unfreeze_flow {typ : VoteTyp} {v b : Name} {act : AccountInfo} {r : VoteInfo} {block : Nat}
    (hact : s.accounts.find v = some act) (hr : s.ledger.vote typ v b = r)
    (hpos : 0 < r.unstaking.amount) (hd : u32 (r.unstakeHeight + frozenDelay) < block)
    (hl : l.held = ((s.ledger.putVote typ v b
      { r with unstaking := { r.unstaking with amount := 0 } }).putAccount v
        (act.credit r.unstaking.amount)).held)
    (hm : Moves s.ledger l P Q) : Flow block s.ledger l (unfreezeAction typ v b) P Q := by
  subst hr
  have hav := held_available hact
  have hav' : l.held (.available v) =
      act.available.amount + s.ledger.held (.unstaking typ v b) := by
    rw [hl, Ledger.held_putAccount, if_pos rfl, AccountInfo.credit_amount]
    rfl
  have hun' : l.held (.unstaking typ v b) = 0 := by
    rw [hl, Ledger.held_putAccount, if_neg nofun, Ledger.held_putVote, if_neg nofun, if_pos rfl]
  have hpos : 0 < s.ledger.held (.unstaking typ v b) := hpos
  have hframe : ∀ R, R ≠ .unstaking typ v b → R ≠ .available v → l.held R = s.ledger.held R := by
    intro R h1 h2
    rw [hl, Ledger.held_putAccount, if_neg h2, Ledger.held_putVote, if_neg h1]
    split
    · subst_vars
      rfl
    · rfl
  obtain ⟨rfl, rfl, -⟩ := hm.of_transfer hframe (by omega) (by omega) (by omega)
  exact .unfreeze hd

/-- A fix-time vote is paid from the account or from the pot of the bp: the ledger `m` is the one
before the vote's row is made. -/
theorem votefix_flow {v b typ : Name} {stake : Asset} {stakeTyp key : Nat} {d : FixVoteData}
    {A : Place} {f : FixTimeVoteInfo} {m : Ledger} {block : Nat} (hd : getDataByTyp typ = some d)
    (hA : A = .available v ∨ A = .unstaking .votes v b) (hkey : s.fixvotes.find v key = none)
    (hf : l.fixvotes.find v key = some f) (hpos : 0 < stake.amount) (hvote : f.vote = stake)
    (hw : f.isWithdraw = false)
    (hlock : f.withdrawBlockNum = u32 (block + u32 (d.days * blockNumPerDay)))
    (hl : l.held = (m.putFixvote v key f).held)
    (hfall : m.held A = s.ledger.held A - stake.amount)
    (hframe : ∀ R, R ≠ A → m.held R = s.ledger.held R) (hm : Moves s.ledger l P Q) :
    Flow block s.ledger l (.votefix v b typ stake stakeTyp) P Q := by
  have hnone : s.ledger.held (.fixed v key) = 0 := by
    show (s.fixvotes.find v key).elim 0 _ = _
    rw [hkey]
    rfl
  have hsome : l.held (.fixed v key) = stake.amount := by
    rw [hl, Ledger.held_putFixvote, if_pos rfl, hvote]
  have hne : A ≠ .fixed v key := by
    rcases hA with rfl | rfl <;> exact nofun
  have hrest : ∀ R, R ≠ .fixed v key → l.held R = m.held R := by
    intro R hR
    rw [hl, Ledger.held_putFixvote, if_neg hR]
  have hA' := hrest A hne
  obtain ⟨rfl, rfl, -⟩ := hm.of_transfer (fun R h1 h2 => (hrest R h2).trans (hframe R h1)) (by omega)
    (by omega) (by omega)
  exact .votefix hA hd hf hw hlock

theorem outfixvote_flow {v : Name} {key : Nat} {f : FixTimeVoteInfo} {r : VoteInfo} {block : Nat}
    (hf : s.fixvotes.find v key = some f) (h0 : 0 ≤ f.vote.amount)
    (hw : f.withdrawBlockNum ≤ block) (hno : f.isWithdraw = false)
    (hr : s.ledger.vote .votes v f.bpname = r)
    (hl : l.held = ((s.ledger.putVote .votes v f.bpname
      { r with
        unstaking := ⟨r.unstaking.amount + f.vote.amount, r.unstaking.symbol⟩
        unstakeHeight := block }).putFixvote v key
        { f with vote := Asset.zero, isWithdraw := true }).held)
    (hh : l.unstakeHeight .votes v f.bpname = block) (hm : Moves s.ledger l P Q) :
    Flow block s.ledger l (.outfixvote v key) P Q := by
  subst hr
  have hfx := held_fixed hf
  have hfx' : l.held (.fixed v key) = 0 := by
    rw [hl, Ledger.held_putFixvote, if_pos rfl]
    rfl
  have hun' : l.held (.unstaking .votes v f.bpname) =
      s.ledger.held (.unstaking .votes v f.bpname) + f.vote.amount := by
    rw [hl, Ledger.held_putFixvote, if_neg nofun, Ledger.held_putVote, if_neg nofun, if_pos rfl]
    rfl
  have hframe : ∀ R, R ≠ .fixed v key → R ≠ .unstaking .votes v f.bpname →
      l.held R = s.ledger.held R := by
    intro R h1 h2
    rw [hl, Ledger.held_putFixvote, if_neg h1, Ledger.held_putVote, if_neg h2]
    split
    · subst_vars
      rfl
    · rfl
  obtain ⟨rfl, rfl, -⟩ := hm.of_transfer hframe (by omega) (by omega) (by omega)
  exact .outfixvote hf hno hw hh

/-- A claim cleans ages and erases fix-time votes that are withdrawn. -/
theorem claim_held {h : Nat} {v b : Name} {newest : Int} {votes : Scoped Name Name VoteInfo}
    {fixvotes : Table Nat FixTimeVoteInfo} (hc : s.fixvotes.All fun _ _ f => FixVoteOk f)
    (hn : newestVoteage h s v b = (newest, votes, fixvotes)) (acc : Table Name AccountInfo) (R : Place)
    (hR : ∀ k, R ≠ .available k) (bps : Table Name BpInfo) :
    ({ s.ledger with
      accounts := acc, votes, fixvotes := s.fixvotes.setScope v fixvotes, bps } : Ledger).held R =
      s.ledger.held R := by
  obtain ⟨age, hv, hf⟩ := newestVoteage_eq hn
  have hvote : ∀ v' b', (votes.find v' b').getD {} = (s.votes.find v' b').getD {} ∨
      ∃ r, s.votes.find v' b' = some r ∧ (votes.find v' b').getD {} = r.clean h := by
    intro v' b'
    rcases (claimVote_spec hv).2 with ⟨rfl, -⟩ | ⟨r, hold, rfl⟩
    · exact .inl rfl
    · rw [Scoped.find_put]
      split
      · rename_i he
        obtain ⟨rfl, rfl⟩ := he
        exact .inr ⟨r, hold, rfl⟩
      · exact .inl rfl
  cases R with
  | available k => exact absurd rfl (hR k)
  | reward => rfl
  | staked typ v' b' =>
    cases typ with
    | votes4ram => rfl
    | votes =>
      show ((votes.find v' b').getD {}).voteage.staked.amount =
        ((s.votes.find v' b').getD {}).voteage.staked.amount
      rcases hvote v' b' with he | ⟨r, hr, he⟩
      · rw [he]
      · rw [he, hr]
        rfl
  | unstaking typ v' b' =>
    cases typ with
    | votes4ram => rfl
    | votes =>
      show ((votes.find v' b').getD {}).unstaking.amount =
        ((s.votes.find v' b').getD {}).unstaking.amount
      rcases hvote v' b' with he | ⟨r, hr, he⟩
      · rw [he]
      · rw [he, hr]
        rfl
  | fixed v' key =>
    show ((s.fixvotes.setScope v fixvotes).find v' key).elim 0 _ =
      (s.fixvotes.find v' key).elim 0 _
    rw [Scoped.find_setScope]
    split
    · rename_i hv'
      subst hv'
      have he := claimFixVotes_find h b (s.fixvotes.scope v) age key
      rw [hf] at he
      rw [he]
      show _ = ((s.fixvotes.scope v).find key).elim 0 _
      cases hk : (s.fixvotes.scope v).find key with
      | none => rfl
      | some f =>
        have hok := hc v key f hk
        rw [Option.bind_some]
        unfold claimedFixVote
        split
        · split
          · exact (hok.withdrawn ‹_›).symm
          · rfl
        · rfl
    · rfl

/-- An action that only credits an account pays out a reward. -/
theorem credit_moves {k : Name} {act : AccountInfo} {x : Int} (hact : s.accounts.find k = some act)
    (hx : 0 ≤ x) (hl : ∀ R, l.held R = (s.ledger.putAccount k (act.credit x)).held R)
    (hm : Moves s.ledger l P Q) : P = .reward ∧ Q = .available k := by
  have hheld : ∀ R, l.held R =
      if R = .available k then act.available.amount + x else s.ledger.held R := by
    intro R
    rw [hl, Ledger.held_putAccount, AccountInfo.credit_amount]
  refine ⟨hm.of_le ?_, ?_⟩
  · intro R
    rw [hheld]
    split
    · subst_vars
      rw [held_available hact]
      omega
    · exact le_refl _
  · by_contra hne
    have hQ := hm.1
    rw [hheld, if_neg hne] at hQ
    exact absurd hQ (lt_irrefl _)

/-- An action that moves no tokens between the tables pays out rewards only. -/
theorem grow_flow {a : Action} {fx : List Effect} (ha : a.moves = false) (hc : Coins s'.ledger)
    (h : exec env s a = .ok (s', fx)) (hv : s'.votes = s.votes) (hv4 : s'.votes4ram = s.votes4ram)
    (hf : s'.fixvotes = s.fixvotes) (hm : Moves s.ledger s'.ledger P Q) (block : Nat) :
    Flow block s.ledger s'.ledger a P Q := by
  obtain ⟨hgrow, hsame⟩ := exec_grow ha h
  have hvote : s'.ledger.vote = s.ledger.vote := Ledger.vote_congr hv hv4
  have hheld : ∀ R, (∀ k, R ≠ .available k) → s'.ledger.held R = s.ledger.held R := by
    intro R hR
    cases R with
    | available k => exact absurd rfl (hR k)
    | fixed v k => exact congrArg (fun t : Scoped Name Nat FixTimeVoteInfo =>
        (t.find v k).elim 0 fun f => f.vote.amount) hf
    | _ => simp only [Ledger.held, hvote]
  by_cases hon : ∃ b v, a = .onblock b v
  · obtain ⟨b, v, rfl⟩ := hon
    have hle : ∀ R, s.ledger.held R ≤ s'.ledger.held R := by
      intro R
      cases R with
      | available k =>
        cases hk : s.accounts.find k with
        | none =>
          have h0 : s.ledger.held (.available k) = 0 := by
            show (s.accounts.find k).elim 0 _ = _
            rw [hk]
            rfl
          rw [h0]
          show 0 ≤ (s'.accounts.find k).elim 0 _
          cases hk' : s'.accounts.find k with
          | none => exact le_refl _
          | some a => exact (hc.accounts k a hk').2
        | some a =>
          obtain ⟨a', ha', hle⟩ := hgrow k a hk
          rw [held_available hk, held_available ha']
          exact hle
      | _ => exact (hheld _ fun _ e => by cases e).ge
    obtain rfl := hm.of_le hle
    cases Q with
    | available k => exact .onblock
    | _ => exact absurd hm.1 (by rw [hheld _ fun _ e => by cases e]; exact lt_irrefl _)
  · -- the ledger keeps every amount
    have hacc := hsame fun b v he => hon ⟨b, v, he⟩
    have hall : s'.ledger.held = s.ledger.held := Ledger.held_congr hacc hvote hf
    exact absurd hm.1 (by rw [hall]; exact lt_irrefl _)

end Flow

/-- **Step lemma.** Every move of a token in a successful action is a flow of the action. -/
theorem exec_flow {a : Action} {fx : List Effect} {P Q : Place} (hc : Coins s.ledger)
    (h : exec env s a = .ok (s', fx)) (hm : Moves s.ledger s'.ledger P Q) :
    Flow env.currentBlockNum s.ledger s'.ledger a P Q := by
  have hch := exec_change h
  have hc' := hch.coins hc
  have hcast : ∀ typ v b stake, a = castAction typ v b stake →
      s'.ledger.unstakeHeight typ v b = if stake.amount < s.ledger.held (.staked typ v b) then
        env.currentBlockNum else s.ledger.unstakeHeight typ v b := by
    rintro typ v b stake rfl
    exact cast_unstakeHeight h
  have hdelay : ∀ typ v b, a = unfreezeAction typ v b →
      u32 (s.ledger.unstakeHeight typ v b + frozenDelay) < env.currentBlockNum := by
    rintro typ v b rfl
    exact unfreeze_delay h
  have hother := fun hm' hv hv4 hf => grow_flow (P := P) (Q := Q) hm' hc' h hv hv4 hf hm
    env.currentBlockNum
  change ∀ _, s'.ledger.votes = s.votes → s'.ledger.votes4ram = s.votes4ram →
    s'.ledger.fixvotes = s.fixvotes → Flow _ _ _ _ _ _ at hother
  clear hc' h
  generalize s'.ledger = l at hch hm hcast hdelay hother
  cases hch with
  | @transfer src dst q memo x y hx hsym h0 hle hy =>
    exact transfer_flow hx h0 hy (Ledger.held_congr rfl rfl rfl) hm _
  | @updatebp bpname key rate url b hb => exact absurd hm.1 (lt_irrefl _)
  | @cast typ v b stake act bp change r hact hbp hst hw hrow =>
    rw [← ledger_votesTbl] at hrow
    refine cast_flow hact hrow (Ledger.held_congr ?_ ?_ ?_) (fun hlt => ?_) hm
    · cases typ <;> rfl
    · exact Ledger.vote_congr (by cases typ <;> rfl) (by cases typ <;> rfl)
    · cases typ <;> rfl
    · rw [hcast typ v b stake rfl, if_pos hlt]
  | @revote v b b' restake bpf bpt vf vt hne hst hpos hw hbpf hbpt hvf hle hvt =>
    refine revote_flow hne hpos ?_ ?_ ?_ ?_ (Ledger.held_congr rfl rfl rfl) hm
    · show _ = ((s.votes.find v b).getD {}).voteage.staked.amount - _
      rw [hvf]
      rfl
    · show _ = ((s.votes.find v b').getD {}).voteage.staked.amount + _
      rw [hvt]
      rfl
    · show _ = ((s.votes.find v b).getD {}).unstaking.amount
      rw [hvf]
      rfl
    · show _ = ((s.votes.find v b').getD {}).unstaking.amount
      rw [hvt]
  | @unfreeze typ v b act r hact hr hpos =>
    have hrow : s.ledger.vote typ v b = r := by
      unfold Ledger.vote
      rw [ledger_votesTbl, hr]
      rfl
    refine unfreeze_flow hact hrow hpos ?_ (Ledger.held_congr ?_ ?_ ?_) hm
    · rw [← hrow]
      exact hdelay typ v b rfl
    · cases typ <;> rfl
    · exact Ledger.vote_congr (by cases typ <;> rfl) (by cases typ <;> rfl)
    · cases typ <;> rfl
  | @votefix v b typ stake stakeTyp key d act bp accounts votes f hd hbp hact hst hpos hw hblack
      hsrc hkey hf =>
    subst hf
    rcases hsrc with ⟨rfl, hle, rfl⟩ | ⟨rfl, r, hr, hlt, rfl⟩
    · refine votefix_flow (m := s.ledger.putAccount v (act.credit (-stake.amount))) hd (.inl rfl) hkey
        (Scoped.find_put_self _ _ _ _) hpos rfl rfl rfl (Ledger.held_congr rfl rfl rfl) ?_ ?_ hm
      · rw [held_available hact, Ledger.held_putAccount, if_pos rfl, AccountInfo.credit_amount]
        omega
      · intro R hR
        rw [Ledger.held_putAccount, if_neg hR]
    · have hrow : s.ledger.vote .votes v b = r := by
        show (s.votes.find v b).getD {} = r
        rw [hr]
        rfl
      refine votefix_flow (m := s.ledger.putVote .votes v b { r with
          unstaking := ⟨r.unstaking.amount - stake.amount, r.unstaking.symbol⟩ }) hd (.inr rfl) hkey
        (Scoped.find_put_self _ _ _ _) hpos rfl rfl rfl (Ledger.held_congr rfl rfl rfl) ?_ ?_ hm
      · rw [Ledger.held_putVote, if_neg nofun, if_pos rfl]
        show _ = (s.ledger.vote .votes v b).unstaking.amount - _
        rw [hrow]
      · intro R hR
        rw [Ledger.held_putVote, if_neg hR]
        split
        · subst_vars
          rfl
        · rfl
  | @revotefix v key b f bpf bpt hf =>
    apply absurd hm.1
    have hsame := Ledger.held_putFixvote s.ledger v key ({ f with bpname := b }.cleanAge
      env.currentBlockNum) Q
    refine not_lt.mpr (le_of_eq (Eq.trans hsame ?_))
    split
    · subst_vars
      exact (held_fixed hf).symm
    · rfl
  | @outfixvote v key f bp r hf hbp hw hno hr =>
    refine outfixvote_flow hf (hc.fixvotes v key f hf).vote.2 hw hno hr
      (Ledger.held_congr rfl rfl rfl) ?_ hm
    exact congrArg (fun r : Option VoteInfo => (r.getD {}).unstakeHeight)
      (Scoped.find_put_self _ _ _ _)
  | @claim v b act bp newest reward votes fixvotes hact hbp hn hr h0 hpos hle =>
    have hheld := fun R hR => claim_held hc.fixvotes hn (s.accounts.put v (act.credit reward)) R hR
      (s.bps.put b { bp with
        rewardsPool := ⟨bp.rewardsPool.amount - reward, bp.rewardsPool.symbol⟩
        totalVoteage := bp.getAge env.currentBlockNum - newest
        voteageUpdateHeight := env.currentBlockNum })
    obtain ⟨rfl, rfl⟩ := credit_moves hact hpos (fun R => by
      cases R with
      | available k => rfl
      | _ => exact hheld _ fun _ e => by cases e) hm
    exact .claim
  | @bpclaim b act blockreward bpsreward x y hact _ _ hpos =>
    obtain ⟨rfl, rfl⟩ := credit_moves hact hpos.le (fun _ => rfl) hm
    exact .bpclaim
  | other hmv hv hv4 hf => exact hother hmv hv hv4 hf

/-! ## The heights of all pots -/

section Heights

variable {l m : Ledger} {typ : VoteTyp} {v b : Name} {r : VoteInfo}

theorem unstakeHeight_congr (h : l.vote = m.vote) : l.unstakeHeight = m.unstakeHeight := by
  funext typ v b
  unfold Ledger.unstakeHeight
  rw [h]

theorem unstakeHeight_of_find (h : (m.votesTbl typ).find v b = some r) :
    m.unstakeHeight typ v b = r.unstakeHeight := by
  unfold Ledger.unstakeHeight Ledger.vote
  rw [h]
  rfl

/-- A row is written with the height of the old one. -/
theorem unstakeHeight_keep (hr : r.unstakeHeight = m.unstakeHeight typ v b) :
    (m.putVote typ v b r).unstakeHeight = m.unstakeHeight := by
  funext typ' v' b'
  unfold Ledger.unstakeHeight
  rw [Ledger.vote_putVote]
  split
  · rename_i he
    obtain ⟨rfl, rfl, rfl⟩ := he
    exact hr
  · rfl

theorem unstakeHeight_put (m : Ledger) (typ : VoteTyp) (v b : Name) (r : VoteInfo) (typ' : VoteTyp)
    (v' b' : Name) :
    (m.putVote typ v b r).unstakeHeight typ' v' b' = m.unstakeHeight typ' v' b' ∨
      (m.putVote typ v b r).unstakeHeight typ' v' b' = r.unstakeHeight := by
  unfold Ledger.unstakeHeight
  rw [Ledger.vote_putVote]
  split
  · exact .inr rfl
  · exact .inl rfl

end Heights

/-- The height of a pot stays or is the block of the action. -/
theorem exec_unstakeHeight {a : Action} {fx : List Effect} (h : exec env s a = .ok (s', fx))
    (typ : VoteTyp) (v b : Name) :
    s'.ledger.unstakeHeight typ v b = s.ledger.unstakeHeight typ v b ∨
      s'.ledger.unstakeHeight typ v b = env.currentBlockNum := by
  have hch := exec_change h
  have hcast : ∀ typ v b stake, a = castAction typ v b stake →
      s'.ledger.unstakeHeight typ v b = if stake.amount < s.ledger.held (.staked typ v b) then
        env.currentBlockNum else s.ledger.unstakeHeight typ v b := by
    rintro typ v b stake rfl
    exact cast_unstakeHeight h
  generalize s'.ledger = l at hch hcast
  have hkeep : ∀ {m : Ledger}, l.vote = m.vote → m.unstakeHeight = s.ledger.unstakeHeight →
      l.unstakeHeight typ v b = s.ledger.unstakeHeight typ v b ∨
        l.unstakeHeight typ v b = env.currentBlockNum := by
    intro m hl hm
    left
    rw [unstakeHeight_congr hl, hm]
  cases hch with
  | transfer | updatebp | revotefix | bpclaim => exact .inl rfl
  | @cast typ' v' b' stake act bp change r =>
    have hl := hcast typ' v' b' stake rfl
    have hvote := fun l' (h1 : l'.votes = (s.ledger.putVote typ' v' b' r).votes) h2 =>
      unstakeHeight_congr (l := l') (Ledger.vote_congr h1 h2)
    rw [hvote _ (by cases typ' <;> rfl) (by cases typ' <;> rfl)] at hl ⊢
    have hr : (s.ledger.putVote typ' v' b' r).unstakeHeight typ' v' b' = r.unstakeHeight := by
      unfold Ledger.unstakeHeight
      rw [Ledger.vote_putVote, if_pos ⟨rfl, rfl, rfl⟩]
    rw [hr] at hl
    split at hl
    · have hput := unstakeHeight_put s.ledger typ' v' b' r typ v b
      rw [hl] at hput
      exact hput
    · rw [unstakeHeight_keep hl]
      exact .inl rfl
  | @revote v' b' b'' restake bpf bpt vf vt hne _ _ _ _ _ hvf _ hvt =>
    have hf : s.ledger.unstakeHeight .votes v' b' = vf.unstakeHeight := unstakeHeight_of_find hvf
    have ht : vt.unstakeHeight = s.ledger.unstakeHeight .votes v' b'' := by
      rw [← hvt]
      rfl
    have hput : (s.ledger.putVote .votes v' b' { vf with
        voteage := vf.voteage.changeStakedTo env.currentBlockNum
          ⟨vf.voteage.staked.amount - restake.amount, vf.voteage.staked.symbol⟩ }).unstakeHeight =
        s.ledger.unstakeHeight := unstakeHeight_keep hf.symm
    refine hkeep (m := (s.ledger.putVote .votes v' b' _).putVote .votes v' b'' _)
      (Ledger.vote_congr rfl rfl) ((unstakeHeight_keep ?_).trans hput)
    rw [hput]
    exact ht
  | @unfreeze typ' v' b' act r hact hr =>
    rw [← ledger_votesTbl] at hr
    have hr' : s.ledger.unstakeHeight typ' v' b' = r.unstakeHeight := unstakeHeight_of_find hr
    refine hkeep (m := s.ledger.putVote typ' v' b' { r with
      unstaking := ⟨0, r.unstaking.symbol⟩ }) (Ledger.vote_congr ?_ ?_) (unstakeHeight_keep hr'.symm)
    · cases typ' <;> rfl
    · cases typ' <;> rfl
  | @votefix v' b' typ' stake stakeTyp key d act bp accounts votes f _ _ _ _ _ _ _ hsrc =>
    rcases hsrc with ⟨-, -, rfl⟩ | ⟨-, r, hr, -, rfl⟩
    · exact .inl rfl
    · have hr' : s.ledger.unstakeHeight .votes v' b' = r.unstakeHeight := unstakeHeight_of_find hr
      exact hkeep (m := s.ledger.putVote .votes v' b' _) (Ledger.vote_congr rfl rfl)
        (unstakeHeight_keep hr'.symm)
  | @outfixvote v' key f bp r =>
    have hl := unstakeHeight_congr (l := { s.ledger with votes := s.votes.put v' f.bpname { r with
        unstaking := ⟨r.unstaking.amount + f.vote.amount, r.unstaking.symbol⟩
        unstakeHeight := env.currentBlockNum } })
      (m := s.ledger.putVote .votes v' f.bpname _) (Ledger.vote_congr rfl rfl)
    have hput := unstakeHeight_put s.ledger .votes v' f.bpname { r with
        unstaking := ⟨r.unstaking.amount + f.vote.amount, r.unstaking.symbol⟩
        unstakeHeight := env.currentBlockNum } typ v b
    rw [← hl] at hput
    exact hput
  | @claim v' b' act bp newest reward votes fixvotes _ _ hn =>
    obtain ⟨age, hv, -⟩ := newestVoteage_eq hn
    rcases (claimVote_spec hv).2 with ⟨rfl, -⟩ | ⟨r, hr, rfl⟩
    · exact .inl rfl
    · have hr' : s.ledger.unstakeHeight .votes v' b' = r.unstakeHeight := unstakeHeight_of_find hr
      exact hkeep (m := s.ledger.putVote .votes v' b' _) (Ledger.vote_congr rfl rfl)
        (unstakeHeight_keep hr'.symm)
  | other _ hv hv4 => exact hkeep (Ledger.vote_congr hv hv4) rfl

end Eosforce.System
