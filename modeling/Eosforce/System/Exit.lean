import Eosforce.System.Authority
import Eosforce.System.Expiry
import Eosforce.System.Holding
import Eosforce.System.RamVotes
import Eosforce.System.Unstaking

/-!
# Taking stakes back

* `Lowers`: the actions by which an account takes a stake back: a vote lowered to nothing, or the end
  of a fix-time vote. `Lowers.step`: they succeed, and put the tokens into the vote's pot.
* `unfreeze_step`: what is in a pot can be taken after the delay.
* `stake_returned`: so can every stake, whatever the other accounts do in between.
-/

namespace Eosforce.System

open Fallible Keyed Runs
open Ledger (voteCoins)

variable {env : Env} {s s' : State} {p q : Point} {v b : Name} {typ : VoteTyp}

/-! ## Rows that a stake presupposes -/

/-- A voter has an account. -/
theorem Reachable.voter_known {p : Point} (h : Reachable p) (typ : VoteTyp) :
    Known p.state.accounts (p.state.votesTbl typ) := by
  cases typ with
  | votes => exact h.known.1
  | votes4ram =>
    refine h.inv (I := fun p => Known p.state.accounts p.state.votes4ram) (fun s hg => ?_)
      fun p a q hI hs => ?_
    · rw [show (Point.mk s 0).state.votes4ram = ∅ from hg.votes4ram]
      exact Scoped.all_empty _
    obtain ⟨e, a⟩ := a
    obtain ⟨-, -, fx, hx⟩ := hs
    have hkeep : Known q.state.ledger.accounts p.state.votes4ram := hI.mono fun _ => exec_account hx
    have hch := exec_change hx
    change Known q.state.ledger.accounts q.state.ledger.votes4ram
    generalize q.state.ledger = l at *
    cases hch with
    | @cast typ _ _ _ _ _ _ _ hact =>
      cases typ with
      | votes => exact hkeep
      | votes4ram => exact hkeep.put (isSome_put _ (isSome_of_find hact))
    | @unfreeze typ _ _ _ _ hact =>
      cases typ with
      | votes => exact hkeep
      | votes4ram => exact hkeep.put (isSome_put _ (isSome_of_find hact))
    | other _ _ hram =>
      rw [hram]
      exact hkeep
    | _ => exact hkeep

theorem le_votesFor {t : Scoped Name Name VoteInfo} (ht : t.All fun _ _ r => VoteOk r) {r : VoteInfo}
    (hr : t.find v b = some r) : voteStake r ≤ votesFor t b voteStake := by
  have h := Scoped.le_sum (t := t) (w := fun _ b' r => if b' = b then voteStake r else 0)
    (fun v' b' r' hr' => by
      split
      · exact whole_nonneg (ht v' b' r' hr').staked.2
      · exact le_refl _) hr
  rwa [if_pos rfl] at h

/-- The bp of a stake is registered. -/
theorem Reachable.voted_bp {p : Point} (h : Reachable p) {r : VoteInfo}
    (hr : (p.state.votesTbl typ).find v b = some r) (hpos : 0 < r.voteage.staked.amount) :
    ∃ bp, p.state.bps.find b = some bp := by
  cases hb : p.state.bps.find b with
  | some bp => exact ⟨bp, rfl⟩
  | none =>
    have h0 : stakeAt p.state.bps b = 0 := by
      unfold stakeAt
      rw [hb]
      rfl
    have hstakes := h.stakes b
    have hok := h.coins.votesTbl typ
    rw [ledger_votesTbl] at hok
    have hle := le_votesFor hok hr
    have hw : 0 < voteStake r := whole_pos hpos (hok v b r hr).whole
    have hv := votesFor_nonneg h.coins.votes b
    have hram := votesFor_nonneg h.coins.votes4ram b
    have hfix : 0 ≤ fixVotesFor p.state.fixvotes b fixVoteStake := by
      apply Scoped.sum_nonneg
      intro v' key f hf
      split
      · exact fixVoteStake_nonneg h v' key f hf
      · exact le_refl _
    simp only [Ledger.stakeOf, State.ledger] at hstakes hv hram
    cases typ <;> simp only [State.votesTbl] at hle <;> omega

/-! ## Lowering a stake -/

/-- The actions by which an account takes `x` tokens out of a stake, into the pot of its vote of a kind
for a bp. -/
inductive Lowers (env : Env) (s : State) (v : Name) : Action → VoteTyp → Name → Int → Prop
  | vote {typ : VoteTyp} {b : Name} {r : VoteInfo} {stake : Asset} :
    (s.votesTbl typ).find v b = some r → env.freezed v = false → stake.symbol = coreSymbol →
    0 ≤ stake.amount ∧ stake.amount % coreSymbolPrecision = 0 →
    Lowers env s v (castAction typ v b stake) typ b (r.voteage.staked.amount - stake.amount)
  | fixvote {key : Nat} {f : FixTimeVoteInfo} :
    s.fixvotes.find v key = some f → f.isWithdraw = false →
    f.withdrawBlockNum ≤ env.currentBlockNum →
    Lowers env s v (.outfixvote v key) .votes f.bpname f.vote.amount

section Vote

variable {r : VoteInfo} {stake : Asset}

/-- A vote can be lowered to fewer whole tokens. -/
theorem voteByTypImp_lower {act : AccountInfo} {bp : BpInfo} (hauth : v ∈ env.auths)
    (hact : s.accounts.find v = some act) (h0 : 0 ≤ act.available.amount)
    (hbp : s.bps.find b = some bp) (hfree : env.freezed v = false)
    (hr : (s.votesTbl typ).find v b = some r) (hsym : stake.symbol = coreSymbol)
    (hst : 0 ≤ stake.amount ∧ stake.amount % coreSymbolPrecision = 0)
    (hlt : stake.amount < r.voteage.staked.amount) :
    ∃ u, voteByTypImp typ env s v b stake = .ok (u, stake.amount - r.voteage.staked.amount) := by
  have hcast : ∃ row, castVote env.currentBlockNum act (some r) stake =
      .ok (stake.amount - r.voteage.staked.amount, row) := by
    refine ⟨_, bind_eq_ok.mpr ⟨(), check_eq_ok.mpr ?_, rfl⟩⟩
    omega
  obtain ⟨row, hcast⟩ := hcast
  have happly : ∃ u, applyChange env.currentBlockNum
      (s.setVotesTbl typ ((s.votesTbl typ).put v b row)) v b act bp
        (stake.amount - r.voteage.staked.amount) = .ok u := by
    rw [applyChange, if_neg (by omega), debitStake, if_neg (by omega)]
    exact ⟨_, bind_eq_ok.mpr ⟨_, rfl, onChangeTotalStaked_eq _ _⟩⟩
  obtain ⟨u, happly⟩ := happly
  refine ⟨u, ?_⟩
  simp only [voteByTypImp, bind_eq_ok, pure_eq_ok, Prod.mk.injEq, Prod.exists]
  exact ⟨(), check_eq_ok.mpr hauth, act, fetch_eq_ok.mpr hact, bp, fetch_eq_ok.mpr hbp, (),
    check_eq_ok.mpr hsym, (), check_eq_ok.mpr hst, (),
    check_eq_ok.mpr (by rw [hfree]; decide), _, row, hr ▸ hcast, u, happly, rfl, rfl⟩

/-- Then the tokens that it has lost are in the pot. -/
theorem voteByTypImp_pot {u : State} {change : Int}
    (h : voteByTypImp typ env s v b stake = .ok (u, change))
    (hle : stake.amount ≤ s.ledger.held (.staked typ v b)) :
    u.ledger.held (.unstaking typ v b) = s.ledger.held (.unstaking typ v b) +
        (s.ledger.held (.staked typ v b) - stake.amount) ∧
      u.accounts = s.accounts := by
  simp only [voteByTypImp, bind_eq_ok, fetch_eq_ok, check_eq_ok, pure_eq_ok, Prod.mk.injEq,
    Prod.exists, exists_const] at h
  obtain ⟨_, -, act, hact, bp, hbp, -, hst, -, c, row, hcast, t, ht, rfl, -⟩ := h
  obtain ⟨hrow, -⟩ := castVote_spec hst.1 hcast
  obtain ⟨rfl, -⟩ := applyChange_spec (by rw [setVotesTbl_accounts]; exact hact)
    (by rw [setVotesTbl_bps]; exact hbp) ht
  rw [← ledger_votesTbl] at hrow
  have hc : c = stake.amount - s.ledger.held (.staked typ v b) := hrow.change_eq
  have hpot : row.unstaking.amount = s.ledger.held (.unstaking typ v b) + max 0 (-c) :=
    congrArg Asset.amount hrow.unstaking
  constructor
  · rw [show s.ledger.held (.unstaking typ v b) +
      (s.ledger.held (.staked typ v b) - stake.amount) = row.unstaking.amount by omega]
    cases typ <;> exact congrArg (fun o : Option VoteInfo => (o.getD {}).unstaking.amount)
      (Scoped.find_put_self _ _ _ _)
  · show (s.setVotesTbl typ _).accounts.put v _ = s.accounts
    rw [setVotesTbl_accounts, show -max 0 c = 0 by omega, AccountInfo.credit_zero, Table.put_find hact]

/-- The sum of the RAM votes can follow. -/
theorem addVote4ramsum_lower {u : State} (hs : RamSums s) (hc : Coins s.ledger)
    (hfit : coreTotal s ≤ Asset.maxAmount) (hr : s.votes4ram.find v b = some r)
    (hu : u.vote4ramsum = s.vote4ramsum) (h0 : 0 ≤ stake.amount)
    (hlt : stake.amount < r.voteage.staked.amount) :
    ∃ t, addVote4ramsum u v stake (stake.amount - r.voteage.staked.amount) = .ok t := by
  have hle : r.voteage.staked.amount ≤ ramStake s.votes4ram v :=
    Table.le_sum (fun b' r' hr' => (hc.votes4ram v b' r' hr').staked.2) hr
  have hsum : ramStake s.votes4ram v ≤ votesOf s.votes4ram v :=
    Table.sum_le fun b' r' hr' => le_add_of_nonneg_right (hc.votes4ram v b' r' hr').unstaking.2
  have htotal : s.ledger.holding v ≤ coreTotal s := holding_le_coreTotal hc v
  have hfree : 0 ≤ freeOf s.accounts v := freeOf_nonneg hc.accounts v
  have hvotes : 0 ≤ votesOf s.votes v := votesOf_nonneg hc.votes v
  have hfix : 0 ≤ fixvotesOf s.fixvotes v := fixvotesOf_nonneg hc.fixvotes v
  simp only [Ledger.holding, State.ledger] at htotal
  have hpos := (hc.votes4ram v b r hr).staked.2
  have hmax : (0 : Int) ≤ Asset.maxAmount := by decide
  cases hold : s.vote4ramsum.find v with
  | none => exact absurd (hr.symm.trans (hs.none v hold b)) (by simp)
  | some old =>
    have hst := hs.row v old hold
    rw [addVote4ramsum, hu, hold]
    refine ⟨_, bind_eq_ok.mpr ⟨_, Asset.make_eq_ok.mpr ⟨⟨by omega, by omega⟩, by decide, rfl⟩,
      bind_eq_ok.mpr ⟨_, Asset.add_eq_ok.mpr ⟨?_, ?_, rfl⟩, rfl⟩⟩⟩
    · rw [hst]
    · rw [hst]
      constructor <;> simp only <;> omega

end Vote

/-- The sums of the RAM votes are right in every reachable state. -/
theorem Reachable.ramSums {p : Point} (h : Reachable p) : RamSums p.state := by
  refine h.inv (I := fun p => RamSums p.state) (fun s hg => ⟨fun w r hr => ?_, fun w _ b => ?_⟩)
    fun _ _ _ hI hs => ?_
  · rw [hg.vote4ramsum] at hr
    cases hr
  · rw [hg.votes4ram]
    rfl
  · obtain ⟨-, -, fx, hx⟩ := hs
    exact exec_ramSums hI hx

/-- A vote of a reachable state can be lowered. -/
theorem castAction_lower {r : VoteInfo} {stake : Asset} (hp : Reachable p) (hauth : v ∈ env.auths)
    (hfree : env.freezed v = false) (hr : (p.state.votesTbl typ).find v b = some r)
    (hsym : stake.symbol = coreSymbol)
    (hst : 0 ≤ stake.amount ∧ stake.amount % coreSymbolPrecision = 0)
    (hlt : stake.amount < r.voteage.staked.amount) (hfit : coreTotal p.state ≤ Asset.maxAmount) :
    ∃ t fx, exec env p.state (castAction typ v b stake) = .ok (t, fx) ∧
      t.ledger.held (.unstaking typ v b) =
        p.state.ledger.held (.unstaking typ v b) + (r.voteage.staked.amount - stake.amount) ∧
      t.accounts = p.state.accounts := by
  obtain ⟨act, hact⟩ := Option.isSome_iff_exists.mp (hp.voter_known typ v b r hr)
  obtain ⟨bp, hbp⟩ := hp.voted_bp hr (lt_of_le_of_lt hst.1 hlt)
  have hstake : p.state.ledger.held (.staked typ v b) = r.voteage.staked.amount := by
    simp only [Ledger.held, Ledger.vote, ledger_votesTbl, hr, Option.getD_some]
  obtain ⟨u, hu⟩ :=
    voteByTypImp_lower hauth hact (hp.coins.accounts v act hact).2 hbp hfree hr hsym hst hlt
  obtain ⟨hpot, hacc⟩ := voteByTypImp_pot hu (by rw [hstake]; exact hlt.le)
  rw [hstake] at hpot
  cases typ with
  | votes => exact ⟨u, [], silent_eq_ok.mpr ⟨bind_eq_ok.mpr ⟨_, hu, rfl⟩, rfl⟩, hpot, hacc⟩
  | votes4ram =>
    have hsum : u.vote4ramsum = p.state.vote4ramsum :=
      voteByTypImp_frame (f := State.vote4ramsum) (fun _ _ _ _ _ _ _ _ => rfl) hu
    obtain ⟨t, ht⟩ := addVote4ramsum_lower hp.ramSums hp.coins hfit hr hsum hst.1 hlt
    have hl : t.ledger = u.ledger := addVote4ramsum_ledger ht
    refine ⟨t, _, bind_eq_ok.mpr ⟨_, hu, bind_eq_ok.mpr ⟨t, ht, rfl⟩⟩, ?_, ?_⟩
    · rw [hl]
      exact hpot
    · exact (congrArg Ledger.accounts hl).trans hacc

/-- A fix-time vote of a reachable state can be ended after its lock. -/
theorem outfixvote_end {key : Nat} {f : FixTimeVoteInfo} (hp : Reachable p) (hauth : v ∈ env.auths)
    (hf : p.state.fixvotes.find v key = some f) (hno : f.isWithdraw = false)
    (hw : f.withdrawBlockNum ≤ env.currentBlockNum)
    (hfit : coreTotal p.state ≤ Asset.maxAmount) :
    ∃ t fx, exec env p.state (.outfixvote v key) = .ok (t, fx) ∧
      t.ledger.held (.unstaking .votes v f.bpname) =
        p.state.ledger.held (.unstaking .votes v f.bpname) + f.vote.amount ∧
      t.ledger.unstakeHeight .votes v f.bpname = env.currentBlockNum ∧
      t.accounts = p.state.accounts := by
  obtain ⟨act, hact⟩ := Option.isSome_iff_exists.mp (hp.known.2 v key f hf)
  have hok := hp.coins.fixvotes v key f hf
  obtain ⟨bp, hbp⟩ := registered_of_fixVote hp hf (by
    unfold fixVoteStake
    rw [hno]
    exact whole_pos (hp.fixRowsOk v key f hf).1 hok.whole)
  -- the pot and the vote are both tokens of the account
  have hpot := vote_le_votesOf hp.coins.votes v f.bpname
  have hfix : f.vote.amount ≤ fixvotesOf p.state.fixvotes v :=
    Table.le_sum (fun k g hg => (hp.coins.fixvotes v k g hg).vote.2) hf
  have htotal : p.state.ledger.holding v ≤ coreTotal p.state := holding_le_coreTotal hp.coins v
  have hfree := freeOf_nonneg hp.coins.accounts v
  have hram := votesOf_nonneg hp.coins.votes4ram v
  have hrow := VoteOk.getD hp.coins.votes v f.bpname
  have hunst := hrow.unstaking.2
  have hstaked := hrow.staked.2
  have hvote := hok.vote.2
  have hmax : (0 : Int) ≤ Asset.maxAmount := by decide
  have hsym := hrow.unstaking.1
  simp only [Ledger.holding, State.ledger, voteCoins] at htotal hpot hfree hram hunst hstaked hsym
  have hadd : ∃ c, ((p.state.votes.find v f.bpname).getD {}).unstaking.add f.vote = .ok c ∧
      c.amount = ((p.state.votes.find v f.bpname).getD {}).unstaking.amount + f.vote.amount :=
    ⟨_, Asset.add_eq_ok.mpr ⟨hok.vote.1.trans hsym.symm, by constructor <;> omega, rfl⟩, rfl⟩
  obtain ⟨c, hc, hamount⟩ := hadd
  refine ⟨_, [], silent_eq_ok.mpr ⟨bind_eq_ok.mpr ⟨(), check_eq_ok.mpr hauth, bind_eq_ok.mpr
    ⟨f, fetch_eq_ok.mpr hf, bind_eq_ok.mpr ⟨act, fetch_eq_ok.mpr hact, bind_eq_ok.mpr
    ⟨bp, fetch_eq_ok.mpr hbp, bind_eq_ok.mpr ⟨(), check_eq_ok.mpr hw, bind_eq_ok.mpr
    ⟨(), check_eq_ok.mpr (by rw [hno]; decide), bind_eq_ok.mpr
    ⟨c, hc, onChangeTotalStaked_eq _ _⟩⟩⟩⟩⟩⟩⟩, rfl⟩, ?_, ?_, rfl⟩
  · simp only [Ledger.held, Ledger.vote, Ledger.votesTbl, State.ledger, Scoped.find_put_self,
      Option.getD_some]
    exact hamount
  · simp only [Ledger.unstakeHeight, Ledger.vote, Ledger.votesTbl, State.ledger,
      Scoped.find_put_self, Option.getD_some]

/-- **Step lemma.** A stake can be lowered, and is then in its pot from this block on. -/
theorem Lowers.step {a : Action} {x : Int} (h : Lowers env p.state v a typ b x) (hp : Reachable p)
    (hx : 0 < x) (hauth : v ∈ env.auths) (hn : p.height ≤ env.currentBlockNum)
    (hfit : coreTotal p.state ≤ Asset.maxAmount) :
    ∃ q, Step p (env, a) q ∧
      q.state.ledger.held (.unstaking typ v b) =
        p.state.ledger.held (.unstaking typ v b) + x ∧
      q.state.ledger.unstakeHeight typ v b = env.currentBlockNum ∧
      q.state.accounts = p.state.accounts := by
  cases h with
  | @vote typ b r stake hr hfree hsym hst =>
    have hlt : stake.amount < r.voteage.staked.amount := by omega
    obtain ⟨t, fx, ht, hpot, hacc⟩ := castAction_lower hp hauth hfree hr hsym hst hlt hfit
    have hstake : p.state.ledger.held (.staked typ v b) = r.voteage.staked.amount := by
      simp only [Ledger.held, Ledger.vote, ledger_votesTbl, hr, Option.getD_some]
    have hheight := cast_unstakeHeight ht
    rw [if_pos (show stake.amount < _ from hstake.symm ▸ hlt)] at hheight
    exact ⟨⟨t, env.currentBlockNum⟩, ⟨hn, rfl, fx, ht⟩, hpot, hheight, hacc⟩
  | fixvote hf hno hw =>
    obtain ⟨t, fx, ht, hpot, hheight, hacc⟩ := outfixvote_end hp hauth hf hno hw hfit
    exact ⟨⟨t, env.currentBlockNum⟩, ⟨hn, rfl, fx, ht⟩, hpot, hheight, hacc⟩

/-! ## Taking a pot -/

/-- What an account has free and what it unstakes in a row are parts of its holding. -/
theorem unstaking_le_holding {act : AccountInfo} (hc : Coins s.ledger)
    (hact : s.accounts.find v = some act) (hr : (s.votesTbl typ).find v b = some r) :
    act.available.amount + r.unstaking.amount ≤ s.ledger.holding v := by
  have hok : VoteOk r := by
    have hall := hc.votesTbl typ
    rw [ledger_votesTbl] at hall
    exact hall v b r hr
  have hfree : freeOf s.accounts v = act.available.amount := Table.val_of_find hact
  have hv := vote_le_votesOf hc.votes v b
  have hram := vote_le_votesOf hc.votes4ram v b
  have hnv := votesOf_nonneg hc.votes v
  have hnram := votesOf_nonneg hc.votes4ram v
  have hfix := fixvotesOf_nonneg hc.fixvotes v
  have hst := hok.staked.2
  simp only [Ledger.holding, State.ledger] at *
  cases typ with
  | votes =>
    simp only [State.votesTbl] at hr
    simp only [hr, Option.getD_some, voteCoins] at hv
    omega
  | votes4ram =>
    simp only [State.votesTbl] at hr
    simp only [hr, Option.getD_some, voteCoins] at hram
    omega

/-- What is in a pot can be taken after the delay. -/
theorem unfreeze_step (hp : Reachable p) (hauth : v ∈ env.auths)
    (hn : p.height ≤ env.currentBlockNum)
    (hdelay : p.state.ledger.unstakeHeight typ v b + frozenDelay < env.currentBlockNum)
    (hpos : 0 < p.state.ledger.held (.unstaking typ v b))
    (hfit : coreTotal p.state ≤ Asset.maxAmount) :
    ∃ q, Step p (env, unfreezeAction typ v b) q ∧
      q.state.ledger.held (.available v) =
        p.state.ledger.held (.available v) + p.state.ledger.held (.unstaking typ v b) := by
  cases hr : (p.state.votesTbl typ).find v b with
  | none =>
    simp only [Ledger.held, Ledger.vote, ledger_votesTbl, hr, Option.getD_none] at hpos
    exact absurd hpos (by decide)
  | some r =>
    simp only [Ledger.held, Ledger.unstakeHeight, Ledger.vote, ledger_votesTbl, hr,
      Option.getD_some] at hpos hdelay ⊢
    obtain ⟨act, hact⟩ := Option.isSome_iff_exists.mp (hp.voter_known typ v b r hr)
    have hcoin := hp.coins.accounts v act hact
    have hok : VoteOk r := by
      have := hp.coins.votesTbl typ
      rw [ledger_votesTbl] at this
      exact this v b r hr
    have hheld := unstaking_le_holding hp.coins hact hr
    have htotal : p.state.ledger.holding v ≤ coreTotal p.state := holding_le_coreTotal hp.coins v
    have hmax : (0 : Int) ≤ Asset.maxAmount := by decide
    have hnonneg := hcoin.2
    have hadd : ∃ c, act.available.add r.unstaking = .ok c ∧
        c.amount = act.available.amount + r.unstaking.amount :=
      ⟨_, Asset.add_eq_ok.mpr ⟨by rw [hcoin.1, hok.unstaking.1], by constructor <;> omega, rfl⟩,
        rfl⟩
    obtain ⟨c, hc, hamount⟩ := hadd
    have hun : ∃ t, unfreezeByTypImp typ env p.state v b = .ok t ∧
        (t.accounts.find v).elim 0 (fun a => a.available.amount) = c.amount := by
      refine ⟨_, bind_eq_ok.mpr ⟨(), check_eq_ok.mpr hauth, bind_eq_ok.mpr
        ⟨act, fetch_eq_ok.mpr hact, bind_eq_ok.mpr ⟨r, fetch_eq_ok.mpr hr, bind_eq_ok.mpr
        ⟨(), check_eq_ok.mpr ?_, bind_eq_ok.mpr ⟨(), check_eq_ok.mpr hpos, bind_eq_ok.mpr
        ⟨c, hc, rfl⟩⟩⟩⟩⟩⟩, ?_⟩
      · exact lt_of_le_of_lt (Nat.mod_le _ _) hdelay
      · rw [setVotesTbl_accounts, Table.find_put_self]
        rfl
    obtain ⟨t, ht, hfree⟩ := hun
    refine ⟨⟨t, env.currentBlockNum⟩, ⟨hn, rfl, [], ?_⟩, ?_⟩
    · cases typ <;> exact silent_eq_ok.mpr ⟨ht, rfl⟩
    · show (t.accounts.find v).elim 0 _ = (p.state.accounts.find v).elim 0 _ + _
      rw [hfree, hamount, hact]
      rfl

/-! ## Runs -/

/-- An account that signs nothing in a run keeps its votes, and at least its tokens. -/
theorem Run.untouched {tr : List (Point × (Env × Action) × Point)} (h : Run Step p tr q)
    (hv : ∀ e ∈ tr, v ∉ e.2.1.1.auths) : Untouched v p.state.ledger q.state.ledger := by
  refine ((h.restrict hv).inv (I := fun t => Untouched v p.state.ledger t.state.ledger)
    (.refl v _) fun t a u hI hs => ?_).1
  obtain ⟨⟨-, -, fx, hx⟩, hno⟩ := hs
  exact hI.trans (exec_untouched hno hx)

/-- **Stakes can be taken back.** A voter lowers a vote to fewer whole tokens, or ends a fix-time vote
after its lock. Whatever the others do then, in a run that the voter does not sign, all that is in the
pot can be taken after the delay, at any block where all core tokens together fit in an asset. -/
theorem stake_returned {a : Action} {x : Int} (hp : Reachable p)
    (h : Lowers env p.state v a typ b x) (hx : 0 < x) (hauth : v ∈ env.auths)
    (hn : p.height ≤ env.currentBlockNum) (hfit : coreTotal p.state ≤ Asset.maxAmount) :
    ∃ q, Step p (env, a) q ∧ ∀ tr u, Run Step q tr u → (∀ e ∈ tr, v ∉ e.2.1.1.auths) →
      coreTotal u.state ≤ Asset.maxAmount → ∀ env', v ∈ env'.auths →
      u.height ≤ env'.currentBlockNum → env.currentBlockNum + frozenDelay < env'.currentBlockNum →
      p.state.ledger.held (.available v) ≤ u.state.ledger.held (.available v) ∧
      ∃ w, Step u (env', unfreezeAction typ v b) w ∧
        w.state.ledger.held (.available v) = u.state.ledger.held (.available v) +
          p.state.ledger.held (.unstaking typ v b) + x := by
  obtain ⟨q, hs, hpot, hheight, hacc⟩ := h.step hp hx hauth hn hfit
  refine ⟨q, hs, fun tr u hrun hno hfit' env' hauth' hn' hdelay => ?_⟩
  have hun := Run.untouched hrun hno
  have hu : Reachable u := (hrun.inv (I := Reachable) (hp.step hs) fun _ _ _ => Reachable.step).1
  have hvote : u.state.ledger.vote typ v b = q.state.ledger.vote typ v b :=
    congrArg (fun o : Option VoteInfo => o.getD {}) (hun.votes typ b)
  have hpot' : u.state.ledger.held (.unstaking typ v b) =
      p.state.ledger.held (.unstaking typ v b) + x := by
    rw [← hpot]
    exact congrArg (fun r : VoteInfo => r.unstaking.amount) hvote
  have hheight' : u.state.ledger.unstakeHeight typ v b = env.currentBlockNum := by
    rw [← hheight]
    exact congrArg VoteInfo.unstakeHeight hvote
  have hold : 0 ≤ p.state.ledger.held (.unstaking typ v b) :=
    (VoteOk.getD (hp.coins.votesTbl typ) v b).unstaking.2
  constructor
  · have hq : p.state.ledger.held (.available v) = q.state.ledger.held (.available v) :=
      congrArg (fun t : Table Name AccountInfo => (t.find v).elim 0 fun a => a.available.amount)
        hacc.symm
    rw [hq]
    simp only [Ledger.held]
    cases hf : q.state.ledger.accounts.find v with
    | none =>
      cases hf' : u.state.ledger.accounts.find v with
      | none => exact le_refl _
      | some a => exact (hu.coins.accounts v a hf').2
    | some a =>
      obtain ⟨a', ha', hle⟩ := hun.available a hf
      rw [ha']
      exact hle
  · obtain ⟨w, hw, hfree⟩ := unfreeze_step hu hauth' hn' (hheight'.symm ▸ hdelay)
      (hpot'.symm ▸ by omega) hfit'
    exact ⟨w, hw, by rw [hfree, hpot', Int.add_assoc]⟩

/-- Account 1 takes back one of the two tokens of its vote. -/
def loweredPoint : Point :=
  votedPoint.next (Env.of 1 11) (castAction .votes 1 7 ⟨10000, coreSymbol⟩)

/-- The bp is removed then. -/
def removedPoint : Point := loweredPoint.next (Env.of systemAccount 12) (.removebp 7)

/-- After the delay the account has all but one of its 50 tokens. -/
theorem stake_returned_unfrozen :
    ∃ w, Step removedPoint (Env.of 1 (12 + frozenDelay), .unfreeze 1 7) w ∧
      w.state.ledger.held (.available 1) = 490000 := by
  have hvote : Step ⟨founding, 0⟩ (Env.of 1 10, .vote 1 7 ⟨20000, coreSymbol⟩) votedPoint :=
    Point.next_step _ _ _ (by decide) (by decide +kernel)
  have hlower : Step votedPoint (Env.of 1 11, castAction .votes 1 7 ⟨10000, coreSymbol⟩) loweredPoint :=
    Point.next_step _ _ _ (by decide) (by decide +kernel)
  have hremove : Step loweredPoint (Env.of systemAccount 12, .removebp 7) removedPoint :=
    Point.next_step _ _ _ (by decide) (by decide +kernel)
  have hrow : (votedPoint.state.votesTbl .votes).find 1 7 =
      some { voteage := { staked := ⟨20000, coreSymbol⟩, updateHeight := 10 } } := by
    decide +kernel
  have hlowers : Lowers (Env.of 1 11) votedPoint.state 1
      (castAction .votes 1 7 ⟨10000, coreSymbol⟩) .votes 7 (20000 - 10000) :=
    .vote hrow rfl rfl (by decide)
  obtain ⟨q, ⟨-, hq, fx, hs⟩, h⟩ := stake_returned (founding_reachable.step hvote) hlowers (by decide)
    (by decide) (by decide) (by decide +kernel)
  obtain rfl : q = loweredPoint := by
    obtain ⟨-, -, fx', hs'⟩ := hlower
    obtain ⟨t, n⟩ := q
    cases hq
    cases hs.symm.trans hs'
    rfl
  obtain ⟨-, w, hw, hfree⟩ := h _ removedPoint (Run.nil.snoc hremove)
    (by simp [Env.of, systemAccount]) (by decide +kernel) (Env.of 1 (12 + frozenDelay)) (by decide)
    (by decide) (by decide)
  exact ⟨w, hw, hfree.trans (by decide +kernel)⟩

end Eosforce.System
