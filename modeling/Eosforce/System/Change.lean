import Eosforce.System.PunishFrame
import Eosforce.System.RewardBps

/-!
# Every action is a change of the ledger

For each action of the system contract, what its success says of its arguments, of the rows it read
and of the ledger after it. `exec_change` collects them. `exec_grow`: an action that moves no tokens
between the tables takes none from the accounts.
-/

namespace Eosforce.System

open Fallible Keyed

variable {env : Env} {s s' : State}

theorem isProducerInBlacklist_congr {s t : State} (h : s.blackpro = t.blackpro) (b : Name) :
    isProducerInBlacklist s b = isProducerInBlacklist t b := by
  simp only [isProducerInBlacklist, h]

/-! ## The global stake -/

theorem foldl_add_eq (w : Name × BpInfo → Int) (l : List (Name × BpInfo)) (n : Int) :
    l.foldl (fun n bp => n + w bp) n = n + (l.map w).sum := by
  induction l generalizing n with
  | nil => simp
  | cons p l ih => rw [List.foldl_cons, ih, List.map_cons, List.sum_cons]; omega

theorem stakedForAllBps_eq (s : State) :
    stakedForAllBps s = s.bps.sum fun _ b => b.totalStaked := by
  rw [stakedForAllBps, foldl_add_eq fun bp => bp.2.totalStaked, Int.zero_add]
  rfl

theorem getGlobalVotestate_eq (s : State) :
    getGlobalVotestate s =
      ({ s with gvotestat := some (s.gvotestat.getD (s.bps.sum fun _ b => b.totalStaked)) },
        s.gvotestat.getD (s.bps.sum fun _ b => b.totalStaked)) := by
  obtain ⟨_, _, _, _, _, _, _, _, _, _, g, _⟩ := s
  cases g with
  | none => simp only [getGlobalVotestate, stakedForAllBps_eq, Option.getD_none]
  | some t => rfl

theorem onChangeTotalStaked_eq (s : State) (deta : Int) :
    onChangeTotalStaked s deta = .ok { s with gvotestat := stakeTotal s.gvotestat s.bps deta } := by
  simp only [onChangeTotalStaked, makeGlobalVotestate, getGlobalVotestate_eq, fetch]
  rfl

/-! ## Current votes -/

theorem castVote_spec {h : Nat} {act : AccountInfo} {vts : Option VoteInfo} {stake : Asset}
    {change : Int} {v : VoteInfo} (hst : 0 ≤ stake.amount)
    (hv : castVote h act vts stake = .ok (change, v)) :
    CastRow h (vts.getD {}) stake change v ∧ change ≤ act.available.amount := by
  cases vts with
  | none =>
    simp only [castVote, bind_eq_ok, check_eq_ok, pure_eq_ok, Prod.mk.injEq] at hv
    obtain ⟨_, hle, rfl, rfl⟩ := hv
    refine ⟨⟨?_, ?_, ?_⟩, hle⟩
    · simp [Asset.zero]
    · simp [AssetAge.changeStakedTo, AssetAge.getAge, Asset.zero]
    · simp [Asset.zero, hst]
  | some old =>
    simp only [castVote, bind_eq_ok, check_eq_ok, pure_eq_ok, Prod.mk.injEq] at hv
    obtain ⟨_, hle, rfl, rfl⟩ := hv
    refine ⟨⟨rfl, ?_, ?_⟩, hle⟩
    · split <;> rfl
    · split
      · rename_i hlt
        rw [max_eq_right (by omega)]; rfl
      · rename_i hlt
        rw [max_eq_left (by omega)]; simp

theorem debitStake_spec {voter bpname : Name} {act : AccountInfo} {change : Int}
    (hacc : s.accounts.find voter = some act)
    (h : debitStake s voter bpname act change = .ok s') :
    s' = { s with accounts := s.accounts.put voter (act.credit (-max 0 change)) } ∧
      (0 < change → isProducerInBlacklist s bpname = false) := by
  unfold debitStake at h
  split at h
  · rename_i hpos
    simp only [bind_eq_ok, check_eq_ok, pure_eq_ok, exists_const] at h
    obtain ⟨hb, rfl⟩ := h
    rw [max_eq_right (by omega)]
    exact ⟨by simp [AccountInfo.credit, Int.sub_eq_add_neg], fun _ => by simpa using hb⟩
  · rename_i hpos
    cases h
    rw [max_eq_left (by omega), Int.neg_zero, AccountInfo.credit_zero, Table.put_find hacc]
    exact ⟨rfl, fun h => absurd h hpos⟩

theorem applyChange_spec {h : Nat} {voter bpname : Name} {act : AccountInfo} {bp : BpInfo}
    {change : Int} (hacc : s.accounts.find voter = some act) (hbp : s.bps.find bpname = some bp)
    (ha : applyChange h s voter bpname act bp change = .ok s') :
    s' = { s with
      accounts := s.accounts.put voter (act.credit (-max 0 change))
      bps := s.bps.put bpname (bp.stakeBy h change)
      gvotestat :=
        if change = 0 then s.gvotestat
        else stakeTotal s.gvotestat (s.bps.put bpname (bp.stakeBy h change)) change } ∧
      (0 < change → isProducerInBlacklist s bpname = false) := by
  unfold applyChange at ha
  split at ha
  · rename_i h0
    cases ha
    subst h0
    simp only [max_self, Int.neg_zero, AccountInfo.credit_zero, Table.put_find hacc,
      BpInfo.stakeBy, ↓reduceIte, Table.put_find hbp]
    exact ⟨trivial, fun h => absurd h (lt_irrefl _)⟩
  · rename_i h0
    rw [bind_eq_ok] at ha
    obtain ⟨t, ht, ha⟩ := ha
    obtain ⟨rfl, hb⟩ := debitStake_spec hacc ht
    rw [onChangeTotalStaked_eq] at ha
    cases ha
    simp only [BpInfo.stakeBy, h0, ↓reduceIte]
    exact ⟨trivial, hb⟩

theorem setVotesTbl_accounts (s : State) (typ : VoteTyp) (tbl : Scoped Name Name VoteInfo) :
    (s.setVotesTbl typ tbl).accounts = s.accounts := by cases typ <;> rfl

theorem setVotesTbl_bps (s : State) (typ : VoteTyp) (tbl : Scoped Name Name VoteInfo) :
    (s.setVotesTbl typ tbl).bps = s.bps := by cases typ <;> rfl

theorem voteByTypImp_change {typ : VoteTyp} {voter bpname : Name} {stake : Asset} {change : Int}
    (h : voteByTypImp typ env s voter bpname stake = .ok (s', change)) :
    Change env s (castAction typ voter bpname stake) s'.ledger := by
  simp only [voteByTypImp, bind_eq_ok, fetch_eq_ok, check_eq_ok, pure_eq_ok, Prod.mk.injEq,
    Prod.exists, exists_const] at h
  obtain ⟨_, -, act, hact, bp, hbp, hsym, hst, -, change, v, hv, t, ht, rfl, rfl⟩ := h
  obtain ⟨hrow, hle⟩ := castVote_spec hst.1 hv
  obtain ⟨rfl, hb⟩ := applyChange_spec (by rw [setVotesTbl_accounts]; exact hact)
    (by rw [setVotesTbl_bps]; exact hbp) ht
  have hblack : 0 < change → isProducerInBlacklist s bpname = false := by
    refine fun hpos => (isProducerInBlacklist_congr ?_ _).trans (hb hpos)
    cases typ <;> rfl
  have : Change env s (castAction typ voter bpname stake) _ := Change.cast hact hbp
    ⟨hsym, hst.1⟩ (Int.dvd_of_emod_eq_zero hst.2) hrow hle hblack
  cases typ <;> exact this

theorem vote_change {voter bpname : Name} {stake : Asset}
    (h : vote env s voter bpname stake = .ok s') :
    Change env s (.vote voter bpname stake) s'.ledger := by
  simp only [vote, bind_eq_ok, pure_eq_ok, Prod.exists] at h
  obtain ⟨t, change, ht, rfl⟩ := h
  exact voteByTypImp_change ht

theorem addVote4ramsum_ledger {voter : Name} {stake : Asset} {change : Int}
    (h : addVote4ramsum s voter stake change = .ok s') : s'.ledger = s.ledger := by
  unfold addVote4ramsum at h
  split at h
  · cases h; rfl
  · simp only [bind_eq_ok, pure_eq_ok] at h
    obtain ⟨_, -, _, -, rfl⟩ := h
    rfl

theorem vote4ram_change {voter bpname : Name} {stake : Asset} {fx : List Effect}
    (h : vote4ram env s voter bpname stake = .ok (s', fx)) :
    Change env s (.vote4ram voter bpname stake) s'.ledger := by
  simp only [vote4ram, bind_eq_ok, pure_eq_ok, Prod.exists, Prod.mk.injEq] at h
  obtain ⟨t, change, ht, u, hu, rfl, -⟩ := h
  rw [addVote4ramsum_ledger hu]
  exact voteByTypImp_change ht

theorem revoteTo_spec {h : Nat} {vtst : Option VoteInfo} {restake : Asset} {v : VoteInfo}
    (hsym : restake.symbol = coreSymbol) (hv : revoteTo h vtst restake = .ok v) :
    v = { vtst.getD {} with
      voteage := (vtst.getD {}).voteage.changeStakedTo h
        ⟨(vtst.getD {}).voteage.staked.amount + restake.amount, coreSymbol⟩ } := by
  obtain ⟨amount, symbol⟩ := restake
  cases vtst with
  | none =>
    cases hv
    simp only at hsym
    simp [AssetAge.changeStakedTo, AssetAge.getAge, Asset.zero, hsym]
  | some old =>
    simp only [revoteTo, bind_eq_ok, AssetAge.addStakedBy_eq_ok, pure_eq_ok] at hv
    obtain ⟨_, ⟨hs, -, rfl⟩, rfl⟩ := hv
    simp only at hs hsym
    simp only [AssetAge.changeStakedTo, Option.getD_some, ← hs, hsym]

theorem revote_change {voter frombp tobp : Name} {restake : Asset}
    (h : revote env s voter frombp tobp restake = .ok s') :
    Change env s (.revote voter frombp tobp restake) s'.ledger := by
  simp only [revote, bind_eq_ok, fetch_eq_ok, check_eq_ok, pure_eq_ok, exists_const,
    Asset.le_eq_ok, AssetAge.minusStakedBy_eq_ok] at h
  obtain ⟨_, -, hne, hsym, hpos, -, bpf, hbpf, bpt, hbpt, vf, hvf, enough, ⟨-, rfl⟩, hle, _,
    ⟨-, -, rfl⟩, vt, hvt, rfl⟩ := h
  have hvt' := revoteTo_spec hsym hvt
  rw [Scoped.find_put_ne _ _ fun e => hne e.2] at hvt'
  subst hvt'
  exact .revote hne ⟨hsym, by omega⟩ hpos.1 (Int.dvd_of_emod_eq_zero hpos.2) hbpf hbpt hvf
    (by simpa using hle) rfl

theorem unfreezeByTypImp_change (typ : VoteTyp) {voter bpname : Name}
    (h : unfreezeByTypImp typ env s voter bpname = .ok s') :
    Change env s (unfreezeAction typ voter bpname) s'.ledger := by
  simp only [unfreezeByTypImp, bind_eq_ok, fetch_eq_ok, check_eq_ok, pure_eq_ok, exists_const,
    Asset.add_eq_ok] at h
  obtain ⟨_, -, act, hact, v, hv, -, hpos, _, ⟨-, -, rfl⟩, rfl⟩ := h
  have : Change env s (unfreezeAction typ voter bpname) _ := Change.unfreeze hact hv hpos
  cases typ <;> exact this

/-! ## Claim -/

theorem claim_change {voter bpname : Name} (h : claim env s voter bpname = .ok s') :
    Change env s (.claim voter bpname) s'.ledger := by
  simp only [claim, bind_eq_ok, fetch_eq_ok, check_eq_ok, pure_eq_ok, exists_const,
    Asset.add_eq_ok, Asset.sub_eq_ok, Asset.make_eq_ok] at h
  obtain ⟨_, -, act, hact, bp, hbp, hpos, reward, ⟨-, -, rfl⟩, hr, _, ⟨-, -, rfl⟩, _,
    ⟨-, -, rfl⟩, rfl⟩ := h
  exact .claim hact hbp rfl rfl hpos hr.1 hr.2

/-! ## Fix-time votes -/

theorem takeStake_spec {voter bpname : Name} {act : AccountInfo} {stake : Asset} {stakeTyp : Nat}
    (h : takeStake s voter bpname act stake stakeTyp = .ok s') :
    ∃ accounts votes, s' = { s with accounts, votes } ∧
      (accounts = s.accounts.put voter (act.credit (-stake.amount)) ∧
          stake.amount ≤ act.available.amount ∧ votes = s.votes ∨
        accounts = s.accounts ∧ ∃ v, s.votes.find voter bpname = some v ∧
          stake.amount < v.unstaking.amount ∧
          votes = s.votes.put voter bpname
            { v with unstaking := ⟨v.unstaking.amount - stake.amount, v.unstaking.symbol⟩ }) := by
  unfold takeStake at h
  split at h
  · simp only [bind_eq_ok, check_eq_ok, pure_eq_ok, exists_const, Asset.le_eq_ok,
      Asset.sub_eq_ok] at h
    obtain ⟨_, ⟨-, rfl⟩, hle, _, ⟨-, -, rfl⟩, rfl⟩ := h
    exact ⟨_, _, rfl, .inl ⟨rfl, by simpa using hle, rfl⟩⟩
  · simp only [bind_eq_ok, fetch_eq_ok, check_eq_ok, pure_eq_ok, exists_const, Asset.lt_eq_ok,
      Asset.sub_eq_ok] at h
    obtain ⟨v, hv, _, ⟨-, rfl⟩, hlt, _, ⟨-, -, rfl⟩, rfl⟩ := h
    exact ⟨_, _, rfl, .inr ⟨rfl, v, hv, by simpa using hlt, rfl⟩⟩
  · cases h

theorem votefix_change {voter bpname typ : Name} {stake : Asset} {stakeTyp : Nat}
    (h : votefix env s voter bpname typ stake stakeTyp = .ok s') :
    Change env s (.votefix voter bpname typ stake stakeTyp) s'.ledger := by
  simp only [votefix, bind_eq_ok, fetch_eq_ok, check_eq_ok, exists_const, Asset.mul_eq_ok,
    onChangeTotalStaked_eq] at h
  obtain ⟨_, -, d, hd, act, hact, bp, hbp, hsym, hst, -, t, ht, hb, _, ⟨-, rfl⟩, key, hkey, h⟩ := h
  obtain ⟨accounts, votes, rfl, htake⟩ := takeStake_spec ht
  cases h
  refine .votefix hd hbp hact ⟨hsym, by omega⟩ hst.1 ?_ ((Bool.not_eq_true _).mp hb) htake
    (availablePrimaryKey_fresh hkey) ?_
  · rw [coreSymbolPrecision_eq]; exact Int.dvd_of_emod_eq_zero hst.2
  · rw [hsym]

theorem revotefix_change {voter : Name} {key : Nat} {bpname : Name}
    (h : revotefix env s voter key bpname = .ok s') :
    Change env s (.revotefix voter key bpname) s'.ledger := by
  simp only [revotefix, bind_eq_ok, fetch_eq_ok, check_eq_ok, pure_eq_ok, exists_const] at h
  obtain ⟨_, -, f, hf, hne, hw, hlt, -, hb, bpf, hbpf, bpt, hbpt, hage, rfl⟩ := h
  exact .revotefix hf hne (by simpa using hw) hlt (by simpa using hb) hbpf hbpt hage

theorem outfixvote_change {voter : Name} {key : Nat} (h : outfixvote env s voter key = .ok s') :
    Change env s (.outfixvote voter key) s'.ledger := by
  simp only [outfixvote, bind_eq_ok, fetch_eq_ok, check_eq_ok, exists_const, Asset.add_eq_ok,
    onChangeTotalStaked_eq] at h
  obtain ⟨_, -, f, hf, _, -, bp, hbp, hle, hw, _, ⟨-, -, rfl⟩, h⟩ := h
  cases h
  exact .outfixvote hf hbp hle (by simpa using hw) rfl

/-! ## Tokens of accounts and producers -/

theorem transfer_change {src dst : Name} {q : Asset} {memo : String} {fx : List Effect}
    (h : transfer env s src dst q memo = .ok (s', fx)) :
    Change env s (.transfer src dst q memo) s'.ledger := by
  simp only [transfer, moveTokens, bind_eq_ok, fetch_eq_ok, check_eq_ok, pure_eq_ok, exists_const,
    Asset.add_eq_ok, Asset.sub_eq_ok, Prod.mk.injEq] at h
  obtain ⟨_, -, a, ha, _, -, hsym, hq, -, -, _, ⟨_, ha', _, ⟨-, -, rfl⟩, b, hb, _,
    ⟨-, -, rfl⟩, rfl⟩, rfl, -⟩ := h
  rw [ha] at ha'
  cases ha'
  have e : ({ a with available := ⟨a.available.amount - q.amount, a.available.symbol⟩ } :
      AccountInfo) = a.credit (-q.amount) := by
    simp [AccountInfo.credit, Int.sub_eq_add_neg]
  simp only [e] at hb ⊢
  exact .transfer ha hsym hq.1 hq.2 hb

theorem updatebp_change {bpname : Name} {key : String} {rate : Nat} {url : String}
    (h : updatebp env s bpname key rate url = .ok s') :
    Change env s (.updatebp bpname key rate url) s'.ledger := by
  simp only [updatebp, bind_eq_ok, check_eq_ok, pure_eq_ok, exists_const] at h
  obtain ⟨_, -, -, -, rfl⟩ := h
  exact .updatebp rfl

/-- A step keeps the block-out rewards in the range of an asset. -/
def PoolKept (o o' : Option BlockReward) : Prop :=
  o' = o ∨ ∀ r, o' = some r → Asset.InRange r.rewardBlockOut.amount

theorem claimBlockOut_spec {bpname : Name} {x : Asset} (h : claimBlockOut s bpname = .ok (s', x)) :
    ∃ blockreward bpmonitor, s' = { s with blockreward, bpmonitor } ∧
      (x.amount = 0 ∧ blockreward = s.blockreward ∨ ∃ br br', s.blockreward = some br ∧
        blockreward = some br' ∧ x.amount < br.rewardBlockOut.amount ∧
        br'.rewardBlockOut =
          ⟨br.rewardBlockOut.amount - x.amount, br.rewardBlockOut.symbol⟩) ∧
      PoolKept s.blockreward blockreward := by
  unfold claimBlockOut at h
  split at h
  · rename_i br m hbr _
    simp only [bind_eq_ok, check_eq_ok, pure_eq_ok, exists_const, Asset.lt_eq_ok,
      Asset.sub_eq_ok, Prod.mk.injEq] at h
    obtain ⟨x, -, _, ⟨-, rfl⟩, hlt, _, ⟨-, hin, rfl⟩, rfl, rfl⟩ := h
    refine ⟨_, _, rfl, .inr ⟨br, _, hbr, rfl, by simpa using hlt, rfl⟩, .inr fun r hr => ?_⟩
    cases hr
    exact hin
  · cases h
    exact ⟨_, _, rfl, .inl ⟨rfl, rfl⟩, .inl rfl⟩

theorem claimBpsReward_spec {bpname : Name} {y : Asset} (h : claimBpsReward s bpname = (s', y)) :
    ∃ bpsreward, s' = { s with bpsreward } ∧
      (y.amount = 0 ∧ s.bpsreward.find bpname = none ∧ bpsreward = s.bpsreward ∨
        ∃ r, s.bpsreward.find bpname = some r ∧ y.amount = r.amount ∧
          bpsreward = s.bpsreward.put bpname Asset.zero) := by
  unfold claimBpsReward at h
  split at h
  · rename_i hn
    cases h
    exact ⟨_, rfl, .inl ⟨rfl, hn, rfl⟩⟩
  · rename_i r hr
    cases h
    exact ⟨_, rfl, .inr ⟨_, hr, rfl, rfl⟩⟩

/-- What a `bpclaim` writes after the block-out reward. -/
theorem bpclaim_writes {bpname : Name} (h : bpclaim env s bpname = .ok s') :
    ∃ t x accounts bpsreward, claimBlockOut s bpname = .ok (t, x) ∧
      s' = { t with accounts, bpsreward } := by
  simp only [bpclaim, bind_eq_ok, pure_eq_ok, Prod.exists] at h
  obtain ⟨_, -, _, -, t, x, ht, _, -, _, -, _, -, rfl⟩ := h
  generalize hc : claimBpsReward t bpname = c
  obtain ⟨u, y⟩ := c
  obtain ⟨r, rfl, -⟩ := claimBpsReward_spec hc
  exact ⟨t, x, _, r, ht, rfl⟩

theorem bpclaim_change {bpname : Name} (h : bpclaim env s bpname = .ok s') :
    Change env s (.bpclaim bpname) s'.ledger := by
  simp only [bpclaim, bind_eq_ok, fetch_eq_ok, check_eq_ok, pure_eq_ok, exists_const,
    Asset.add_eq_ok, Prod.exists] at h
  obtain ⟨_, -, act, hact, t, x, ht, _, ⟨-, -, rfl⟩, hpos, _, ⟨-, -, rfl⟩, rfl⟩ := h
  obtain ⟨br, m, rfl, hx, -⟩ := claimBlockOut_spec ht
  generalize hc : claimBpsReward { s with blockreward := br, bpmonitor := m } bpname = c at *
  obtain ⟨u, y⟩ := c
  obtain ⟨r, rfl, hy⟩ := claimBpsReward_spec hc
  have hpos' : 0 < y.amount + x.amount := lt_trans (by decide) hpos
  exact .bpclaim hact hx hy hpos'

/-! ## Blocks -/

theorem settleProducer_ledger {c : Settlement} {acc acc' : State × Nat × List Effect}
    {p : Producer × Nat} (h : settleProducer env c acc p = .ok acc') :
    acc'.1.ledger = acc.1.ledger := by
  simp only [settleProducer, recordDrain, bind_eq_ok, pure_eq_ok] at h
  obtain ⟨t, ht, rfl⟩ := h
  split at ht
  · simp only [bind_eq_ok, pure_eq_ok] at ht
    obtain ⟨_, -, rfl⟩ := ht
    rfl
  · cases ht; rfl

theorem payBlockOut_coin {br br' : BlockReward} {bpname : Name} {age : Nat}
    (h : payBlockOut env br bpname age = .ok br') :
    (IsCoin br.rewardBlockOut → IsCoin br'.rewardBlockOut) ∧
      Asset.InRange br'.rewardBlockOut.amount := by
  simp only [payBlockOut, bind_eq_ok, Asset.make_eq_ok, Asset.add_eq_ok, pure_eq_ok] at h
  obtain ⟨_, ⟨-, -, rfl⟩, _, ⟨-, hin, rfl⟩, rfl⟩ := h
  exact ⟨fun hc => ⟨hc.1, Int.add_nonneg hc.2 (Int.natCast_nonneg _)⟩, hin⟩

/-- `reward_block` changes the block-out rewards only. -/
theorem rewardBlock_ledger {bpname : Name} {version : Nat} {isChange : Bool} {fx : List Effect}
    (h : rewardBlock env s bpname version isChange = .ok (s', fx)) :
    ∃ br, s'.ledger = { s.ledger with blockreward := br } ∧
      ((∀ r, s.blockreward = some r → IsCoin r.rewardBlockOut) →
        ∀ r, br = some r → IsCoin r.rewardBlockOut) ∧ PoolKept s.blockreward br := by
  unfold rewardBlock at h
  split at h
  · rename_i hn
    cases h
    split
    · refine ⟨_, rfl, fun _ r hr => ?_, .inr fun r hr => ?_⟩
      · cases hr; exact isCoin_zero
      · cases hr
        show Asset.InRange 0
        decide
    · exact ⟨s.blockreward, rfl, id, .inl rfl⟩
  · rename_i br hbr
    simp only [bind_eq_ok, fetch_eq_ok, pure_eq_ok, Prod.exists, Prod.mk.injEq] at h
    obtain ⟨sch, -, t, age, fx', hloop, br', hpay, rfl, -⟩ := h
    have ht : t.ledger = s.ledger :=
      foldlM_inv (P := fun acc : State × Nat × List Effect => acc.1.ledger = s.ledger) rfl
        (fun acc p acc' _ hI hstep => (settleProducer_ledger hstep).trans hI) hloop
    obtain ⟨hcoin, hin⟩ := payBlockOut_coin hpay
    refine ⟨some br', ?_, fun hc r hr => ?_, .inr fun r hr => ?_⟩
    · rw [← ht]; rfl
    · cases hr; exact hcoin (hc br hbr)
    · cases hr; exact hin

theorem settleRound_ledger {bpname : Name} {version : Nat} {fx : List Effect}
    (h : settleRound env s bpname version = .ok (s', fx)) :
    ∃ br, s'.ledger = { s.ledger with blockreward := br } ∧
      ((∀ r, s.blockreward = some r → IsCoin r.rewardBlockOut) →
        ∀ r, br = some r → IsCoin r.rewardBlockOut) ∧ PoolKept s.blockreward br := by
  unfold settleRound at h
  split at h
  · obtain ⟨br, hl, hbr⟩ := rewardBlock_ledger h
    exact ⟨br, hl, hbr⟩
  · split at h
    · exact rewardBlock_ledger h
    · cases h
      exact ⟨s.blockreward, rfl, id, .inl rfl⟩

theorem countBlock_ledger (s : State) (sch : Option ScheduleInfo) (bpname : Name) (v : Nat) :
    (countBlock s sch bpname v).ledger = s.ledger := by
  cases sch <;> rfl

theorem makeGlobalVotestate_ledger (s : State) :
    (makeGlobalVotestate s).ledger = { s.ledger with
      gvotestat := some (s.gvotestat.getD (s.bps.sum fun _ b => b.totalStaked)) } := by
  rw [makeGlobalVotestate, getGlobalVotestate_eq]; rfl

/-- A block makes the row of the global stake after the settlement. -/
theorem beat_ledger {s t : State} {br : Option BlockReward}
    (h : t.ledger = { s.ledger with blockreward := br }) (bpname : Name) (time : Nat) :
    (heartbeatImp (makeGlobalVotestate t) bpname time).ledger =
      { s.ledger with
        blockreward := br
        gvotestat := some (s.gvotestat.getD (s.bps.sum fun _ b => b.totalStaked)) } := by
  rw [show (heartbeatImp (makeGlobalVotestate t) bpname time).ledger =
    (makeGlobalVotestate t).ledger from rfl, makeGlobalVotestate_ledger,
    show t.gvotestat = t.ledger.gvotestat from rfl, show t.bps = t.ledger.bps from rfl, h]
  rfl

/-- The row is made once. -/
theorem makeGlobalVotestate_idem {s t : State} {br : Option BlockReward}
    (h : t.ledger = { s.ledger with blockreward := br }) (bpname : Name) (time : Nat) :
    (makeGlobalVotestate (heartbeatImp (makeGlobalVotestate t) bpname time)).ledger =
      { s.ledger with
        blockreward := br
        gvotestat := some (s.gvotestat.getD (s.bps.sum fun _ b => b.totalStaked)) } := by
  have h' := beat_ledger h bpname time
  generalize heartbeatImp (makeGlobalVotestate t) bpname time = u at h' ⊢
  rw [makeGlobalVotestate_ledger, show u.gvotestat = u.ledger.gvotestat from rfl, h']
  rfl

/-- A block changes no vote and no stake, and makes the row of the global stake from the bps if
there is none. -/
theorem onblock_spec {bpname : Name} {version : Nat} {fx : List Effect}
    (h : onblock env s bpname version = .ok (s', fx)) :
    s' = s ∨ s'.ledger.votes = s.votes ∧ s'.ledger.votes4ram = s.votes4ram ∧
      s'.ledger.fixvotes = s.fixvotes ∧ SameStakes s.bps s'.ledger.bps ∧
      (Coins s.ledger → Coins s'.ledger) ∧
      s'.gvotestat = some (s.gvotestat.getD (s.bps.sum fun _ b => b.totalStaked)) ∧
      PoolKept s.blockreward s'.blockreward := by
  unfold onblock at h
  split at h
  · cases h; exact .inl rfl
  simp only [bind_eq_ok, pure_eq_ok, Prod.exists, Prod.mk.injEq] at h
  obtain ⟨t, deductions, ht, u, hu, elected, -, rfl, -⟩ := h
  obtain ⟨br, htl, hbr, hpool⟩ := settleRound_ledger ht
  have hr := rewardBps_rewarded hu
  have hg := makeGlobalVotestate_idem htl bpname env.currentTimeSec
  generalize makeGlobalVotestate (heartbeatImp _ _ _) = g at hr hg
  have hl : (countBlock (recordProducer u bpname) (s.schedules.find version) bpname version).ledger =
      u.ledger := countBlock_ledger _ _ _ _
  have hcoins : Coins s.ledger → Coins g.ledger := fun hc => by
    rw [hg]
    exact ⟨hc.accounts, hc.votes, hc.votes4ram, hc.fixvotes, hc.bps, hc.bpsreward,
      hbr hc.blockreward⟩
  have hbps : SameStakes s.bps u.bps := by
    have := hr.bps
    rwa [show g.bps = s.bps from congrArg Ledger.bps hg] at this
  have hpool' : (countBlock (recordProducer u bpname) (s.schedules.find version) bpname
      version).blockreward = br :=
    ((congrArg Ledger.blockreward hl).trans hr.blockreward).trans (congrArg Ledger.blockreward hg)
  refine .inr ?_
  rw [hl]
  exact ⟨hr.votes.trans (congrArg Ledger.votes hg),
    hr.votes4ram.trans (congrArg Ledger.votes4ram hg),
    hr.fixvotes.trans (congrArg Ledger.fixvotes hg), hbps, fun hc => hr.coins (hcoins hc),
    ((congrArg Ledger.gvotestat hl).trans hr.gvotestat).trans (congrArg Ledger.gvotestat hg),
    hpool'.symm ▸ hpool⟩

/-! ## The other actions -/

theorem setemergency_change {bpname : Name} {emergency : Bool}
    (h : setemergency env s bpname emergency = .ok s') :
    Change env s (.setemergency bpname emergency) s'.ledger := by
  simp only [setemergency, bind_eq_ok, fetch_eq_ok, pure_eq_ok] at h
  obtain ⟨_, -, bp, hbp, _, -, n, -, rfl⟩ := h
  refine .other rfl rfl rfl rfl (SameStakes.put _ _ ?_ ?_ ?_) fun hc => ?_
  · rw [hbp]; rfl
  · rw [hbp]; rfl
  · rw [hbp]; rfl
  · have hb : IsPool bp.rewardsPool := hc.bps _ _ hbp
    exact ⟨hc.accounts, hc.votes, hc.votes4ram, hc.fixvotes, hc.bps.put hb, hc.bpsreward,
      hc.blockreward⟩

/-- An action that leaves the ledger alone. -/
theorem Change.same {a : Action} (ha : a.moves = false) (h : s'.ledger = s.ledger) :
    Change env s a s'.ledger :=
  h ▸ .other ha rfl rfl rfl (SameStakes.refl _) id

/-- The actions that leave the ledger alone. -/
def Action.still : Action → Bool
  | .heartbeat .. | .removebp .. | .punishbp .. | .approvebp .. | .bailpunish .. | .monitorevise ..
  | .removepunish .. | .updateconfig .. => true
  | _ => false

theorem exec_still {a : Action} {fx : List Effect} (ha : a.still = true)
    (h : exec env s a = .ok (s', fx)) : s'.ledger = s.ledger := by
  cases a <;> try cases ha
  case heartbeat =>
    simp only [exec, silent_eq_ok, heartbeat, bind_eq_ok, pure_eq_ok] at h
    obtain ⟨⟨_, -, _, -, rfl⟩, -⟩ := h
    rfl
  all_goals
    exact exec_punishFrame (f := State.ledger) (fun _ _ _ _ _ _ => rfl) rfl
      (fun _ _ e => by cases e) (fun _ e => by cases e) h

/-- A successful action is a change of the ledger. -/
theorem exec_change {a : Action} {fx : List Effect} (h : exec env s a = .ok (s', fx)) :
    Change env s a s'.ledger := by
  by_cases hstill : a.still = true
  · refine .same ?_ (exec_still hstill h)
    cases a <;> first | rfl | cases hstill
  · cases a <;> simp only [exec, silent_eq_ok] at h
    case transfer => exact transfer_change h
    case updatebp => exact updatebp_change h.1
    case vote => exact vote_change h.1
    case revote => exact revote_change h.1
    case unfreeze => exact unfreezeByTypImp_change .votes h.1
    case vote4ram => exact vote4ram_change h
    case unfreezeram => exact unfreezeByTypImp_change .votes4ram h.1
    case votefix => exact votefix_change h.1
    case revotefix => exact revotefix_change h.1
    case outfixvote => exact outfixvote_change h.1
    case claim => exact claim_change h.1
    case onblock =>
      rcases onblock_spec h with rfl | ⟨hv, hv4, hf, hb, hc, -⟩
      · exact .same rfl rfl
      · exact .other rfl hv hv4 hf hb hc
    case setemergency => exact setemergency_change h.1
    case bpclaim => exact bpclaim_change h.1
    all_goals exact absurd rfl hstill

theorem Change.blockreward {a : Action} {l : Ledger} (h : Change env s a l) (ha : a.moves = true)
    (hb : ∀ b, a ≠ .bpclaim b) : l.blockreward = s.blockreward := by
  cases h with
  | @cast typ | @unfreeze typ => cases typ <;> rfl
  | bpclaim => exact absurd rfl (hb _)
  | other hm => exact absurd (ha.symm.trans hm) nofun
  | _ => rfl

/-- No action takes the block-out rewards out of the range of an asset. -/
theorem exec_pool {a : Action} {fx : List Effect} (h : exec env s a = .ok (s', fx)) :
    PoolKept s.blockreward s'.blockreward := by
  by_cases hstill : a.still = true
  · exact .inl (congrArg Ledger.blockreward (exec_still hstill h))
  have hch := exec_change h
  change PoolKept _ s'.ledger.blockreward
  cases a <;> simp only [exec, silent_eq_ok] at h
  case onblock =>
    rcases onblock_spec h with rfl | ⟨-, -, -, -, -, -, hpool⟩
    · exact .inl rfl
    · exact hpool
  case bpclaim =>
    obtain ⟨t, x, _, _, ht, rfl⟩ := bpclaim_writes h.1
    obtain ⟨br, m, rfl, -, hpool⟩ := claimBlockOut_spec ht
    exact hpool
  case setemergency =>
    simp only [setemergency, bind_eq_ok, pure_eq_ok] at h
    obtain ⟨⟨_, -, bp, -, _, -, n, -, rfl⟩, -⟩ := h
    exact .inl rfl
  all_goals
    first
    | exact absurd rfl hstill
    | exact .inl (hch.blockreward rfl fun _ e => by cases e)

/-! ## The available tokens -/

/-- Every account has at least as many available tokens. -/
def AccountsGrow (t t' : Table Name AccountInfo) : Prop := ∀ k b, t.find k = some b →
  ∃ b', t'.find k = some b' ∧ b.available.amount ≤ b'.available.amount

theorem AccountsGrow.refl (t : Table Name AccountInfo) : AccountsGrow t t :=
  fun _ b hb => ⟨b, hb, le_refl _⟩

theorem AccountsGrow.trans {t u v : Table Name AccountInfo} (h : AccountsGrow t u)
    (h' : AccountsGrow u v) : AccountsGrow t v := by
  intro k b hb
  obtain ⟨c, hc, hle⟩ := h k b hb
  obtain ⟨d, hd, hle'⟩ := h' k c hc
  exact ⟨d, hd, hle.trans hle'⟩

theorem AccountsGrow.credit {t : Table Name AccountInfo} {k : Name} {b : AccountInfo} {x : Int}
    (hb : t.find k = some b) (hx : 0 ≤ x) : AccountsGrow t (t.put k (b.credit x)) := by
  intro k' b' hb'
  by_cases hk : k = k'
  · subst hk
    obtain rfl := Option.some.inj (hb.symm.trans hb')
    exact ⟨_, Table.find_put_self _ _ _, by rw [AccountInfo.credit_amount]; omega⟩
  · exact ⟨b', by rw [Table.find_put_ne _ _ hk, hb'], le_refl _⟩

theorem rewardBps_grow (h : rewardBps env s = .ok s') : AccountsGrow s.accounts s'.accounts := by
  refine rewardBps_inv (P := fun t => AccountsGrow s.accounts t.accounts) h ?_
    (fun all acc p acc' _ _ hI hstep => ?_) fun t t' r hI hb => ?_
  · rw [show (makeGlobalVotestate s).accounts = s.accounts from
      congrArg Ledger.accounts (makeGlobalVotestate_ledger s)]
    exact .refl _
  · rcases rewardBp_spec hstep with rfl | ⟨-, -, -, -, rfl⟩
    · exact hI
    · exact hI
  · rcases Nat.eq_zero_or_pos r with rfl | hpos
    · cases hb
      exact hI
    · obtain ⟨b, hf, -, rfl⟩ := rewardBudget_spec hpos hb
      exact hI.trans (.credit hf (Int.natCast_nonneg r))

theorem onblock_grow {bpname : Name} {version : Nat} {fx : List Effect}
    (h : onblock env s bpname version = .ok (s', fx)) : AccountsGrow s.accounts s'.accounts := by
  unfold onblock at h
  split at h
  · cases h
    exact .refl _
  simp only [bind_eq_ok, pure_eq_ok, Prod.exists, Prod.mk.injEq] at h
  obtain ⟨t, deductions, ht, u, hu, elected, -, rfl, -⟩ := h
  obtain ⟨br, htl, -⟩ := settleRound_ledger ht
  have hacc : (heartbeatImp (makeGlobalVotestate t) bpname env.currentTimeSec).accounts =
      s.accounts := congrArg Ledger.accounts (beat_ledger htl bpname env.currentTimeSec)
  have hl := countBlock_ledger (recordProducer u bpname) (s.schedules.find version) bpname version
  rw [show (countBlock (recordProducer u bpname) (s.schedules.find version) bpname version).accounts =
    u.accounts from congrArg Ledger.accounts hl, ← hacc]
  exact rewardBps_grow hu

/-- The actions that move no tokens between the tables. -/
theorem exec_grow {a : Action} {fx : List Effect} (ha : a.moves = false)
    (h : exec env s a = .ok (s', fx)) : AccountsGrow s.accounts s'.accounts ∧
      ((∀ b v, a ≠ .onblock b v) → s'.accounts = s.accounts) := by
  by_cases hstill : a.still = true
  · have hl : s'.accounts = s.accounts := congrArg Ledger.accounts (exec_still hstill h)
    exact ⟨hl ▸ .refl _, fun _ => hl⟩
  cases a with
  | onblock b v => exact ⟨onblock_grow h, fun hne => absurd rfl (hne b v)⟩
  | setemergency b e =>
    simp only [exec, silent_eq_ok, setemergency, bind_eq_ok, fetch_eq_ok, pure_eq_ok] at h
    obtain ⟨⟨_, -, bp, -, _, -, n, -, rfl⟩, -⟩ := h
    exact ⟨.refl _, fun _ => rfl⟩
  | _ => first | exact absurd rfl hstill | cases ha

end Eosforce.System
