import Eosforce.System.Change
import Eosforce.System.Rounds

/-!
# What an action leaves alone

The tables fall into those that votes, transfers and the rows of the bps live in, those of the
blocks and of the punishment protocol, and `vote4ramsum`.

* `VoteFrame`, `StakeFrame`, `exec_voteFrame`, `exec_outsideFrame`: what does not read the tables of
  the first group is the same after an action on them.
* `BlockFrame`, `exec_blockFrame`: the same for the actions of the second group.
* `SettleFrame`, `ClaimFrame`: like `PunishFrame`, for a settlement and for `bpclaim`.
* `exec_blockreward`, `exec_vote4ramsum`: which actions write these tables.
-/

namespace Eosforce.System

open Fallible Keyed

variable {env : Env} {s s' : State} {α : Type} {f : State → α}

/-- `f` does not read accounts, votes, bps and what belongs to them. -/
def VoteFrame (f : State → α) : Prop :=
  ∀ t accounts votes votes4ram fixvotes bps gvotestat heartbeat chainstatus,
    f { t with accounts, votes, votes4ram, fixvotes, bps, gvotestat, heartbeat, chainstatus } = f t

/-- Like `VoteFrame`, but `f` may read the signs of life. -/
def StakeFrame (f : State → α) : Prop :=
  ∀ t accounts votes votes4ram fixvotes bps gvotestat chainstatus,
    f { t with accounts, votes, votes4ram, fixvotes, bps, gvotestat, chainstatus } = f t

/-- `f` does not read the tables of the blocks and of the punishment protocol, nor what the rewards
of a block are added to. -/
def BlockFrame (f : State → α) : Prop :=
  ∀ t accounts bps gvotestat heartbeat schedules blackpro blockreward bpmonitor drainblocks
    punishbps bpsreward lastproducer systemconfig,
    f { t with accounts, bps, gvotestat, heartbeat, schedules, blackpro, blockreward, bpmonitor,
               drainblocks, punishbps, bpsreward, lastproducer, systemconfig } = f t

/-- `f` does not read what a settlement writes. -/
def SettleFrame (f : State → α) : Prop :=
  ∀ t blockreward bpmonitor drainblocks, f { t with blockreward, bpmonitor, drainblocks } = f t

/-- `f` does not read what `bpclaim` writes. -/
def ClaimFrame (f : State → α) : Prop :=
  ∀ t accounts blockreward bpmonitor bpsreward,
    f { t with accounts, blockreward, bpmonitor, bpsreward } = f t

theorem VoteFrame.stake (hf : VoteFrame f) : StakeFrame f :=
  fun t _ _ _ _ _ _ _ => hf t _ _ _ _ _ _ _ _

theorem BlockFrame.settle (hf : BlockFrame f) : SettleFrame f :=
  fun t _ _ _ => hf t _ _ _ _ _ _ _ _ _ _ _ _ _

theorem BlockFrame.punish (hf : BlockFrame f) : PunishFrame f :=
  fun t _ _ _ _ _ => hf t _ _ _ _ _ _ _ _ _ _ _ _ _

theorem BlockFrame.claim (hf : BlockFrame f) : ClaimFrame f :=
  fun t _ _ _ _ => hf t _ _ _ _ _ _ _ _ _ _ _ _ _

/-! ## Votes, transfers and bps -/

theorem onChangeTotalStaked_frame (hf : StakeFrame f) {x : Int}
    (h : onChangeTotalStaked s x = .ok s') : f s' = f s := by
  rw [onChangeTotalStaked_eq] at h
  cases h
  exact hf s _ _ _ _ _ _ _

theorem applyChange_frame (hf : StakeFrame f) {n : Nat} {voter bpname : Name} {act : AccountInfo}
    {bp : BpInfo} {change : Int} (h : applyChange n s voter bpname act bp change = .ok s') :
    f s' = f s := by
  simp only [applyChange, debitStake, ite_eq_ok, bind_eq_ok, pure_eq_ok] at h
  rcases h with ⟨-, rfl⟩ | ⟨-, t, ⟨-, _, -, rfl⟩ | ⟨-, rfl⟩, h⟩
  · rfl
  · exact (onChangeTotalStaked_frame hf h).trans (hf s _ _ _ _ _ _ _)
  · exact (onChangeTotalStaked_frame hf h).trans (hf s _ _ _ _ _ _ _)

theorem setVotesTbl_frame (hf : StakeFrame f) (s : State) (typ : VoteTyp)
    (tbl : Scoped Name Name VoteInfo) : f (s.setVotesTbl typ tbl) = f s := by
  cases typ <;> exact hf s _ _ _ _ _ _ _

theorem voteByTypImp_frame (hf : StakeFrame f) {typ : VoteTyp} {voter bpname : Name} {stake : Asset}
    {change : Int} (h : voteByTypImp typ env s voter bpname stake = .ok (s', change)) :
    f s' = f s := by
  simp only [voteByTypImp, bind_eq_ok, pure_eq_ok, Prod.mk.injEq, Prod.exists] at h
  obtain ⟨_, -, _, -, _, -, _, -, _, -, _, -, _, v, -, t, ht, rfl, -⟩ := h
  exact (applyChange_frame hf ht).trans (setVotesTbl_frame hf s typ _)

theorem unfreezeByTypImp_frame (hf : StakeFrame f) {typ : VoteTyp} {voter bpname : Name}
    (h : unfreezeByTypImp typ env s voter bpname = .ok s') : f s' = f s := by
  simp only [unfreezeByTypImp, bind_eq_ok, pure_eq_ok] at h
  obtain ⟨_, -, _, -, _, -, _, -, _, -, _, -, rfl⟩ := h
  exact (setVotesTbl_frame hf _ typ _).trans (hf s _ _ _ _ _ _ _)

theorem votefix_frame (hf : StakeFrame f) {voter bpname typ : Name} {stake : Asset} {stakeTyp : Nat}
    (h : votefix env s voter bpname typ stake stakeTyp = .ok s') : f s' = f s := by
  simp only [votefix, bind_eq_ok] at h
  obtain ⟨_, -, _, -, _, -, _, -, _, -, _, -, _, -, t, ht, _, -, _, -, _, -, h⟩ := h
  obtain ⟨accounts, votes, rfl, -⟩ := takeStake_spec ht
  exact (onChangeTotalStaked_frame hf h).trans (hf s _ _ _ _ _ _ _)

/-- What does not read the tables of votes, transfers and bps is the same after an action on them.
`vote4ram` also writes the sums of the RAM votes, and `heartbeat` the signs of life. -/
theorem exec_stakeFrame (hf : StakeFrame f) {a : Action} {fx : List Effect}
    (ha : a.disciplines = false) (hram : ∀ voter b x, a ≠ .vote4ram voter b x)
    (hbeat : ∀ b time, a ≠ .heartbeat b time) (h : exec env s a = .ok (s', fx)) : f s' = f s := by
  cases a <;> simp only [exec, silent_eq_ok] at h
  case vote4ram voter b x => exact absurd rfl (hram voter b x)
  case heartbeat b time => exact absurd rfl (hbeat b time)
  case unfreeze => exact unfreezeByTypImp_frame hf h.1
  case unfreezeram => exact unfreezeByTypImp_frame hf h.1
  case votefix => exact votefix_frame hf h.1
  case vote =>
    simp only [vote, bind_eq_ok, pure_eq_ok, Prod.exists] at h
    obtain ⟨⟨t, _, ht, rfl⟩, -⟩ := h
    exact voteByTypImp_frame hf ht
  case transfer =>
    simp only [transfer, moveTokens, bind_eq_ok, pure_eq_ok, Prod.mk.injEq] at h
    obtain ⟨_, -, _, -, _, -, _, -, _, -, _, -, _, -, t, ⟨_, -, _, -, _, -, _, -, rfl⟩, rfl, -⟩ := h
    exact hf s _ _ _ _ _ _ _
  case updatebp =>
    simp only [updatebp, bind_eq_ok, pure_eq_ok] at h
    obtain ⟨⟨_, -, _, -, _, -, rfl⟩, -⟩ := h
    exact hf s _ _ _ _ _ _ _
  case revote =>
    simp only [revote, bind_eq_ok, pure_eq_ok] at h
    obtain ⟨⟨_, -, _, -, _, -, _, -, _, -, _, -, _, -, _, -, _, -, _, -, _, -, _, -, rfl⟩, -⟩ := h
    exact hf s _ _ _ _ _ _ _
  case revotefix =>
    simp only [revotefix, bind_eq_ok, pure_eq_ok] at h
    obtain ⟨⟨_, -, _, -, _, -, _, -, _, -, _, -, _, -, _, -, _, -, _, -, rfl⟩, -⟩ := h
    exact hf s _ _ _ _ _ _ _
  case outfixvote =>
    simp only [outfixvote, bind_eq_ok] at h
    obtain ⟨⟨_, -, _, -, _, -, _, -, _, -, _, -, _, -, h⟩, -⟩ := h
    exact (onChangeTotalStaked_frame hf h).trans (hf s _ _ _ _ _ _ _)
  case claim =>
    simp only [claim, bind_eq_ok, pure_eq_ok] at h
    obtain ⟨⟨_, -, _, -, _, -, _, -, _, -, _, -, _, -, _, -, rfl⟩, -⟩ := h
    exact hf s _ _ _ _ _ _ _
  case setemergency =>
    simp only [setemergency, bind_eq_ok, pure_eq_ok] at h
    obtain ⟨⟨_, -, _, -, _, -, _, -, rfl⟩, -⟩ := h
    exact hf s _ _ _ _ _ _ _
  all_goals cases ha

/-- What does not read the signs of life either. -/
theorem exec_voteFrame (hf : VoteFrame f) {a : Action} {fx : List Effect}
    (ha : a.disciplines = false) (hram : ∀ voter b x, a ≠ .vote4ram voter b x)
    (h : exec env s a = .ok (s', fx)) : f s' = f s := by
  by_cases hbeat : ∃ b time, a = .heartbeat b time
  · obtain ⟨b, time, rfl⟩ := hbeat
    simp only [exec, silent_eq_ok, heartbeat, bind_eq_ok, pure_eq_ok] at h
    obtain ⟨⟨_, -, _, -, rfl⟩, -⟩ := h
    exact hf s _ _ _ _ _ _ _ _
  · exact exec_stakeFrame hf.stake ha hram (fun b time e => hbeat ⟨b, time, e⟩) h

/-- `vote4ram`, where the sums of the RAM votes are not read either. -/
theorem vote4ram_frame (hf : StakeFrame f) (hsum : ∀ t x, f { t with vote4ramsum := x } = f t)
    {voter bpname : Name} {stake : Asset} {fx : List Effect}
    (h : vote4ram env s voter bpname stake = .ok (s', fx)) : f s' = f s := by
  simp only [vote4ram, addVote4ramsum, bind_eq_ok, pure_eq_ok, Prod.exists, Prod.mk.injEq] at h
  obtain ⟨t, change, ht, u, hu, rfl, -⟩ := h
  refine Eq.trans ?_ (voteByTypImp_frame hf ht)
  split at hu
  · cases hu
    exact hsum t _
  · simp only [bind_eq_ok, pure_eq_ok] at hu
    obtain ⟨_, -, _, -, rfl⟩ := hu
    exact hsum t _

/-- What does not read the tables of votes, transfers and bps, nor the sums of the RAM votes, is the
same after every action outside the punishment protocol. -/
theorem exec_outsideFrame (hf : VoteFrame f) (hsum : ∀ t x, f { t with vote4ramsum := x } = f t)
    {a : Action} {fx : List Effect} (ha : a.disciplines = false)
    (h : exec env s a = .ok (s', fx)) : f s' = f s := by
  by_cases hram : ∃ voter b x, a = .vote4ram voter b x
  · obtain ⟨voter, b, x, rfl⟩ := hram
    exact vote4ram_frame hf.stake hsum h
  · exact exec_voteFrame hf ha (fun voter b x e => hram ⟨voter, b, x, e⟩) h

/-! ## Blocks and punishment -/

theorem settleProducer_frame (hf : SettleFrame f) {c : Settlement}
    {acc acc' : State × Nat × List Effect} {p : Producer × Nat}
    (h : settleProducer env c acc p = .ok acc') : f acc'.1 = f acc.1 := by
  simp only [settleProducer, recordDrain, ite_eq_ok, bind_eq_ok, pure_eq_ok] at h
  obtain ⟨t, ⟨-, _, -, rfl⟩ | ⟨-, rfl⟩, rfl⟩ := h
  · exact hf acc.1 _ _ _
  · exact hf acc.1 _ _ _

theorem rewardBlock_frame (hf : SettleFrame f) {b : Name} {v : Nat} {ch : Bool} {fx : List Effect}
    (h : rewardBlock env s b v ch = .ok (s', fx)) : f s' = f s := by
  unfold rewardBlock at h
  split at h
  · cases h
    split
    · exact hf s _ _ _
    · rfl
  · simp only [bind_eq_ok, pure_eq_ok, Prod.exists, Prod.mk.injEq] at h
    obtain ⟨_, -, t, _, _, hloop, _, -, rfl, -⟩ := h
    have ht : f t = f s := foldlM_inv (P := fun acc : State × Nat × List Effect => f acc.1 = f s) rfl
      (fun _ _ _ _ hI hstep => (settleProducer_frame hf hstep).trans hI) hloop
    exact (hf t _ _ _).trans ht

theorem settleRound_frame (hf : SettleFrame f)
    (hsch : ∀ t x, f { t with schedules := x } = f t) {b : Name} {v : Nat} {fx : List Effect}
    (h : settleRound env s b v = .ok (s', fx)) : f s' = f s := by
  unfold settleRound at h
  split at h
  · exact (rewardBlock_frame hf h).trans (hsch s _)
  · split at h
    · exact rewardBlock_frame hf h
    · cases h
      rfl

theorem makeGlobalVotestate_frame (hf : BlockFrame f) (s : State) :
    f (makeGlobalVotestate s) = f s := by
  unfold makeGlobalVotestate getGlobalVotestate
  split
  · rfl
  · exact hf s _ _ _ _ _ _ _ _ _ _ _ _ _

theorem onblock_frame (hf : BlockFrame f) {b : Name} {v : Nat} {fx : List Effect}
    (h : onblock env s b v = .ok (s', fx)) : f s' = f s := by
  unfold onblock at h
  split at h
  · cases h
    rfl
  simp only [bind_eq_ok, pure_eq_ok, Prod.exists, Prod.mk.injEq] at h
  obtain ⟨t, _, ht, u, hu, _, -, rfl, -⟩ := h
  have hu : f u = f s := by
    refine (rewardBps_frame (fun t _ _ _ _ => hf t _ _ _ _ _ _ _ _ _ _ _ _ _) hu).trans ?_
    apply (hf (makeGlobalVotestate t) _ _ _ _ _ _ _ _ _ _ _ _ _).trans
    exact (makeGlobalVotestate_frame hf t).trans
      (settleRound_frame hf.settle (fun t _ => hf t _ _ _ _ _ _ _ _ _ _ _ _ _) ht)
  refine Eq.trans ?_ hu
  cases s.schedules.find v <;> exact hf u _ _ _ _ _ _ _ _ _ _ _ _ _

theorem bpclaim_frame (hf : ClaimFrame f) {b : Name} (h : bpclaim env s b = .ok s') :
    f s' = f s := by
  obtain ⟨t, x, _, _, ht, rfl⟩ := bpclaim_writes h
  obtain ⟨br, m, rfl, -⟩ := claimBlockOut_spec ht
  exact hf s _ _ _ _

/-- What does not read the tables of the blocks and of the punishment protocol is the same after an
action on them. -/
theorem exec_blockFrame (hf : BlockFrame f) {a : Action} {fx : List Effect}
    (ha : a.disciplines = true) (h : exec env s a = .ok (s', fx)) : f s' = f s := by
  by_cases hblock : ∃ b v, a = .onblock b v
  · obtain ⟨b, v, rfl⟩ := hblock
    exact onblock_frame hf h
  by_cases hclaim : ∃ b, a = .bpclaim b
  · obtain ⟨b, rfl⟩ := hclaim
    exact bpclaim_frame hf.claim (silent_eq_ok.mp h).1
  · exact exec_punishFrame hf.punish ha (fun b v e => hblock ⟨b, v, e⟩) (fun b e => hclaim ⟨b, e⟩) h

/-- What only `onblock` and `bpclaim` write is the same after every other action. -/
theorem exec_rewardFrame (hv : VoteFrame f) (hsum : ∀ t x, f { t with vote4ramsum := x } = f t)
    (hp : PunishFrame f) {a : Action} {fx : List Effect} (hblock : ∀ b v, a ≠ .onblock b v)
    (hclaim : ∀ b, a ≠ .bpclaim b) (h : exec env s a = .ok (s', fx)) : f s' = f s := by
  cases ha : a.disciplines with
  | true => exact exec_punishFrame hp ha hblock hclaim h
  | false => exact exec_outsideFrame hv hsum ha h

/-- Only `onblock` and `bpclaim` write the row of the block-out rewards. -/
theorem exec_blockreward {a : Action} {fx : List Effect} (hblock : ∀ b v, a ≠ .onblock b v)
    (hclaim : ∀ b, a ≠ .bpclaim b) (h : exec env s a = .ok (s', fx)) :
    s'.blockreward = s.blockreward :=
  exec_rewardFrame (f := State.blockreward) (fun _ _ _ _ _ _ _ _ _ => rfl) (fun _ _ => rfl)
    (fun _ _ _ _ _ _ => rfl) hblock hclaim h

/-- What only `onblock` writes is the same after every other action. -/
theorem exec_onblockFrame (hv : VoteFrame f) (hsum : ∀ t x, f { t with vote4ramsum := x } = f t)
    (hp : PunishFrame f) (hc : ClaimFrame f) {a : Action} {fx : List Effect}
    (hblock : ∀ b v, a ≠ .onblock b v) (h : exec env s a = .ok (s', fx)) : f s' = f s := by
  by_cases hclaim : ∃ b, a = .bpclaim b
  · obtain ⟨b, rfl⟩ := hclaim
    exact bpclaim_frame hc (silent_eq_ok.mp h).1
  · exact exec_rewardFrame hv hsum hp hblock (fun b e => hclaim ⟨b, e⟩) h

/-- Only `vote4ram` writes the sums of the RAM votes. -/
theorem exec_vote4ramsum {a : Action} {fx : List Effect} (hram : ∀ voter b x, a ≠ .vote4ram voter b x)
    (h : exec env s a = .ok (s', fx)) : s'.vote4ramsum = s.vote4ramsum := by
  cases ha : a.disciplines with
  | true =>
    exact exec_blockFrame (f := State.vote4ramsum) (fun _ _ _ _ _ _ _ _ _ _ _ _ _ _ => rfl) ha h
  | false =>
    exact exec_voteFrame (f := State.vote4ramsum) (fun _ _ _ _ _ _ _ _ _ => rfl) ha hram h

end Eosforce.System
