import Eosforce.System.Authority
import Eosforce.System.DrainRevise
import Eosforce.System.Heartbeat
import Eosforce.System.Holding
import Eosforce.System.Issuance
import Eosforce.System.Versions

/-!
# What keeps blocks from failing

`onblock` fails if a settlement finds no row, if the drain blocks of a bp have a row of this block
already, if the budget has no account, and if an amount leaves the range of an asset.

* `BlockStart`, `ChainStep`: a block comes first in its height, with enough producers.
* `Rosters`, `DrainsBelow`, `SupplyBounded`: why none of it happens on a chain.
* `onblock_succeeds`: a block that finds its row succeeds.
* `ChainInv`: what a chain keeps, so that a block of the next version succeeds.
-/

namespace Eosforce.System

open Fallible Keyed Runs Tops

variable {env : Env} {s s' : State} {p q : Point} {b : Name} {v : Nat}

/-- What a chain gives to a block: a new height, enough active producers, all different, and
memory that was not used before. -/
structure BlockStart (p : Point) (env : Env) : Prop where
  later : p.height < env.currentBlockNum
  active : numOfTopBps ≤ env.activeProducers.length
  distinct : env.activeProducers.Nodup
  fresh : FreshBuffer env

/-- A step of a chain. -/
def ChainStep (p : Point) (a : Env × Action) (q : Point) : Prop :=
  Step p a q ∧ ∀ b v, a.2 = .onblock b v → BlockStart p a.1

/-! ## The rows of the schedules -/

/-- The producers of a row are all different, and at most `NUM_OF_TOP_BPS`. -/
structure RosterRow (sch : ScheduleInfo) : Prop where
  nodup : sch.names.Nodup
  length : sch.names.length ≤ numOfTopBps

theorem rosterRow_new (hd : env.activeProducers.Nodup) : RosterRow (newSchedule env b) where
  nodup := by
    rw [newSchedule_names]
    exact hd.sublist (List.take_sublist _ _)
  length := by
    rw [newSchedule_names]
    exact List.length_take_le _ _

/-- The rows of the schedules are rosters. -/
def Rosters (s : State) : Prop := s.schedules.All fun _ sch => RosterRow sch

theorem Rosters.onblock {fx : List Effect} (hs : Rosters s)
    (hstart : BlockStart p env) (h : onblock env s b v = .ok (s', fx)) : Rosters s' := by
  obtain ⟨t, ded, ht, -, hr⟩ := onblock_rounds hstart.active h
  have hsch := congrArg Rounds.schedules hr
  simp only [State.rounds] at hsch
  unfold Rosters
  rw [hsch]
  unfold settleRound at ht
  cases hf : s.schedules.find v with
  | none =>
    rw [hf] at ht
    show t.schedules.All _
    rw [rewardBlock_frame (f := State.schedules) (fun _ _ _ _ => rfl) ht]
    exact Table.All.put hs (rosterRow_new hstart.distinct)
  | some sch =>
    rw [hf] at ht
    have ht' : t.schedules = s.schedules := by
      simp only [ite_eq_ok, pure_eq_ok, Prod.mk.injEq] at ht
      rcases ht with ⟨-, ht⟩ | ⟨-, rfl, -⟩
      · exact rewardBlock_frame (f := State.schedules) (fun _ _ _ _ => rfl) ht
      · rfl
    have hcount : RosterRow (sch.count b) := by
      obtain ⟨hnodup, hlength⟩ := hs v sch hf
      rw [← count_names] at hnodup hlength
      exact ⟨hnodup, hlength⟩
    show (t.schedules.put v (sch.count b)).All _
    rw [ht']
    exact Table.All.put hs hcount

/-- **Step lemma.** -/
theorem Rosters.step {a : Env × Action} (hs : Rosters p.state)
    (h : ChainStep p a q) : Rosters q.state := by
  obtain ⟨env, a⟩ := a
  obtain ⟨⟨-, -, fx, hx⟩, hstart⟩ := h
  by_cases hon : ∃ b v, a = .onblock b v
  · obtain ⟨b, v, rfl⟩ := hon
    exact hs.onblock (hstart b v rfl) hx
  · have hsame : q.state.schedules = p.state.schedules :=
      exec_onblockFrame (f := State.schedules) (fun _ _ _ _ _ _ _ _ _ => rfl) (fun _ _ => rfl)
        (fun _ _ _ _ _ _ => rfl) (fun _ _ _ _ _ => rfl) (fun b v e => hon ⟨b, v, e⟩) hx
    unfold Rosters
    rw [hsame]
    exact hs

/-! ## The rows of the drain blocks -/

/-- The drain blocks have no row above the height. -/
def DrainsBelow (n : Nat) (s : State) : Prop := s.drainblocks.All fun _ block _ => block ≤ n

theorem DrainsBelow.mono {n m : Nat} (h : DrainsBelow n s) (hle : n ≤ m) : DrainsBelow m s :=
  Scoped.All.imp h fun _ _ _ hb => hb.trans hle

theorem DrainsBelow.congr {n : Nat} (h : DrainsBelow n s) (he : s'.drainblocks = s.drainblocks) :
    DrainsBelow n s' := by
  unfold DrainsBelow
  rw [he]
  exact h

/-- A row is at the block that writes it. -/
theorem DrainsBelow.settle {c : Settlement} {acc acc' : State × Nat × List Effect}
    {x : Producer × Nat} (h : DrainsBelow env.currentBlockNum acc.1)
    (hx : settleProducer env c acc x = .ok acc') : DrainsBelow env.currentBlockNum acc'.1 := by
  simp only [settleProducer, recordDrain, ite_eq_ok, bind_eq_ok, pure_eq_ok, emplace_eq_ok] at hx
  obtain ⟨t, ⟨-, tbl, ⟨-, rfl⟩, rfl⟩ | ⟨-, rfl⟩, rfl⟩ := hx
  · exact Scoped.All.setScope h (Table.All.put (Scoped.All.scope h _) (le_refl _))
  · exact h

theorem DrainsBelow.rewardBlock {ch : Bool} {fx : List Effect}
    (h : DrainsBelow env.currentBlockNum s) (hx : rewardBlock env s b v ch = .ok (s', fx)) :
    DrainsBelow env.currentBlockNum s' := by
  unfold System.rewardBlock at hx
  split at hx
  · cases hx
    split <;> exact h
  · simp only [bind_eq_ok, pure_eq_ok, Prod.exists, Prod.mk.injEq] at hx
    obtain ⟨_, -, t, _, _, hloop, _, -, rfl, -⟩ := hx
    exact foldlM_inv (P := fun acc : State × Nat × List Effect =>
      DrainsBelow env.currentBlockNum acc.1) h (fun _ _ _ _ hI hs => hI.settle hs) hloop

theorem DrainsBelow.onblock {fx : List Effect} (h : DrainsBelow env.currentBlockNum s)
    (hact : numOfTopBps ≤ env.activeProducers.length) (hx : onblock env s b v = .ok (s', fx)) :
    DrainsBelow env.currentBlockNum s' := by
  obtain ⟨t, ded, u, elected, ht, hu, -, rfl, -⟩ := onblock_parts hact hx
  have htd : DrainsBelow env.currentBlockNum t := by
    unfold settleRound at ht
    split at ht
    · refine DrainsBelow.rewardBlock ?_ ht
      exact h
    · split at ht
      · exact h.rewardBlock ht
      · cases ht
        exact h
  have hud : u.drainblocks = t.drainblocks := by
    refine (rewardBps_frame (f := State.drainblocks) (fun _ _ _ _ _ => rfl) hu).trans ?_
    unfold makeGlobalVotestate getGlobalVotestate
    split <;> rfl
  refine htd.congr (Eq.trans ?_ hud)
  cases s.schedules.find v <;> rfl

/-- A revision only erases rows. -/
theorem DrainsBelow.revise {n : Nat} (h : DrainsBelow n s) (k : Name) (m : BpMonitor) :
    DrainsBelow n (reviseMonitor s k m) := by
  obtain ⟨-, -, -, hr⟩ := drainblockScan_ends (s.drainblocks.scope k)
  have hrows : (drainblockRevise (s.drainblocks.scope k)).1.All fun block _ => block ≤ n := by
    intro block num hf
    rw [hr.rows block] at hf
    exact h k block num (Option.filter_eq_some_iff.mp hf).1
  exact Scoped.All.setScope h hrows

theorem approvebp_drainblocks {approver : Name} {fx : List Effect}
    (h : approvebp env s b approver = .ok (s', fx)) : s'.drainblocks = s.drainblocks := by
  simp only [approvebp, bind_eq_ok] at h
  obtain ⟨_, -, _, -, _, -, x, -, _, -, _, -, h⟩ := h
  split at h
  · cases h
    rfl
  · simp only [execPunishBp, bind_eq_ok] at h
    obtain ⟨_, -, _, -, _, -, h⟩ := h
    split at h
    · cases h
      rfl
    · simp only [bind_eq_ok, pure_eq_ok, Prod.mk.injEq] at h
      obtain ⟨_, -, _, -, _, -, rfl, -⟩ := h
      rfl

/-- Only blocks and revisions write the rows of the drain blocks. -/
theorem exec_drainblocks {a : Action} {fx : List Effect} (hon : ∀ b v, a ≠ .onblock b v)
    (hrev : ∀ b, a ≠ .monitorevise b) (h : exec env s a = .ok (s', fx)) :
    s'.drainblocks = s.drainblocks := by
  cases ha : a.disciplines with
  | false =>
    exact exec_outsideFrame (f := State.drainblocks) (fun _ _ _ _ _ _ _ _ _ => rfl)
      (fun _ _ => rfl) ha h
  | true =>
    cases a <;> simp only [exec, silent_eq_ok] at h
    case onblock b v => exact absurd rfl (hon b v)
    case monitorevise b => exact absurd rfl (hrev b)
    case approvebp => exact approvebp_drainblocks h
    case bpclaim => exact bpclaim_frame (f := State.drainblocks) (fun _ _ _ _ _ => rfl) h.1
    case removebp =>
      simp only [removebp, bind_eq_ok, pure_eq_ok] at h
      obtain ⟨⟨_, -, rfl⟩, -⟩ := h
      rfl
    case punishbp =>
      simp only [punishbp, bind_eq_ok, pure_eq_ok] at h
      obtain ⟨⟨_, -, _, -, _, -, _, -, _, -, _, -, rfl⟩, -⟩ := h
      rfl
    case bailpunish =>
      simp only [bailpunish, bind_eq_ok, pure_eq_ok] at h
      obtain ⟨⟨_, -, _, -, _, -, rfl⟩, -⟩ := h
      rfl
    case removepunish =>
      simp only [removepunish, bind_eq_ok, pure_eq_ok] at h
      obtain ⟨⟨_, -, _, -, _, -, _, -, _, -, rfl⟩, -⟩ := h
      rfl
    case updateconfig =>
      simp only [updateconfig, bind_eq_ok, pure_eq_ok] at h
      obtain ⟨⟨_, -, rfl⟩, -⟩ := h
      rfl
    all_goals cases ha

/-- **Step lemma.** -/
theorem DrainsBelow.step {a : Env × Action} (hp : DrainsBelow p.height p.state)
    (h : ChainStep p a q) : DrainsBelow q.height q.state := by
  obtain ⟨env, a⟩ := a
  obtain ⟨⟨hle, hq, fx, hx⟩, hstart⟩ := h
  rw [hq]
  have hnow : DrainsBelow env.currentBlockNum p.state := hp.mono hle
  by_cases hon : ∃ b v, a = .onblock b v
  · obtain ⟨b, v, rfl⟩ := hon
    exact hnow.onblock (hstart b v rfl).active hx
  by_cases hrev : ∃ b, a = .monitorevise b
  · obtain ⟨b, rfl⟩ := hrev
    refine monitorevise_inv (P := DrainsBelow env.currentBlockNum) (silent_eq_ok.mp hx).1 hnow ?_
    exact fun t k m _ ht => ht.revise k m
  · exact hnow.congr
      (exec_drainblocks (fun b v e => hon ⟨b, v, e⟩) (fun b e => hrev ⟨b, e⟩) hx)

/-! ## A block -/

/-- Where no row of this block is there, the loop of `reward_block` succeeds. -/
theorem settleLoop_succeeds (env : Env) (c : Settlement) (l : List Producer) :
    ∀ (k : Nat) (acc : State × Nat × List Effect), (l.map Producer.bpname).Nodup →
      (∀ x ∈ l, acc.1.drainblocks.find x.bpname env.currentBlockNum = none) →
      ∃ acc', (l.zipIdx k).foldlM (settleProducer env c) acc = .ok acc' := by
  induction l with
  | nil => exact fun _ acc _ _ => ⟨acc, rfl⟩
  | cons x l ih =>
    intro k acc hnd hnone
    obtain ⟨hx, hnd⟩ := List.nodup_cons.mp hnd
    have hrow := hnone x List.mem_cons_self
    have hrec : ∀ m d, ∃ t, recordDrain env acc.1 c x.bpname m d = .ok t ∧
        ∀ y, x.bpname ≠ y → t.drainblocks.scope y = acc.1.drainblocks.scope y := by
      intro m d
      unfold recordDrain
      split
      · exact ⟨_, bind_eq_ok.mpr ⟨_, emplace_eq_ok.mpr ⟨hrow, rfl⟩, rfl⟩, fun y hy => by
          rw [Scoped.scope_setScope, if_neg hy]⟩
      · exact ⟨acc.1, rfl, fun _ _ => rfl⟩
    have hstep : ∃ acc', settleProducer env c acc (x, k) = .ok acc' ∧
        ∀ y, x.bpname ≠ y → acc'.1.drainblocks.scope y = acc.1.drainblocks.scope y := by
      obtain ⟨t, ht, hscope⟩ := hrec ((acc.1.bpmonitor.find x.bpname).getD {})
        (c.drainNum k x.amount ((acc.1.bpmonitor.find x.bpname).getD {}))
      exact ⟨_, bind_eq_ok.mpr ⟨t, ht, rfl⟩, hscope⟩
    obtain ⟨t, ht, hscope⟩ := hstep
    -- the iteration writes in the scope of its bp only
    have hrest : ∀ y ∈ l, t.1.drainblocks.find y.bpname env.currentBlockNum = none := by
      intro y hy
      have hne : x.bpname ≠ y.bpname := fun e => hx (e ▸ List.mem_map_of_mem hy)
      rw [Scoped.find, hscope _ hne]
      exact hnone y (List.mem_cons_of_mem x hy)
    obtain ⟨acc', hacc'⟩ := ih (k + 1) t hnd hrest
    exact ⟨acc', by rw [List.zipIdx_cons, List.foldlM_cons, ht]; exact hacc'⟩

theorem payBlockOut_succeeds {br : BlockReward} (env : Env) (b : Name) (age : Nat)
    (hbr : IsCoin br.rewardBlockOut)
    (hroom : br.rewardBlockOut.amount + 2 ^ 32 ≤ Asset.maxAmount) :
    ∃ br', payBlockOut env br b age = .ok br' := by
  have hlt := u32_lt (u32sub env.currentBlockNum br.lastRewardBlockNum * blockOutReward)
  have hmax : Asset.maxAmount = 2 ^ 62 - 1 := rfl
  have hpos := hbr.2
  simp only [payBlockOut]
  generalize u32 (u32sub env.currentBlockNum br.lastRewardBlockNum * blockOutReward) = x at hlt ⊢
  have hmake : Asset.make (x : Int) coreSymbol = .ok ⟨x, coreSymbol⟩ :=
    Asset.make_eq_ok.mpr ⟨⟨by omega, by omega⟩, coreSymbol_isValid, rfl⟩
  have hadd : br.rewardBlockOut.add ⟨x, coreSymbol⟩ =
      .ok ⟨br.rewardBlockOut.amount + x, br.rewardBlockOut.symbol⟩ :=
    Asset.add_eq_ok.mpr ⟨hbr.1.symm, ⟨by simp only; omega, by simp only; omega⟩, rfl⟩
  exact ⟨_, bind_eq_ok.mpr ⟨_, hmake, bind_eq_ok.mpr ⟨_, hadd, rfl⟩⟩⟩

/-- A settlement that finds its row succeeds. -/
theorem rewardBlock_succeeds {ch : Bool} (hros : Rosters s)
    (hdrain : DrainsBelow p.height s) (hlater : p.height < env.currentBlockNum)
    (hrow : s.blockreward.isSome = true →
      (s.schedules.find (if ch then u32sub v 1 else v)).isSome = true)
    (hcoin : ∀ br, s.blockreward = some br → IsCoin br.rewardBlockOut ∧
      br.rewardBlockOut.amount + 2 ^ 32 ≤ Asset.maxAmount) :
    ∃ r, rewardBlock env s b v ch = .ok r := by
  unfold rewardBlock
  cases hbr : s.blockreward with
  | none => exact ⟨_, rfl⟩
  | some br =>
    obtain ⟨sch, hsch⟩ := Option.isSome_iff_exists.mp (hrow (by rw [hbr]; rfl))
    have hnone : ∀ x ∈ sch.producers,
        s.drainblocks.find x.bpname env.currentBlockNum = none := by
      intro x _
      cases hf : s.drainblocks.find x.bpname env.currentBlockNum with
      | none => rfl
      | some num => exact absurd (hdrain _ _ _ hf) (Nat.not_le.mpr hlater)
    obtain ⟨⟨t, age, fx⟩, hloop⟩ := settleLoop_succeeds env (settlement s br sch b ch)
      sch.producers 0 (s, 0, []) (hros _ sch hsch).nodup hnone
    obtain ⟨br', hpay⟩ := payBlockOut_succeeds env b age (hcoin br hbr).1 (hcoin br hbr).2
    exact ⟨_, bind_eq_ok.mpr ⟨sch, fetch_eq_ok.mpr hsch,
      bind_eq_ok.mpr ⟨_, hloop, bind_eq_ok.mpr ⟨br', hpay, rfl⟩⟩⟩⟩

theorem settleRound_succeeds (hros : Rosters s) (hdrain : DrainsBelow p.height s)
    (hstart : BlockStart p env) (hrow : FindsRow s b v)
    (hcoin : ∀ br, s.blockreward = some br → IsCoin br.rewardBlockOut ∧
      br.rewardBlockOut.amount + 2 ^ 32 ≤ Asset.maxAmount) :
    ∃ r, settleRound env s b v = .ok r := by
  rw [findsRow_iff] at hrow
  unfold settleRound
  cases hf : s.schedules.find v with
  | none =>
    refine rewardBlock_succeeds (p := p) ?_ hdrain hstart.later (fun hbr => ?_) hcoin
    · exact Table.All.put hros (rosterRow_new hstart.distinct)
    · rw [hf, Option.isSome_none] at hrow
      have hlast := (hrow.resolve_left Bool.false_ne_true).resolve_left fun h => by
        rw [show s.blockreward.isSome = true from hbr] at h
        cases h
      rw [if_pos rfl, Table.find_put]
      split
      · rfl
      · exact hlast
  | some sch =>
    by_cases hset : isRewardBlock s false (preBlockOut sch.producers b) b = true
    · simp only [hset, if_true]
      refine rewardBlock_succeeds hros hdrain hstart.later (fun _ => ?_) hcoin
      rw [if_neg Bool.false_ne_true, hf]
      rfl
    · simp only [hset]
      exact ⟨_, rfl⟩

/-- No amount is near the limit while the total is not. -/
theorem rewardRoom_of_total (hc : Coins s.ledger)
    (hroom : coreTotal s + 45000 ≤ Asset.maxAmount) : RewardRoom s := by
  have hparts := hc.parts
  have hmax : Asset.maxAmount = 2 ^ 62 - 1 := rfl
  obtain ⟨h1, h2, h3, h4, h5, h6, h7⟩ := id hparts
  unfold coreTotal Ledger.coreTotal at hroom
  refine ⟨fun k r hr => ?_, fun k bp hb => ?_, fun a ha => ?_⟩
  · have hcoin := hc.bpsreward k r hr
    have hle : r.amount ≤ s.ledger.bpsreward.sum fun _ r => r.amount :=
      Table.le_sum (fun k r hr => (hc.bpsreward k r hr).2) hr
    have hpos := hcoin.2
    exact ⟨hcoin.1, by omega, by omega⟩
  · have hcoin := (hc.bps k bp hb).1
    have hle : bp.rewardsPool.amount ≤ s.ledger.bps.sum fun _ b => b.rewardsPool.amount :=
      Table.le_sum (w := fun _ b => b.rewardsPool.amount) (fun k b hb => (hc.bps k b hb).1.2) hb
    have hpos := hcoin.2
    exact ⟨hcoin.1, by omega, by omega⟩
  · have hcoin := hc.accounts budgetAccount a ha
    have hle : a.available.amount ≤ s.ledger.accounts.sum fun _ a => a.available.amount :=
      Table.le_sum (w := fun _ a => a.available.amount) (fun k a ha => (hc.accounts k a ha).2) ha
    have hpos := hcoin.2
    exact ⟨hcoin.1, by omega, by omega⟩

/-- `reward_bps` succeeds where the global stake covers those of the bps. -/
theorem rewardBps_succeeds (env : Env) {all : Int} (hg : s.gvotestat = some all)
    (hsum : bpsStake s.bps ≤ all) (hst : s.bps.All fun _ b => 0 ≤ b.totalStaked)
    (hbudget : (s.accounts.find budgetAccount).isSome = true) (hroom : RewardRoom s) :
    ∃ s', rewardBps env s = .ok s' := by
  simp only [rewardBps, getGlobalVotestate, hg]
  split
  · exact ⟨s, rfl⟩
  · rename_i hall
    have hI : RoomLoop s all s.bps.rows (s, 0) :=
      ⟨rewardLoop_starts hsum hst, fun x hx =>
        ⟨hroom.bpsreward x.1, hroom.bps x.1 x.2 (Table.mem_rows.mp hx)⟩⟩
    obtain ⟨⟨t, sum⟩, hloop, hend, -⟩ := foldlM_ok_rest hI (roomLoop_step env (not_le.mp hall))
    obtain ⟨hacc, h0, hle, -⟩ := rewardLoop_within (not_le.mp hall) hsum hst hloop
    have heq := totalEosbudgetReward_eq h0 hle
    have hshare : shareReward = 30000 := by decide
    simp only [blockRewardVoter, blockRewardBpsVoter, blockBudgetReward] at heq
    obtain ⟨a, ha⟩ := Option.isSome_iff_exists.mp hbudget
    obtain ⟨hmake, hadd⟩ := add_ok (x := totalEosbudgetReward sum) (hroom.budget a ha) (by omega)
      (by omega)
    have hpay : ∃ s', rewardBudget t (totalEosbudgetReward sum) = .ok s' := by
      rw [rewardBudget, if_pos (by omega), hacc]
      exact ⟨_, bind_eq_ok.mpr ⟨a, fetch_eq_ok.mpr ha, bind_eq_ok.mpr ⟨_, hmake,
        bind_eq_ok.mpr ⟨_, hadd, rfl⟩⟩⟩⟩
    obtain ⟨s', hs'⟩ := hpay
    exact ⟨s', bind_eq_ok.mpr ⟨_, hloop, hs'⟩⟩

theorem electBps_succeeds (hfresh : FreshBuffer env)
    (hst : s.bps.All fun _ b => 0 ≤ b.totalStaked) : ∃ fx, electBps env s = .ok fx := by
  have hloop := electLoop_eq (s := s) hfresh s.bps.rows
    (fun x hx => hst _ _ (Table.mem_rows.mp hx)) []
  rw [top_nil, List.nil_append] at hloop
  unfold electBps
  simp only
  split
  · exact ⟨_, bind_eq_ok.mpr ⟨_, hloop, rfl⟩⟩
  · exact ⟨[], rfl⟩

/-- **Progress.** A block that finds its row succeeds. -/
theorem onblock_succeeds (hp : Reachable p) (hstart : BlockStart p env)
    (hrow : FindsRow p.state b v) (hros : Rosters p.state)
    (hdrain : DrainsBelow p.height p.state)
    (hbudget : (p.state.accounts.find budgetAccount).isSome = true)
    (hroom : coreTotal p.state + 2 ^ 32 ≤ Asset.maxAmount) :
    ∃ q, Step p (env, .onblock b v) q := by
  have hcoins := hp.coins
  have hcoin : ∀ br, p.state.blockreward = some br → IsCoin br.rewardBlockOut ∧
      br.rewardBlockOut.amount + 2 ^ 32 ≤ Asset.maxAmount := by
    intro br hbr
    refine ⟨hcoins.blockreward br hbr, ?_⟩
    obtain ⟨h1, h2, h3, h4, h5, h6, -⟩ := hcoins.parts
    have hpool : p.state.ledger.blockreward.elim 0 (fun br => br.rewardBlockOut.amount) =
        br.rewardBlockOut.amount := by
      rw [show p.state.ledger.blockreward = some br from hbr, Option.elim_some]
    unfold coreTotal Ledger.coreTotal at hroom
    omega
  obtain ⟨⟨t, ded⟩, ht⟩ := settleRound_succeeds hros hdrain hstart hrow hcoin
  obtain ⟨br, htl, -⟩ := settleRound_ledger ht
  -- the settlement leaves the accounts and the rewards as they are
  have hul := beat_ledger htl b env.currentTimeSec
  generalize hu : heartbeatImp (makeGlobalVotestate t) b env.currentTimeSec = u at hul
  have hub : u.bps = p.state.bps := congrArg Ledger.bps hul
  have hua : u.accounts = p.state.accounts := congrArg Ledger.accounts hul
  have hur : u.bpsreward = p.state.bpsreward := congrArg Ledger.bpsreward hul
  have hug : u.gvotestat = some (globalStake p.state) := congrArg Ledger.gvotestat hul
  have hpr := rewardRoom_of_total hcoins (by omega)
  have huroom : RewardRoom u := by
    refine ⟨?_, ?_, ?_⟩
    · rw [hur]
      exact hpr.bpsreward
    · rw [hub]
      exact hpr.bps
    · rw [hua]
      exact hpr.budget
  obtain ⟨w, hw⟩ := rewardBps_succeeds env hug (by rw [hub]; exact hp.stakeWithin.le_globalStake)
    (by rw [hub]; exact hp.totalStaked_nonneg) (by rw [hua]; exact hbudget) huroom
  have hsame : SameStakes u.bps w.bps := by
    have hr := (rewardBps_rewarded hw).bps
    have hmade : makeGlobalVotestate u = u := by
      rw [makeGlobalVotestate, getGlobalVotestate_eq, hug, Option.getD_some, ← hug]
    rwa [hmade] at hr
  obtain ⟨fx, hfx⟩ := electBps_succeeds hstart.fresh
    (hsame.nonneg (by rw [hub]; exact hp.totalStaked_nonneg))
  refine ⟨⟨countBlock (recordProducer w b) (p.state.schedules.find v) b v, env.currentBlockNum⟩,
    hstart.later.le, rfl, ded ++ fx, ?_⟩
  show onblock env p.state b v = _
  rw [onblock, if_neg (Nat.not_lt.mpr hstart.active)]
  exact bind_eq_ok.mpr ⟨_, ht, bind_eq_ok.mpr ⟨w, hu ▸ hw, bind_eq_ok.mpr ⟨fx, hfx, rfl⟩⟩⟩

/-! ## Runs -/

/-- The tokens are those at the start, 45000 units for each block, and the rewards of the blocks that
are settled. -/
def SupplyBounded (total : Int) (p : Point) : Prop :=
  settledTo p ≤ p.height ∧
    coreTotal p.state ≤ total + 45000 * p.height + blockOutReward * settledTo p

/-- **Step lemma.** -/
theorem SupplyBounded.step {total : Int} {a : Env × Action} (hp : Reachable p)
    (hs : SupplyBounded total p) (h : ChainStep p a q) : SupplyBounded total q := by
  obtain ⟨hto, hle⟩ := hs
  obtain ⟨hstep, hstart⟩ := h
  obtain ⟨hto', -, hreward⟩ := hstep.settles hto
  refine ⟨hto', ?_⟩
  obtain ⟨hheight, hq, fx, hx⟩ := hstep
  have hissue := exec_issues hp.coins hp.stakeWithin hp.totalStaked_nonneg hx
  have hvote : a.2.voteIssue a.1 p.state + 45000 * p.height ≤ 45000 * q.height := by
    obtain ⟨env, a⟩ := a
    by_cases hon : ∃ b v, a = .onblock b v
    · obtain ⟨b, v, rfl⟩ := hon
      have hlater := (hstart b v rfl).later
      simp only at hq hlater
      simp only [Action.voteIssue, voteIssue]
      split
      · split <;> omega
      · omega
    · have h0 : a.voteIssue env p.state = 0 := by
        cases a <;> first | rfl | exact absurd ⟨_, _, rfl⟩ hon
      simp only at hq hheight ⊢
      omega
  rw [Int.mul_sub] at hreward
  omega

/-- A block later. -/
theorem SupplyBounded.later {total : Int} {n m : Nat} (h : SupplyBounded total ⟨s, n⟩)
    (hle : n ≤ m) : SupplyBounded total ⟨s, m⟩ := by
  obtain ⟨hto, hsupply⟩ := h
  have hmono : settledTo ⟨s, n⟩ ≤ settledTo ⟨s, m⟩ ∧ settledTo ⟨s, m⟩ ≤ m := by
    unfold settledTo at hto ⊢
    cases hb : lastSettled s with
    | none => exact ⟨hle, le_refl _⟩
    | some k =>
      rw [hb] at hto
      exact ⟨le_refl _, hto.trans hle⟩
  refine ⟨hmono.2, ?_⟩
  simp only [blockOutReward] at hsupply ⊢
  omega

/-- What a chain keeps on which the blocks had these versions. -/
structure ChainInv (total : Int) (versions : List Nat) (p : Point) : Prop where
  reachable : Reachable p
  rosters : Rosters p.state
  drains : DrainsBelow p.height p.state
  budget : (p.state.accounts.find budgetAccount).isSome = true
  supply : SupplyBounded total p
  rows : RowsOf versions p.state

section ChainInvs

variable {total : Int} {l : List Nat}

/-- **Step lemma.** -/
theorem ChainInv.step {a : Env × Action} (hp : ChainInv total l p) (h : ChainStep p a q) :
    ChainInv total (l ++ (calledVersion a).toList) q where
  reachable := hp.reachable.step h.1
  rosters := hp.rosters.step h
  drains := hp.drains.step h
  budget := by
    obtain ⟨⟨-, -, fx, hx⟩, -⟩ := h
    exact exec_account hx hp.budget
  supply := hp.supply.step hp.reachable h
  rows := by
    obtain ⟨env, a⟩ := a
    obtain ⟨⟨-, -, fx, hx⟩, hstart⟩ := h
    by_cases hon : ∃ b v, a = .onblock b v
    · obtain ⟨b, v, rfl⟩ := hon
      exact hp.rows.onblock (hstart b v rfl).active hx
    · have hnone : calledVersion (env, a) = none ∧ countedBlock (env, a) = none := by
        cases a <;> first | exact ⟨rfl, rfl⟩ | exact absurd ⟨_, _, rfl⟩ hon
      obtain ⟨hsch, hbr⟩ := exec_rows hnone.2 hx
      rw [hnone.1, Option.toList_none, List.append_nil]
      exact ⟨fun w => hsch ▸ hp.rows.rows w, hbr ▸ hp.rows.reward⟩

/-- A block later. -/
theorem ChainInv.later {n : Nat} (env : Env) (hp : ChainInv total l ⟨s, n⟩)
    (hle : n ≤ env.currentBlockNum) : ChainInv total l ⟨s, env.currentBlockNum⟩ where
  reachable := hp.reachable.step (a := ({ env with activeProducers := [] }, .onblock 0 0))
    ⟨hle, rfl, [], rfl⟩
  rosters := hp.rosters
  drains := hp.drains.mono hle
  budget := hp.budget
  supply := hp.supply.later hle
  rows := hp.rows

theorem Genesis.chainInv (hg : Genesis s)
    (hbudget : (s.accounts.find budgetAccount).isSome = true) :
    ChainInv (coreTotal s) [] ⟨s, 0⟩ where
  reachable := ⟨s, [], hg, .nil⟩
  rosters := by
    unfold Rosters
    rw [hg.schedules]
    exact Table.all_empty _
  drains := by
    unfold DrainsBelow
    rw [hg.drainblocks]
    exact Scoped.all_empty _
  budget := hbudget
  supply := by
    have hto : settledTo ⟨s, 0⟩ = 0 := by
      rw [settledTo, lastSettled, hg.blockreward]
      rfl
    refine ⟨hto.le, ?_⟩
    rw [hto]
    simp
  rows := ⟨fun w => by simp [hg.schedules, Table.find_empty], by simp [hg.blockreward]⟩

/-- The versions rise one at a time, so the row of the next one is there. -/
theorem RowsOf.findsRow (h : RowsOf l s)
    (hnext : (l ++ [v]).IsChain fun v w => w = v ∨ w = v + 1) (hv : v < 2 ^ 32) :
    FindsRow s b v := by
  rw [findsRow_iff, h.rows, h.rows, ← Bool.not_eq_true, h.reward, not_not]
  have hsorted : (l ++ [v]).Pairwise (· ≤ ·) :=
    List.isChain_iff_pairwise.mp (hnext.imp fun x y hxy => by omega)
  obtain ⟨hl, -, hle⟩ := List.pairwise_append.mp hsorted
  refine (version_mem_iff hl (fun x hx => hle x hx v (by simp)) hv).mpr fun w hw => ?_
  exact (List.isChain_append.mp hnext).2.2 w hw v rfl

/-- The total stays in the range of an asset as long as the heights last. -/
theorem ChainInv.total_le (hp : ChainInv total l p) (htotal : total ≤ 2 ^ 61)
    (hheight : p.height < 2 ^ 32) : coreTotal p.state + 2 ^ 32 ≤ Asset.maxAmount := by
  obtain ⟨hto, hsupply⟩ := hp.supply
  have hmax : Asset.maxAmount = 2 ^ 62 - 1 := rfl
  simp only [blockOutReward] at hsupply
  omega

/-- A block of the next version succeeds on a chain that started with at most `2 ^ 61` units. -/
theorem ChainInv.onblock (hp : ChainInv total l p) (htotal : total ≤ 2 ^ 61)
    (hstart : BlockStart p env) (hnext : (l ++ [v]).IsChain fun v w => w = v ∨ w = v + 1)
    (hv : v < 2 ^ 32) : ∃ q, Step p (env, .onblock b v) q :=
  onblock_succeeds hp.reachable hstart (hp.rows.findsRow hnext hv) hp.rosters hp.drains hp.budget
    (hp.total_le htotal (hstart.later.trans env.currentBlockNum_lt))

end ChainInvs

theorem blockStart_block {n : Nat} (hlt : p.height < n) (hn : n < 2 ^ 32) :
    BlockStart p (Env.block n) where
  later := by
    show p.height < u32 n
    rwa [u32_of_lt hn]
  active := by
    rw [Env.block, List.length_range]
  distinct := List.nodup_range
  fresh := fun _ => rfl

end Eosforce.System
