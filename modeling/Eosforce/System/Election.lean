import Eosforce.System.Discipline
import Eosforce.System.Stake
import Eosforce.System.TopBps

/-!
# Elections

Each `UPDATE_CYCLE` blocks, `update_elected_bps` proposes the producers of the next schedule to the
chain, and `onblock` does nothing with fewer than 23 of them.

* `onblock_proposals`: a block of an election proposes a producer for each eligible bp, up to 23.
  Nothing checks that there are so many.
* `Election`, `ElectionStep`: the contract with the producers that the chain has active, and the
  proposals; any of these may become active.
* `elected_run_iff`: in a run, all proposals and all active producers are 23 exactly when each
  election has so many bps to choose from.
-/

namespace Eosforce.System

open Fallible Keyed Runs

variable {env : Env} {s s' : State}

/-! ## Blocks -/

theorem isEligible_congr {t : State} (hb : t.blackpro = s.blackpro)
    (hk : StatusKept s.bpmonitor t.bpmonitor) (b : Name) : isEligible t b = isEligible s b := by
  unfold isEligible
  rw [isProducerInBlacklist_congr hb, isProducerInPunished_eq, isProducerInPunished_eq]
  rcases hk b with e | ⟨e, e'⟩
  · rw [e]
  · rw [e, e']
    rfl

/-- The block is one of an election. -/
def electionDue (env : Env) : Prop :=
  env.currentBlockNum % updateCycle = 0 ∧
    (env.numConfigOnChain updateBp < 0 ∨
      env.numConfigOnChain updateBp ≤ (env.currentBlockNum : Int))

theorem settleRound_proposals {b : Name} {v : Nat} {fx : List Effect}
    (h : settleRound env s b v = .ok (s', fx)) : proposals fx = [] := by
  have hreward : ∀ {t : State} {ch : Bool}, rewardBlock env t b v ch = .ok (s', fx) →
      proposals fx = [] := by
    intro t ch h
    unfold rewardBlock at h
    split at h
    · cases h; rfl
    · simp only [bind_eq_ok, fetch_eq_ok, pure_eq_ok, Prod.exists, Prod.mk.injEq] at h
      obtain ⟨sch, -, u, age, fx', hloop, br', -, -, rfl⟩ := h
      refine foldlM_inv (P := fun acc : State × Nat × List Effect => proposals acc.2.2 = []) rfl
        (fun acc p acc' _ hI hstep => ?_) hloop
      simp only [settleProducer, bind_eq_ok, pure_eq_ok] at hstep
      obtain ⟨_, -, rfl⟩ := hstep
      simp only [proposals_append, hI, List.nil_append, drainPunish]
      split <;> rfl
  unfold settleRound at h
  split at h
  · exact hreward h
  · split at h
    · exact hreward h
    · cases h; rfl

theorem makeGlobalVotestate_bps (s : State) : (makeGlobalVotestate s).bps = s.bps :=
  congrArg Ledger.bps (makeGlobalVotestate_ledger s)

/-- `reward_bps` replaces rows of registered bps only. -/
theorem rewardBps_keys (h : rewardBps env s = .ok s') : s'.bps.keys = s.bps.keys := by
  refine rewardBps_inv (P := fun t => t.bps.keys = s.bps.keys) h
    (by rw [makeGlobalVotestate_bps]) (fun all acc p acc' _ hp hI hstep => ?_)
    fun t t' r hI hb => ?_
  · rw [makeGlobalVotestate_bps] at hp
    rcases rewardBp_spec hstep with rfl | ⟨-, -, -, -, rfl⟩
    · exact hI
    · have hk : p.1 ∈ acc.1.bps.keys := hI ▸ List.mem_map_of_mem hp
      obtain ⟨⟨k, r⟩, hr, hk⟩ := List.mem_map.mp hk
      rw [show k = p.1 from hk] at hr
      exact (Table.keys_put_of_find _ (Table.mem_rows.mp hr)).trans hI
  · rcases Nat.eq_zero_or_pos r with rfl | hpos
    · cases hb
      exact hI
    · obtain ⟨a, -, -, rfl⟩ := rewardBudget_spec hpos hb
      exact hI

theorem SameStakes.nonneg {t t' : Table Name BpInfo} (h : SameStakes t t')
    (ht : t.All fun _ b => 0 ≤ b.totalStaked) : t'.All fun _ b => 0 ≤ b.totalStaked := by
  intro k b hb
  have hk := (h k).1
  rw [hb] at hk
  refine le_of_le_of_eq ?_ hk.symm
  cases hf : t.find k with
  | none => exact le_refl _
  | some r => exact ht k r hf

/-- A block proposes producers only if an election is due, and then as many as are eligible, up to
23. -/
theorem onblock_proposals {b : Name} {v : Nat} {fx : List Effect} (hbuf : FreshBuffer env)
    (hact : numOfTopBps ≤ env.activeProducers.length)
    (hst : s.bps.All fun _ b => 0 ≤ b.totalStaked) (h : onblock env s b v = .ok (s', fx)) :
    (¬electionDue env ∧ proposals fx = []) ∨
      electionDue env ∧ ∃ producers, proposals fx = [producers] ∧
        producers.length = min numOfTopBps (eligibleBps s) := by
  obtain ⟨t, ded, u, elected, ht, hu, hel, -, rfl⟩ := onblock_parts hact h
  rw [proposals_append, settleRound_proposals ht, List.nil_append]
  simp only [electBps, ite_eq_ok, pure_eq_ok] at hel
  rcases hel with ⟨hdue, hel⟩ | ⟨hdue, rfl⟩
  swap
  · exact .inl ⟨hdue, rfl⟩
  obtain ⟨br, htl, -⟩ := settleRound_ledger ht
  have hg := makeGlobalVotestate_idem htl b env.currentTimeSec
  have hbps : (heartbeatImp (makeGlobalVotestate t) b env.currentTimeSec).bps = s.bps :=
    congrArg Ledger.bps (beat_ledger htl b env.currentTimeSec)
  have hkeys : u.bps.keys = s.bps.keys := by rw [rewardBps_keys hu, hbps]
  have hsame : SameStakes s.bps u.bps := by
    have hr := (rewardBps_rewarded hu).bps
    rwa [show (makeGlobalVotestate (heartbeatImp _ b env.currentTimeSec)).bps = s.bps from
      congrArg Ledger.bps hg] at hr
  have hd : u.discipline = t.discipline :=
    (rewardBps_discipline hu).trans (makeGlobalVotestate_discipline t)
  have hk := settleRound_discipline ht
  rw [← hd] at hk
  obtain ⟨producers, hp, hl⟩ := updateElectedBps_length hbuf (hsame.nonneg hst) hel
  refine .inr ⟨hdue, producers, hp, ?_⟩
  rw [hl, eligibleBps, eligibleBps, hkeys, funext fun b => isEligible_congr hk.blackpro hk.status b]

/-! ## The chain's producers -/

theorem Reachable.totalStaked_nonneg {p : Point} (h : Reachable p) :
    p.state.bps.All fun _ b => 0 ≤ b.totalStaked := by
  intro k b hb
  have hc := h.coins
  rw [← stakeAt_of_find hb, h.stakes k]
  have hv : ∀ t : Scoped Name Name VoteInfo, (t.All fun _ _ v => VoteOk v) →
      0 ≤ votesFor t k voteStake := fun t ht => Scoped.sum_nonneg fun voter b' v hf => by
    split
    · exact whole_nonneg (ht voter b' v hf).staked.2
    · exact le_refl _
  have hf : 0 ≤ fixVotesFor p.state.fixvotes k fixVoteStake :=
    Scoped.sum_nonneg fun voter key v hf => by
      simp only [fixVoteStake]
      split
      · split
        · exact le_refl _
        · exact whole_nonneg (hc.fixvotes voter key v hf).staked.2
      · exact le_refl _
  exact Int.add_nonneg (Int.add_nonneg (hv _ hc.votes) (hv _ hc.votes4ram)) hf

/-- The contract, the producers that the chain has active, and the proposals made to it. -/
structure Election where
  point : Point
  active : List Name
  proposed : List (List Name)

/-- An action, or the activation of a proposal by the chain. -/
inductive ElectionEvent where
  | acted (env : Env) (a : Action)
  | activated (names : List Name)

/-- An action finds the chain's active producers and a fresh buffer. -/
inductive ElectionStep (p : Election) : ElectionEvent → Election → Prop
  | acted {env : Env} {a : Action} {s : State} {fx : List Effect}
    (hact : env.activeProducers = p.active) (hbuf : FreshBuffer env)
    (hheight : p.point.height ≤ env.currentBlockNum)
    (h : exec env p.point.state a = .ok (s, fx)) :
    ElectionStep p (.acted env a)
      ⟨⟨s, env.currentBlockNum⟩, p.active,
        (proposals fx).map (fun l => l.map ProducerKey.producerName) ++ p.proposed⟩
  | activated {names : List Name} (h : names ∈ p.proposed) :
    ElectionStep p (.activated names) { p with active := names }

/-- The chain starts with at least 23 active producers. -/
structure Election.Start (p : Election) : Prop where
  genesis : Genesis p.point.state
  height : p.point.height = 0
  active : numOfTopBps ≤ p.active.length
  proposed : p.proposed = []

/-- Each proposal has 23 producers, and the active ones are enough for `onblock`. -/
def FullBoard (p : Election) : Prop :=
  numOfTopBps ≤ p.active.length ∧ ∀ names ∈ p.proposed, names.length = numOfTopBps

/-- A block of an election finds at least 23 registered bps that are neither blacklisted nor
punished. -/
def EnoughBps (p : Election) : ElectionEvent → Prop
  | .acted env (.onblock _ _) => electionDue env → numOfTopBps ≤ eligibleBps p.point.state
  | _ => True

theorem exec_no_proposals {a : Action} {fx : List Effect} (h : exec env s a = .ok (s', fx))
    (ha : ∀ b v, a ≠ .onblock b v) : proposals fx = [] := by
  cases a <;> simp only [exec, silent_eq_ok] at h
  case onblock b v => exact absurd rfl (ha b v)
  case transfer =>
    simp only [transfer, bind_eq_ok, pure_eq_ok, Prod.mk.injEq] at h
    obtain ⟨_, -, _, -, _, -, _, -, _, -, _, -, _, -, _, -, -, rfl⟩ := h
    rfl
  case vote4ram =>
    simp only [vote4ram, bind_eq_ok, pure_eq_ok, Prod.mk.injEq, Prod.exists] at h
    obtain ⟨_, _, -, _, -, -, rfl⟩ := h
    rfl
  case approvebp =>
    simp only [approvebp, bind_eq_ok] at h
    obtain ⟨_, -, _, -, _, -, _, -, _, -, _, -, h⟩ := h
    split at h
    · cases h; rfl
    · simp only [execPunishBp, bind_eq_ok] at h
      obtain ⟨_, -, _, -, _, -, h⟩ := h
      split at h
      · cases h; rfl
      · simp only [bind_eq_ok, pure_eq_ok, Prod.mk.injEq] at h
        obtain ⟨_, -, _, -, fx', hp, -, rfl⟩ := h
        unfold punishReward at hp
        split at hp
        · cases hp; rfl
        · simp only [bind_eq_ok, ite_eq_ok, pure_eq_ok] at hp
          obtain ⟨_, -, ⟨-, rfl⟩ | ⟨-, _, -, _, -, rfl⟩⟩ := hp
          · rfl
          · split <;> rfl
  all_goals (obtain ⟨-, rfl⟩ := h; rfl)

/-- **Step lemma.** From a full board, an event leads to another exactly when each election finds
enough bps. -/
theorem ElectionStep.fullBoard_iff {p q : Election} {e : ElectionEvent} (hr : Reachable p.point)
    (hp : FullBoard p) (h : ElectionStep p e q) : FullBoard q ↔ EnoughBps p e := by
  cases h with
  | activated hmem =>
    refine iff_of_true ⟨?_, hp.2⟩ trivial
    exact le_of_eq (hp.2 _ hmem).symm
  | @acted env a s fx hact hbuf hheight h =>
    have hnone : proposals fx = [] → FullBoard
        ⟨⟨s, env.currentBlockNum⟩, p.active,
          (proposals fx).map (fun l => l.map ProducerKey.producerName) ++ p.proposed⟩ :=
      fun hn => by rw [hn]; exact hp
    by_cases hon : ∃ b v, a = .onblock b v
    swap
    · have hn := hnone (exec_no_proposals h fun b v e => hon ⟨b, v, e⟩)
      apply iff_of_true hn
      unfold EnoughBps
      split
      · rename_i b v heq
        cases heq
        exact absurd ⟨_, _, rfl⟩ hon
      · trivial
    obtain ⟨b, v, rfl⟩ := hon
    have hblock := onblock_proposals hbuf (hact ▸ hp.1) hr.totalStaked_nonneg h
    rcases hblock with ⟨hdue, hn⟩ | ⟨hdue, producers, hone, hl⟩
    · exact iff_of_true (hnone hn) fun hd => absurd hd hdue
    · constructor
      · intro hq _
        have hlen := hq.2 (producers.map ProducerKey.producerName) (by simp [hone])
        rw [List.length_map, hl] at hlen
        omega
      · intro hen
        refine ⟨hp.1, fun names hmem => ?_⟩
        rw [hone, List.map_singleton, List.singleton_append, List.mem_cons] at hmem
        rcases hmem with rfl | hmem
        · have := hen hdue
          rw [List.length_map, hl]
          omega
        · exact hp.2 names hmem

theorem ElectionStep.reachable {p q : Election} {e : ElectionEvent} (hr : Reachable p.point)
    (h : ElectionStep p e q) : Reachable q.point := by
  cases h with
  | activated => exact hr
  | acted hact hbuf hheight h => exact hr.step (a := (_, _)) ⟨hheight, rfl, _, h⟩

/-- In a run that starts with 23 active producers, all proposals have 23 producers and `onblock` never
finds fewer active ones, exactly when each election finds at least 23 registered bps that are neither
blacklisted nor punished. -/
theorem elected_run_iff {p q : Election} {tr : List (Election × ElectionEvent × Election)}
    (hp : p.Start) (h : Run ElectionStep p tr q) :
    (∀ e ∈ tr, FullBoard e.2.2) ↔ ∀ e ∈ tr, EnoughBps e.1 e.2.1 := by
  have hr : Reachable p.point :=
    ⟨p.point.state, [], hp.genesis, by
      rw [show p.point = ⟨p.point.state, 0⟩ from congrArg (Point.mk p.point.state) hp.height]
      exact .nil⟩
  have hfull : FullBoard p := ⟨hp.active, by simp [hp.proposed]⟩
  have hreach := (h.inv hr fun _ _ _ ht hs => hs.reachable ht).2
  refine (h.restrict fun e he => (hreach e he).1).always_iff hfull fun t a u ht hs => ?_
  exact hs.1.fullBoard_iff hs.2 ht

/-! ### Boards of 23 and of 22 -/

/-- 23 registered bps without votes. -/
def board : State :=
  { bps := (List.range numOfTopBps).foldl (fun t k => t.put k {}) ∅ }

/-- The chain starts with these bps as its active producers. -/
def boardStart : Election := ⟨⟨board, 0⟩, List.range numOfTopBps, []⟩

theorem board_genesis : Genesis board := by
  have hall : board.bps.All fun _ b => b = {} :=
    List.foldlRecOn (motive := fun t : Table Name BpInfo => t.All fun _ b => b = {}) _ _
      (Table.all_empty _) fun _ ht _ _ => ht.put rfl
  refine .of_rows (Table.all_empty _) fun k b hb => ?_
  obtain rfl := hall k b hb
  exact ⟨rfl, rfl, rfl, rfl⟩

theorem boardStart_start : boardStart.Start :=
  ⟨board_genesis, rfl, le_of_eq List.length_range.symm, rfl⟩

/-- With all bps eligible, the first election proposes a full board. -/
theorem elected_run_iff_board : ∃ fx,
    exec (Env.block 115) board (.onblock 0 1) =
      .ok (execTo (Env.block 115) board (.onblock 0 1), fx) ∧
    FullBoard ⟨⟨execTo (Env.block 115) board (.onblock 0 1), u32 115⟩, List.range numOfTopBps,
      (proposals fx).map (fun l => l.map ProducerKey.producerName) ++ []⟩ := by
  obtain ⟨fx, h⟩ := exec_execTo
    (show (exec (Env.block 115) board (.onblock 0 1)).isOk = true by decide +kernel)
  have hrun := Run.snoc (Run.nil (s := boardStart))
    (ElectionStep.acted (p := boardStart) rfl (fun _ => rfl) (Nat.zero_le _) h)
  refine ⟨fx, h, (elected_run_iff boardStart_start hrun).mpr (fun e he => ?_) _
    (List.mem_singleton.mpr rfl)⟩
  obtain rfl := List.mem_singleton.mp he
  exact fun _ => show numOfTopBps ≤ eligibleBps board by decide +kernel

/-- After `removebp` of one of the 23 bps, the election proposes 22. -/
theorem removed_bp_shrinks_board : ¬∀ (p q : Election)
    (tr : List (Election × ElectionEvent × Election)),
    p.Start → Run ElectionStep p tr q → ∀ e ∈ tr, FullBoard e.2.2 := by
  intro h
  let env : Env := { Env.of systemAccount 1 with activeProducers := List.range numOfTopBps }
  let s := execTo env board (.removebp 22)
  obtain ⟨fx₁, h₁⟩ := exec_execTo (show (exec env board (.removebp 22)).isOk = true by decide)
  obtain ⟨fx, h₂⟩ := exec_execTo
    (show (exec (Env.block 115) s (.onblock 0 1)).isOk = true by decide +kernel)
  have hrun := Run.snoc (Run.snoc (Run.nil (s := boardStart))
    (ElectionStep.acted (p := boardStart) rfl (fun _ => rfl) (Nat.zero_le _) h₁))
    (ElectionStep.acted rfl (fun _ => rfl)
      (show env.currentBlockNum ≤ (Env.block 115).currentBlockNum by decide) h₂)
  have hboard := h _ _ _ boardStart_start hrun _ (List.mem_append_right _ (List.mem_singleton.mpr rfl))
  have hlen : (exec (Env.block 115) s (.onblock 0 1)).map (fun r =>
      (proposals r.2).map List.length) = .ok [22] := by decide +kernel
  rw [h₂] at hlen
  have hlen' : (proposals fx).map List.length = [22] := Except.ok.inj hlen
  obtain ⟨l, hl⟩ : ∃ l, proposals fx = [l] :=
    List.length_eq_one_iff.mp (by simpa using congrArg List.length hlen')
  rw [hl] at hlen'
  have := hboard.2 (l.map ProducerKey.producerName) (by simp [hl])
  rw [List.length_map, List.singleton_inj.mp hlen'] at this
  exact absurd this (by decide)

end Eosforce.System
