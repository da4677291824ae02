import Eosforce.System.Election
import Eosforce.System.Supply

/-!
# Bps that are removed

`removebp` is for ever: no action takes a bp off the blacklist.

* `rewardBps_removed`, `electBps_removed`: `reward_bps` and `update_elected_bps` pass over a bp that
  is on it.
* `exec_removed`: an action leaves the bp on the blacklist, adds nothing to its vote reward and does
  not propose it.
* `removed_run`: so does every run.
-/

namespace Eosforce.System

open Fallible Keyed Runs

variable {env : Env} {s s' : State} {b : Name}

/-- The bp is on the blacklist. -/
def Removed (s : State) (b : Name) : Prop := isProducerInBlacklist s b = true

/-- The vote reward of a bp (its row of `bpsreward`) that it has not claimed yet. The shares in the
blocks that were produced are in `bpmonitor` instead. -/
def rewardOf (t : Table Name Asset) (b : Name) : Int := t.val (fun _ r => r.amount) b

/-- The rewards that the voters of a bp have not claimed yet. -/
def poolOf (t : Table Name BpInfo) (b : Name) : Int := t.val (fun _ r => r.rewardsPool.amount) b

/-! ## Blocks -/

/-- `reward_bps` leaves the rows of a removed bp alone. -/
theorem rewardBps_removed (hb : Removed s b) (h : rewardBps env s = .ok s') :
    s'.bpsreward.find b = s.bpsreward.find b ∧ s'.bps.find b = s.bps.find b := by
  have hmade : (makeGlobalVotestate s).blackpro = s.blackpro ∧
      (makeGlobalVotestate s).bpsreward = s.bpsreward ∧ (makeGlobalVotestate s).bps = s.bps := by
    unfold makeGlobalVotestate getGlobalVotestate
    split <;> exact ⟨rfl, rfl, rfl⟩
  refine (rewardBps_inv (P := fun t => Removed t b ∧ t.bpsreward.find b = s.bpsreward.find b ∧
      t.bps.find b = s.bps.find b) h ?_ (fun all acc p acc' _ _ hI hstep => ?_)
    fun t t' r hI hbudget => ?_).2
  · exact ⟨(isProducerInBlacklist_congr hmade.1 b).trans hb, by rw [hmade.2.1], by rw [hmade.2.2]⟩
  · obtain ⟨hrem, hr, hp⟩ := hI
    rcases rewardBp_spec hstep with rfl | ⟨hskip, -, -, -, rfl⟩
    · exact ⟨hrem, hr, hp⟩
    · have hne : p.1 ≠ b := by
        rintro rfl
        rw [skipReward, show isProducerInBlacklist acc.1 p.1 = true from hrem] at hskip
        simp at hskip
      exact ⟨hrem, (Table.find_put_ne _ _ hne).trans hr, (Table.find_put_ne _ _ hne).trans hp⟩
  · rcases Nat.eq_zero_or_pos r with rfl | hpos
    · cases hbudget
      exact hI
    · obtain ⟨a, -, -, rfl⟩ := rewardBudget_spec hpos hbudget
      exact hI

/-- What an election inserts is the bp that it looks at. -/
theorem insertBp_mem {vs vs' : List (ProducerKey × Int)} {bp v : ProducerKey × Int}
    (h : insertBp env vs bp = .ok vs') (hv : v ∈ vs') : v ∈ vs ∨ v = bp := by
  unfold insertBp at h
  split at h
  · cases h
    exact .inl hv
  · simp only [bind_eq_ok, pure_eq_ok] at h
    obtain ⟨_, -, rfl⟩ := h
    rcases List.mem_append.mp (List.mem_of_mem_take hv) with hv | hv
    · exact .inl (List.mem_of_mem_take hv)
    · rcases List.mem_cons.mp hv with rfl | hv
      · exact .inr rfl
      · exact .inl (List.mem_of_mem_drop hv)

/-- An election does not propose a removed bp, whatever its buffer holds. -/
theorem electBps_removed {fx : List Effect} (hb : Removed s b) (h : electBps env s = .ok fx) :
    ∀ producers ∈ proposals fx, b ∉ producers.map ProducerKey.producerName := by
  simp only [electBps, ite_eq_ok, pure_eq_ok] at h
  rcases h with ⟨-, h⟩ | ⟨-, rfl⟩
  swap
  · intro producers hp
    cases hp
  simp only [updateElectedBps, bind_eq_ok, pure_eq_ok] at h
  obtain ⟨vs, hloop, rfl⟩ := h
  have hvs : ∀ v ∈ vs, v.1.producerName ≠ b := by
    refine foldlM_inv (P := fun l => ∀ v ∈ l, v.1.producerName ≠ b) (by simp)
      (fun acc bp acc' _ hI hstep => ?_) hloop
    unfold electBp at hstep
    split at hstep
    · cases hstep
      exact hI
    · rename_i hpass
      intro v hv
      rcases insertBp_mem hstep hv with hv | rfl
      · exact hI v hv
      · rintro rfl
        rw [show isProducerInBlacklist s bp.1 = true from hb] at hpass
        simp at hpass
  intro producers hp hmem
  obtain rfl := List.mem_singleton.mp hp
  obtain ⟨k, hk, rfl⟩ := List.mem_map.mp hmem
  obtain ⟨v, hv, rfl⟩ := List.mem_map.mp hk
  exact hvs v ((List.mem_insertionSort _).mp hv) rfl

/-- A block leaves the rows of a removed bp alone and does not propose it. -/
theorem onblock_removed {k : Name} {version : Nat} {fx : List Effect} (hb : Removed s b)
    (h : onblock env s k version = .ok (s', fx)) :
    s'.bpsreward.find b = s.bpsreward.find b ∧ s'.bps.find b = s.bps.find b ∧
      ∀ producers ∈ proposals fx, b ∉ producers.map ProducerKey.producerName := by
  by_cases hact : env.activeProducers.length < numOfTopBps
  · obtain ⟨rfl, rfl⟩ := onblock_idle hact h
    exact ⟨rfl, rfl, fun producers hp => by cases hp⟩
  obtain ⟨t, ded, u, elected, ht, hu, hel, rfl, rfl⟩ := onblock_parts (Nat.not_lt.mp hact) h
  obtain ⟨br, htl, -⟩ := settleRound_ledger ht
  let g := heartbeatImp (makeGlobalVotestate t) k env.currentTimeSec
  have hgl : g.ledger = (makeGlobalVotestate t).ledger := rfl
  rw [makeGlobalVotestate_ledger, htl] at hgl
  have hdg : g.discipline = t.discipline := makeGlobalVotestate_discipline t
  have hblack : g.blackpro = s.blackpro :=
    (congrArg Discipline.blackpro hdg).trans (settleRound_discipline ht).blackpro
  have hg : Removed g b := (isProducerInBlacklist_congr hblack b).trans hb
  obtain ⟨hr, hp⟩ := rewardBps_removed hg hu
  have hu' : Removed u b := (isProducerInBlacklist_congr
    (congrArg Discipline.blackpro (rewardBps_discipline hu)) b).trans hg
  have hl := countBlock_ledger (recordProducer u k) (s.schedules.find version) k version
  refine ⟨?_, ?_, ?_⟩
  · rw [show (countBlock (recordProducer u k) (s.schedules.find version) k version).bpsreward =
      u.bpsreward from congrArg Ledger.bpsreward hl, hr,
      show g.bpsreward = s.bpsreward from congrArg Ledger.bpsreward hgl]
  · rw [show (countBlock (recordProducer u k) (s.schedules.find version) k version).bps =
      u.bps from congrArg Ledger.bps hl, hp, show g.bps = s.bps from congrArg Ledger.bps hgl]
  · rw [proposals_append, settleRound_proposals ht, List.nil_append]
    exact electBps_removed hu' hel

/-! ## Actions -/

/-- No action takes a bp off the blacklist. -/
theorem exec_keeps_removed {a : Action} {fx : List Effect} (hb : Removed s b)
    (h : exec env s a = .ok (s', fx)) : Removed s' b := by
  have hd := exec_discipline h
  have keep : ∀ {d : Discipline}, d.blackpro = s.blackpro → s'.discipline = d → Removed s' b :=
    fun hk he => (isProducerInBlacklist_congr ((congrArg Discipline.blackpro he).trans hk) b).trans hb
  generalize he : s'.discipline = d at hd
  cases hd with
  | onblock hk => exact keep hk.blackpro he
  | @removebp k =>
    have hblack : s'.blackpro = s.blackpro.put k false := congrArg Discipline.blackpro he
    unfold Removed isProducerInBlacklist at hb ⊢
    rw [hblack, Table.find_put]
    by_cases hk : k = b
    · rw [if_pos hk]
      rfl
    · rw [if_neg hk]
      exact hb
  | _ => exact keep rfl he

theorem rewardOf_zero {t : Table Name Asset} {k : Name} {r : Asset} (hr : t.find k = some r)
    (h0 : 0 ≤ r.amount) (b : Name) : rewardOf (t.put k Asset.zero) b ≤ rewardOf t b := by
  unfold rewardOf
  by_cases hk : k = b
  · subst hk
    rw [Table.val_of_find hr, Table.val_of_find (Table.find_put_self _ _ _)]
    exact h0
  · rw [Table.val, Table.find_put_ne _ _ hk]
    exact le_refl _

/-- A row with no more in its pool than the old one, or than the new row of a bp. -/
theorem poolOf_put {t : Table Name BpInfo} {k : Name} {bp : BpInfo}
    (h : bp.rewardsPool.amount ≤ ((t.find k).getD {}).rewardsPool.amount) (b : Name) :
    poolOf (t.put k bp) b ≤ poolOf t b := by
  unfold poolOf
  by_cases hk : k = b
  · subst hk
    rw [Table.val_of_find (Table.find_put_self _ _ _), Table.val_eq_getD (d := {}) rfl]
    exact h
  · rw [Table.val, Table.find_put_ne _ _ hk]
    exact le_refl _

/-- Two rows, none with more in its pool than before. -/
theorem poolOf_put_two {t : Table Name BpInfo} {j k : Name} {bp bp' x y : BpInfo} (hne : j ≠ k)
    (hj : t.find j = some bp) (hk : t.find k = some bp')
    (hx : x.rewardsPool = bp.rewardsPool) (hy : y.rewardsPool = bp'.rewardsPool) (b : Name) :
    poolOf ((t.put j x).put k y) b ≤ poolOf t b := by
  refine (poolOf_put ?_ b).trans (poolOf_put ?_ b)
  · rw [Table.find_put_ne _ _ hne, hk, hy]
    exact le_refl _
  · rw [hj, hx]
    exact le_refl _

/-- The unclaimed vote rewards of a bp and of its voters do not grow. -/
def Unpaid (b : Name) (l l' : Ledger) : Prop :=
  rewardOf l'.bpsreward b ≤ rewardOf l.bpsreward b ∧ poolOf l'.bps b ≤ poolOf l.bps b

/-- Only blocks add to the unclaimed vote rewards. -/
theorem Change.unpaid {a : Action} {l : Ledger} (hch : Change env s a l) (hc : Coins s.ledger)
    (b : Name) (hother : a.moves = false → Unpaid b s.ledger l) :
    Unpaid b s.ledger l := by
  have le_of_find : ∀ {k : Name} {bp bp' : BpInfo}, s.bps.find k = some bp →
      bp'.rewardsPool = bp.rewardsPool →
      bp'.rewardsPool.amount ≤ ((s.bps.find k).getD {}).rewardsPool.amount := by
    intro k bp bp' hf he
    rw [hf, he]
    exact le_refl _
  cases hch with
  | transfer => exact ⟨le_refl _, le_refl _⟩
  | updatebp hb => exact ⟨le_refl _, poolOf_put (by rw [hb]) b⟩
  | @cast typ voter bpname stake act bp change r hact hbp =>
    have h : Unpaid b s.ledger { s.ledger with
        bps := s.bps.put bpname (bp.stakeBy env.currentBlockNum change) } := by
      refine ⟨le_refl _, poolOf_put (le_of_find hbp ?_) b⟩
      unfold BpInfo.stakeBy
      split <;> rfl
    cases typ <;> exact h
  | revote hne _ _ _ hbpf hbpt =>
    refine ⟨le_refl _, poolOf_put_two hne hbpf hbpt ?_ ?_ b⟩ <;> rfl
  | @unfreeze typ => cases typ <;> exact ⟨le_refl _, le_refl _⟩
  | votefix _ hbp =>
    refine ⟨le_refl _, poolOf_put (le_of_find hbp ?_) b⟩
    rfl
  | revotefix _ hne _ _ _ hbpf hbpt =>
    refine ⟨le_refl _, poolOf_put_two hne hbpf hbpt ?_ ?_ b⟩ <;> rfl
  | outfixvote _ hbp =>
    refine ⟨le_refl _, poolOf_put (le_of_find hbp ?_) b⟩
    rfl
  | claim _ hbp _ _ _ h0 =>
    refine ⟨le_refl _, poolOf_put ?_ b⟩
    rw [hbp]
    exact Int.sub_le_self _ h0
  | bpclaim _ _ hy =>
    rcases hy with ⟨-, -, rfl⟩ | ⟨r, hr, -, rfl⟩
    · exact ⟨le_refl _, le_refl _⟩
    · exact ⟨rewardOf_zero hr (hc.bpsreward _ _ hr).2 b, le_refl _⟩
  | other hm => exact hother hm

/-- An action other than a block adds nothing to the unclaimed vote rewards. -/
theorem exec_unpaid {a : Action} {fx : List Effect} (hc : Coins s.ledger)
    (hon : ∀ k v, a ≠ .onblock k v) (h : exec env s a = .ok (s', fx)) (b : Name) :
    Unpaid b s.ledger s'.ledger := by
  refine (exec_change h).unpaid hc b fun hm => ?_
  by_cases hstill : a.still = true
  · rw [exec_still hstill h]
    exact ⟨le_refl _, le_refl _⟩
  cases a with
  | onblock k v => exact absurd rfl (hon k v)
  | setemergency k e =>
    simp only [exec, silent_eq_ok, setemergency, bind_eq_ok, fetch_eq_ok, pure_eq_ok] at h
    obtain ⟨⟨_, -, bp, hbp, _, -, n, -, rfl⟩, -⟩ := h
    refine ⟨le_refl _, poolOf_put ?_ b⟩
    rw [hbp]
    exact le_refl _
  | _ => first | exact absurd rfl hstill | cases hm

/-- **Step lemma.** An action leaves a removed bp on the blacklist, adds nothing to its unclaimed
vote reward and that of its voters, and does not propose it. -/
theorem exec_removed {a : Action} {fx : List Effect} (hc : Coins s.ledger) (hb : Removed s b)
    (h : exec env s a = .ok (s', fx)) :
    Removed s' b ∧ Unpaid b s.ledger s'.ledger ∧
      ∀ producers ∈ proposals fx, b ∉ producers.map ProducerKey.producerName := by
  refine ⟨exec_keeps_removed hb h, ?_⟩
  by_cases hon : ∃ k v, a = .onblock k v
  · obtain ⟨k, v, rfl⟩ := hon
    obtain ⟨hr, hp, hprop⟩ := onblock_removed hb h
    refine ⟨?_, hprop⟩
    unfold Unpaid rewardOf poolOf Table.val
    rw [show s'.ledger.bpsreward.find b = s.ledger.bpsreward.find b from hr,
      show s'.ledger.bps.find b = s.ledger.bps.find b from hp]
    exact ⟨le_refl _, le_refl _⟩
  · have hne : ∀ k v, a ≠ .onblock k v := fun k v e => hon ⟨k, v, e⟩
    refine ⟨exec_unpaid hc hne h b, fun producers hp => ?_⟩
    rw [exec_no_proposals h hne] at hp
    cases hp

/-! ## Runs -/

/-- **Removal is final.** In a run from a reachable state where a bp is removed, it stays removed, its
unclaimed vote reward and that of its voters never grow, and no election proposes it. -/
theorem removed_run {p q : Point} {tr : List (Point × (Env × Action) × Point)} (hp : Reachable p)
    (hb : Removed p.state b) (h : Run Step p tr q) :
    Removed q.state b ∧ Unpaid b p.state.ledger q.state.ledger ∧
      ∀ e ∈ tr, ∀ fx, exec e.2.1.1 e.1.state e.2.1.2 = .ok (e.2.2.state, fx) →
        ∀ producers ∈ proposals fx, b ∉ producers.map ProducerKey.producerName := by
  let I : Point → Prop := fun t => Reachable t ∧ Removed t.state b ∧
    Unpaid b p.state.ledger t.state.ledger
  have hstep : ∀ t a u, I t → Step t a u → I u := by
    rintro t a u ⟨hr, hrem, hun⟩ hs
    obtain ⟨-, -, fx, hx⟩ := id hs
    obtain ⟨hrem', hun', -⟩ := exec_removed hr.coins hrem hx
    exact ⟨hr.step hs, hrem', hun'.1.trans hun.1, hun'.2.trans hun.2⟩
  obtain ⟨⟨-, hrem, hun⟩, hall⟩ := h.inv (I := I) ⟨hp, hb, le_refl _, le_refl _⟩ hstep
  refine ⟨hrem, hun, fun e he fx hx => ?_⟩
  obtain ⟨⟨hr, hrem', -⟩, -⟩ := hall e he
  exact (exec_removed hr.coins hrem' hx).2.2

/-- Account 1 has 50 tokens, the budget account has none, and there are two bps. -/
def rivals : State :=
  { accounts := ((∅ : Table Name AccountInfo).put 1 ⟨⟨500000, coreSymbol⟩⟩).put budgetAccount {}
    bps := ((∅ : Table Name BpInfo).put 7 { commissionRate := 5000 }).put 8
      { commissionRate := 5000 } }

theorem rivals_genesis : Genesis rivals :=
  .of_rows (((Table.all_empty _).put ⟨rfl, by decide⟩).put ⟨rfl, by decide⟩)
    (((Table.all_empty _).put ⟨rfl, rfl, rfl, rfl⟩).put ⟨rfl, rfl, rfl, rfl⟩)

/-- Account 1 votes for the first bp. -/
def rivalVoted : Point := (Point.mk rivals 0).next (Env.of 1 10) (.vote 1 7 ⟨20000, coreSymbol⟩)

/-- It votes for the second one as well. -/
def rivalsVoted : Point := rivalVoted.next (Env.of 1 10) (.vote 1 8 ⟨20000, coreSymbol⟩)

/-- A block rewards both bps. -/
def rivalsPaid : Point := rivalsVoted.next (Env.block 11) (.onblock 0 1)

/-- The second one is removed. -/
def rivalRemoved : Point := rivalsPaid.next (Env.of systemAccount 12) (.removebp 8)

/-- A block with an election. -/
def rivalPassed : Point := rivalRemoved.next (Env.block 115) (.onblock 0 1)

/-- The voter takes what the pool of the second bp holds. -/
def rivalClaimed : Point := rivalPassed.next (Env.of 1 116) (.claim 1 8)

/-- The run from the removal on. -/
def rivalTrace : List (Point × (Env × Action) × Point) :=
  [(rivalRemoved, (Env.block 115, .onblock 0 1), rivalPassed),
    (rivalPassed, (Env.of 1 116, .claim 1 8), rivalClaimed)]

theorem rivals_eval :
    (exec (Env.of 1 10) rivals (.vote 1 7 ⟨20000, coreSymbol⟩)).isOk = true ∧
    (exec (Env.of 1 10) rivalVoted.state (.vote 1 8 ⟨20000, coreSymbol⟩)).isOk = true ∧
    (exec (Env.block 11) rivalsVoted.state (.onblock 0 1)).isOk = true ∧
    (exec (Env.of systemAccount 12) rivalsPaid.state (.removebp 8)).isOk = true ∧
    (exec (Env.block 115) rivalRemoved.state (.onblock 0 1)).isOk = true ∧
    (exec (Env.of 1 116) rivalPassed.state (.claim 1 8)).isOk = true ∧
    isProducerInBlacklist rivalRemoved.state 8 = true ∧
    0 < rewardOf rivalRemoved.state.bpsreward 8 ∧
    rewardOf rivalRemoved.state.bpsreward 7 < rewardOf rivalClaimed.state.bpsreward 7 := by
  decide +kernel

theorem rivalRemoved_reachable : Reachable rivalRemoved := by
  obtain ⟨hvote, hvote', hpaid, hremoved, -⟩ := rivals_eval
  exact ⟨rivals, _, rivals_genesis, (((Run.nil.snoc
    (Point.next_step _ _ _ (by decide) hvote)).snoc
    (Point.next_step _ _ _ (le_refl _) hvote')).snoc
    (Point.next_step _ _ _ (by decide) hpaid)).snoc
    (Point.next_step _ _ _ (by decide) hremoved)⟩

/-- The removed bp has a reward, the other one gets more, and the election passes over the removed
one. -/
theorem removed_run_passed :
    0 < rewardOf rivalRemoved.state.bpsreward 8 ∧
    rewardOf rivalRemoved.state.bpsreward 7 < rewardOf rivalClaimed.state.bpsreward 7 ∧
    Removed rivalClaimed.state 8 ∧ Unpaid 8 rivalRemoved.state.ledger rivalClaimed.state.ledger ∧
      ∀ e ∈ rivalTrace, ∀ fx, exec e.2.1.1 e.1.state e.2.1.2 = .ok (e.2.2.state, fx) →
        ∀ producers ∈ proposals fx, 8 ∉ producers.map ProducerKey.producerName := by
  obtain ⟨-, -, -, -, hpassed, hclaimed, hremoved, hpos, hgain⟩ := rivals_eval
  have hrun : Run Step rivalRemoved rivalTrace rivalClaimed :=
    (Run.nil.snoc (Point.next_step _ _ _ (by decide) hpassed)).snoc
      (Point.next_step _ _ _ (by decide) hclaimed)
  exact ⟨hpos, hgain, removed_run rivalRemoved_reachable hremoved hrun⟩

end Eosforce.System
