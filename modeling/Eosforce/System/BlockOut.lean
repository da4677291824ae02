import Eosforce.System.AgeBound
import Eosforce.System.Supply

/-!
# The account of the block-out rewards

A settlement adds `BLOCK_OUT_REWARD` to `reward_block_out` for each block since the last one, by a
product of two `uint32_t`s.

* `GapFits`: the product is one.
* `poolBalance_step`: then the pool changes by the reward of the blocks and by what `bpclaim` pays.
* `block_out_accounted`: the pool with all that was paid from it is the reward of all blocks since the
  row was made, and on a chain the total of the block ages is their sum.
-/

namespace Eosforce.System

open Fallible Keyed Runs

variable {env : Env} {s s' : State} {b : Name} {v : Nat}

/-- If the step settles a round, the reward of the blocks since the last settlement is a `uint32_t`. -/
def GapFits (p : Point) (a : Env × Action) : Prop :=
  ∀ b v br, a.2 = .onblock b v → numOfTopBps ≤ a.1.activeProducers.length →
    p.state.blockreward = some br → callsRewardBlock p.state b v = true →
    (a.1.currentBlockNum - br.lastRewardBlockNum) * blockOutReward < 2 ^ 32

/-- What a step pays from the pool: the share that `bpclaim` takes. -/
def paidBlockOut (e : Point × (Env × Action) × Point) : Int :=
  match e.2.1.2 with
  | .bpclaim b =>
    match claimBlockOut e.1.state b with
    | .ok r => r.2.amount
    | .error _ => 0
  | _ => 0

/-! ## Settlements -/

/-- The row of the block-out rewards after a settlement. -/
structure BlockReward.Paid (br br' : BlockReward) (n : Nat) : Prop where
  block : br'.lastRewardBlockNum = n
  pool : br'.rewardBlockOut.amount = br.rewardBlockOut.amount +
    u32 (u32sub n br.lastRewardBlockNum * blockOutReward)

theorem rewardBlock_paid {ch : Bool} {fx : List Effect} {br : BlockReward}
    (hbr : s.blockreward = some br) (h : rewardBlock env s b v ch = .ok (s', fx)) :
    ∃ br', s'.blockreward = some br' ∧ br.Paid br' env.currentBlockNum := by
  simp only [rewardBlock, hbr, bind_eq_ok, pure_eq_ok, Prod.exists, Prod.mk.injEq, payBlockOut,
    Asset.make_eq_ok, Asset.add_eq_ok] at h
  obtain ⟨_, -, _, _, _, -, _, ⟨_, ⟨-, -, rfl⟩, _, ⟨-, -, rfl⟩, rfl⟩, rfl, -⟩ := h
  refine ⟨_, rfl, ⟨?_, ?_⟩⟩ <;> simp only

/-- A counted block settles the row of the rewards, or leaves it alone. -/
theorem onblock_paid {fx : List Effect} {br : BlockReward}
    (hact : numOfTopBps ≤ env.activeProducers.length) (hbr : s.blockreward = some br)
    (h : onblock env s b v = .ok (s', fx)) :
    s'.blockreward = some br ∨ callsRewardBlock s b v = true ∧
      ∃ br', s'.blockreward = some br' ∧ br.Paid br' env.currentBlockNum := by
  obtain ⟨t, ded, ht, -, hr⟩ := onblock_rounds hact h
  have hbr' : s'.blockreward = t.blockreward := congrArg Rounds.blockreward hr
  rw [hbr']
  unfold settleRound at ht
  unfold callsRewardBlock
  cases hf : s.schedules.find v with
  | none =>
    rw [hf] at ht
    refine .inr ⟨rfl, rewardBlock_paid ?_ ht⟩
    exact hbr
  | some sch =>
    rw [hf] at ht
    simp only [ite_eq_ok, pure_eq_ok, Prod.mk.injEq] at ht
    rcases ht with ⟨hset, ht⟩ | ⟨-, rfl, -⟩
    · exact .inr ⟨hset, rewardBlock_paid hbr ht⟩
    · exact .inl hbr

/-- The row is made by a block, with nothing in it. -/
theorem created {a : Action} {fx : List Effect} {br : BlockReward} (hnone : s.blockreward = none)
    (hbr : s'.blockreward = some br) (h : exec env s a = .ok (s', fx)) :
    br.rewardBlockOut.amount = 0 ∧ br.lastRewardBlockNum = env.currentBlockNum := by
  by_cases hblock : ∃ b v, a = .onblock b v
  · obtain ⟨b, v, rfl⟩ := hblock
    by_cases hact : env.activeProducers.length < numOfTopBps
    · obtain ⟨rfl, -⟩ := onblock_idle hact h
      rw [hnone] at hbr
      cases hbr
    · obtain ⟨t, ded, ht, -, hr⟩ := onblock_rounds (Nat.not_lt.mp hact) h
      rw [show s'.blockreward = t.blockreward from congrArg Rounds.blockreward hr] at hbr
      unfold settleRound at ht
      split at ht
      · rw [rewardBlock, hnone] at ht
        cases ht
        cases hbr
        exact ⟨rfl, rfl⟩
      · split at ht
        · rw [rewardBlock, hnone] at ht
          cases ht
          rw [if_neg (by simp), hnone] at hbr
          cases hbr
        · cases ht
          rw [hnone] at hbr
          cases hbr
  · have hrow : countedBlock (env, a) = none := by
      unfold countedBlock
      split
      · rename_i b v ha
        exact absurd ⟨b, v, ha⟩ hblock
      · rfl
    have hsome := (exec_rows hrow h).2
    rw [hnone, hbr] at hsome
    cases hsome

/-! ## The pool over a run -/

/-- The pool, less the reward of all blocks up to the last settlement. -/
def poolBalance (p : Point) : Int :=
  match p.state.blockreward with
  | none => 0
  | some br => br.rewardBlockOut.amount - blockOutReward * br.lastRewardBlockNum

theorem poolBalance_of {p : Point} {br : BlockReward} (h : p.state.blockreward = some br) :
    poolBalance p = br.rewardBlockOut.amount - blockOutReward * br.lastRewardBlockNum := by
  rw [poolBalance, h]

/-- There is a row, whose last settlement is not above the height. -/
def PoolOpen (p : Point) : Prop :=
  p.height < 2 ^ 32 ∧ ∃ br, p.state.blockreward = some br ∧ br.lastRewardBlockNum ≤ p.height

/-- **Step lemma.** The balance changes by what the step pays. -/
theorem poolBalance_step {p q : Point} {a : Env × Action} (hI : PoolOpen p) (h : Step p a q)
    (hgap : GapFits p a) : PoolOpen q ∧ poolBalance q = poolBalance p - paidBlockOut (p, a, q) := by
  obtain ⟨hlt, br, hbr, hle⟩ := hI
  obtain ⟨env, act⟩ := a
  obtain ⟨hheight, hq, fx, hx⟩ := h
  have hblock : q.height < 2 ^ 32 := hq ▸ env.currentBlockNum_lt
  have hle' : br.lastRewardBlockNum ≤ q.height := hle.trans (hheight.trans hq.ge)
  simp only at hheight hq hx
  -- a step that leaves the row alone and pays nothing
  have hsame : q.state.blockreward = some br → paidBlockOut (p, (env, act), q) = 0 →
      PoolOpen q ∧ poolBalance q = poolBalance p - paidBlockOut (p, (env, act), q) := fun hrow hp =>
    ⟨⟨hblock, br, hrow, hle'⟩, by rw [poolBalance_of hrow, poolBalance_of hbr, hp, sub_zero]⟩
  by_cases hon : ∃ b v, act = .onblock b v
  · obtain ⟨b, v, rfl⟩ := hon
    by_cases hact : env.activeProducers.length < numOfTopBps
    · exact hsame (by rw [(onblock_idle hact hx).1, hbr]) rfl
    rcases onblock_paid (Nat.not_lt.mp hact) hbr hx with hrow | ⟨hset, br', hrow, hpaid⟩
    · exact hsame hrow rfl
    · have hfits := hgap b v br rfl (Nat.not_lt.mp hact) hbr hset
      simp only at hfits
      have hsub := u32sub_of_le (hle.trans hheight) env.currentBlockNum_lt
      refine ⟨⟨hblock, br', hrow, (hpaid.block.trans hq.symm).le⟩, ?_⟩
      rw [poolBalance_of hrow, poolBalance_of hbr, hpaid.pool, hpaid.block, hsub, u32_of_lt hfits,
        Nat.cast_mul, Nat.cast_sub (hle.trans hheight), Int.sub_mul]
      simp only [paidBlockOut]
      rw [mul_comm (env.currentBlockNum : Int), mul_comm (br.lastRewardBlockNum : Int)]
      omega
  by_cases hclaim : ∃ b, act = .bpclaim b
  · obtain ⟨b, rfl⟩ := hclaim
    obtain ⟨t, x, ht, hr⟩ := bpclaim_rounds (silent_eq_ok.mp hx).1
    have hrow : q.state.blockreward = t.blockreward := congrArg Rounds.blockreward hr
    have hpay : paidBlockOut (p, (env, .bpclaim b), q) = x.amount := by simp only [paidBlockOut, ht]
    rcases claimBlockOut_ages ht with ⟨rfl, h0⟩ | ⟨br₀, m, br', hbr₀, -, -, hlast, hpool, rfl⟩
    · exact hsame (hrow.trans hbr) (hpay.trans h0)
    · obtain rfl : br = br₀ := Option.some.inj (hbr.symm.trans hbr₀)
      refine ⟨⟨hblock, br', hrow, hlast ▸ hle'⟩, ?_⟩
      rw [poolBalance_of hrow, poolBalance_of hbr, hpay, hlast, hpool]
      omega
  · have hrow : q.state.blockreward = p.state.blockreward :=
      exec_blockreward (fun b v e => hon ⟨b, v, e⟩) (fun b e => hclaim ⟨b, e⟩) hx
    apply hsame (hrow.trans hbr)
    unfold paidBlockOut
    split
    · rename_i b ha
      exact absurd ⟨b, ha⟩ hclaim
    · rfl

/-- From the block that makes the row on, the pool and what `bpclaim` has paid from it are the reward
of the blocks. -/
theorem Run.pool_accounted {tr : Trace} {q : Point} (hg : Genesis s) (h : Run Step ⟨s, 0⟩ tr q)
    (hgap : ∀ e ∈ tr, GapFits e.1 e.2.1) {br : BlockReward} (hbr : q.state.blockreward = some br) :
    ∃ l e l', tr = l ++ e :: l' ∧ e.1.state.blockreward = none ∧
      e.2.2.state.blockreward.isSome = true ∧
      br.rewardBlockOut.amount + (l'.map paidBlockOut).sum =
        blockOutReward * ((br.lastRewardBlockNum : Int) - e.2.1.1.currentBlockNum) := by
  obtain ⟨l, e, l', rfl, hno, hyes, -⟩ := h.entered
    (P := fun t => t.state.blockreward.isSome = true)
    (by show ¬s.blockreward.isSome = true; rw [hg.blockreward]; exact nofun) (by rw [hbr]; rfl)
  have hnone : e.1.state.blockreward = none := by simpa using hno
  obtain ⟨br₀, hbr₀⟩ := Option.isSome_iff_exists.mp hyes
  obtain ⟨-, ⟨hheight, hq, fx, hx⟩, hrest⟩ := h.split_at
  obtain ⟨hzero, hlast⟩ := created hnone hbr₀ hx
  refine ⟨l, e, l', rfl, hnone, hyes, ?_⟩
  have htotal := (hrest.restrict fun y hy => hgap y (by simp [hy])).total (I := PoolOpen)
    (q := poolBalance) (d := fun y => -paidBlockOut y)
    ⟨hq ▸ e.2.1.1.currentBlockNum_lt, br₀, hbr₀, (hlast.trans hq.symm).le⟩
    (fun t a u hI hs => (poolBalance_step hI hs.1 hs.2).1)
    fun t a u hI hs => (poolBalance_step hI hs.1 hs.2).2.trans (Int.sub_eq_add_neg)
  have hneg : (l'.map fun y => -paidBlockOut y).sum = -(l'.map paidBlockOut).sum := by
    rw [List.sum_neg, List.map_map]
    rfl
  rw [poolBalance_of hbr, poolBalance_of hbr₀, hzero, hlast, hneg] at htotal
  rw [Int.mul_sub]
  omega

/-- On a chain, the total of the block ages is their sum. -/
theorem Run.totalBlockAge_eq {tr : Trace} {q : Point} (hg : Genesis s) (h : Run Step ⟨s, 0⟩ tr q)
    {br : BlockReward} (hbr : q.state.blockreward = some br)
    (hchain : ∀ e ∈ tr, OnChain e.1.state e.2.1) (hlen : (countedBlocks tr).length < 2 ^ 32) :
    (br.totalBlockAge : Int) = ageSum q.state.bpmonitor := by
  have hsum : Mirrored q.state := (h.inv (I := fun t => Mirrored t.state)
    (by
      show (totalAge s : Int) = ageSum s.bpmonitor % 2 ^ 64
      rw [totalAge, hg.blockreward, hg.bpmonitor]
      rfl)
    fun t a u hI ⟨_, _, fx, hx⟩ => exec_mirrored hI hx).1
  rw [Mirrored, totalAge, hbr] at hsum
  exact hsum.trans (Int.emod_eq_of_lt (ageSum_nonneg _) (Run.ageSum_lt hg h hchain hlen))

/-- In a run whose settlements are not too far apart, the pool holds the reward of all blocks between
the one that made the row and the last settlement, less what `bpclaim` has paid from it. On a chain,
`total_block_age` is the sum of the ages of all monitor rows. -/
theorem block_out_accounted {tr : Trace} {q : Point} (hg : Genesis s) (h : Run Step ⟨s, 0⟩ tr q)
    (hgap : ∀ e ∈ tr, GapFits e.1 e.2.1) {br : BlockReward} (hbr : q.state.blockreward = some br) :
    (∃ l e l', tr = l ++ e :: l' ∧ e.1.state.blockreward = none ∧
      e.2.2.state.blockreward.isSome = true ∧
      br.rewardBlockOut.amount + (l'.map paidBlockOut).sum =
        blockOutReward * ((br.lastRewardBlockNum : Int) - e.2.1.1.currentBlockNum)) ∧
    0 ≤ br.rewardBlockOut.amount ∧
    ((∀ e ∈ tr, OnChain e.1.state e.2.1) → (countedBlocks tr).length < 2 ^ 32 →
      (br.totalBlockAge : Int) = ageSum q.state.bpmonitor ∧
      ∀ b m, q.state.bpmonitor.find b = some m → m.bockAge ≤ br.totalBlockAge) := by
  refine ⟨Run.pool_accounted hg h hgap hbr, ?_, fun hchain hlen => ?_⟩
  · have hr : Reachable q := ⟨s, tr, hg, h⟩
    exact (hr.coins.blockreward br hbr).2
  · have htotal := Run.totalBlockAge_eq hg h hbr hchain hlen
    refine ⟨htotal, fun b m hm => ?_⟩
    have hle : (m.bockAge : Int) ≤ ageSum q.state.bpmonitor :=
      Table.le_sum (w := fun _ m => ((m.bockAge : Nat) : Int))
        (fun _ _ _ => Int.natCast_nonneg _) hm
    omega

/-- The first block makes the row of the rewards. -/
def rewardsMade : Point := (Point.mk {} 0).next (Env.block 1) (.onblock 0 1)

/-- The next block of the producer settles the first one. -/
def soonSettled : Point := rewardsMade.next (Env.block 2) (.onblock 0 1)

theorem settled_eval :
    (exec (Env.block 1) {} (.onblock 0 1)).isOk = true ∧
    (exec (Env.block 2) rewardsMade.state (.onblock 0 1)).isOk = true ∧
    rewardsMade.state.blockreward.map BlockReward.lastRewardBlockNum = some 1 ∧
    rewardsMade.state.schedules.last.map Prod.fst = some 1 ∧
    (soonSettled.state.blockreward.map fun r => (r.rewardBlockOut.amount, r.lastRewardBlockNum)) =
      some (5000, 2) := by
  decide +kernel

/-- The first block of the producer and its next one. -/
def settledTrace : Trace :=
  [(⟨{}, 0⟩, (Env.block 1, .onblock 0 1), rewardsMade),
    (rewardsMade, (Env.block 2, .onblock 0 1), soonSettled)]

/-- The reward of one block. -/
theorem block_out_accounted_soon : ∃ br, soonSettled.state.blockreward = some br ∧
    0 ≤ br.rewardBlockOut.amount ∧
    (br.totalBlockAge : Int) = ageSum soonSettled.state.bpmonitor := by
  obtain ⟨hfirst, hok, hone, hver, hsoon⟩ := settled_eval
  obtain ⟨br, hbr, -⟩ := Option.map_eq_some_iff.mp hsoon
  obtain ⟨br₁, hbr₁, hset⟩ := Option.map_eq_some_iff.mp hone
  obtain ⟨⟨-, sch⟩, hlast, rfl⟩ := Option.map_eq_some_iff.mp hver
  have hrun : Run Step ⟨{}, 0⟩ settledTrace soonSettled :=
    (Run.nil.snoc (Point.next_step _ _ _ (by decide) hfirst)).snoc
      (Point.next_step _ _ _ (by decide) hok)
  have hgap : ∀ e ∈ settledTrace, GapFits e.1 e.2.1 := fun e he => by
    simp only [settledTrace, List.mem_cons, List.not_mem_nil, or_false] at he
    rcases he with rfl | rfl <;> rintro b v r ⟨⟩ - hr -
    · cases hr
    · obtain rfl : br₁ = r := Option.some.inj (hbr₁.symm.trans hr)
      rw [hset]
      decide
  have hchain : ∀ e ∈ settledTrace, OnChain e.1.state e.2.1 := fun e he => by
    simp only [settledTrace, List.mem_cons, List.not_mem_nil, or_false] at he
    rcases he with rfl | rfl <;> rintro b v ⟨⟩
    · exact ⟨by decide, by decide, nofun⟩
    · exact ⟨by decide, by decide, fun w r hw => Table.le_last hlast hw⟩
  obtain ⟨-, h0, hage⟩ := block_out_accounted empty_genesis hrun hgap hbr
  exact ⟨br, hbr, h0, (hage hchain (by decide)).1⟩

/-- On a chain without a budget account, the first block makes the row of the rewards. -/
def devfundMissing : Point := (Point.mk founding 0).next (Env.block 1) (.onblock 0 1)

/-- From this vote on, `onblock` fails. -/
def stalled : Point := devfundMissing.next (Env.of 1 1) (.vote 1 7 ⟨20000, coreSymbol⟩)

/-- The vote is withdrawn. -/
def resumed : Point := stalled.next (Env.of 1 859999) (.vote 1 7 ⟨0, coreSymbol⟩)

/-- The producer makes a block again, 859999 blocks after its first one. -/
def lateSettled : Point := resumed.next (Env.block 860000) (.onblock 0 1)

/-- The actions of this chain; those of the blocks in between change nothing. -/
def lateTrace : Trace :=
  [(⟨founding, 0⟩, (Env.block 1, .onblock 0 1), devfundMissing),
    (devfundMissing, (Env.of 1 1, .vote 1 7 ⟨20000, coreSymbol⟩), stalled),
    (stalled, (Env.of 1 859999, .vote 1 7 ⟨0, coreSymbol⟩), resumed),
    (resumed, (Env.block 860000, .onblock 0 1), lateSettled)]

theorem late_eval :
    (exec (Env.block 1) founding (.onblock 0 1)).isOk = true ∧
    (exec (Env.of 1 1) devfundMissing.state (.vote 1 7 ⟨20000, coreSymbol⟩)).isOk = true ∧
    (exec (Env.of 1 859999) stalled.state (.vote 1 7 ⟨0, coreSymbol⟩)).isOk = true ∧
    (exec (Env.block 860000) resumed.state (.onblock 0 1)).isOk = true ∧
    devfundMissing.state.blockreward.isSome = true ∧
    stalled.state.blockreward.isSome = true ∧ resumed.state.blockreward.isSome = true ∧
    (lateSettled.state.blockreward.map fun r => (r.rewardBlockOut.amount, r.lastRewardBlockNum)) =
      some (5027704, 860000) := by
  decide +kernel

example : (exec (Env.block 2) stalled.state (.onblock 1 1)).isOk = false ∧
    (exec (Env.block 859999) stalled.state (.onblock 1 1)).isOk = false := by decide +kernel

/-- A product that wraps: the rewards of 859999 blocks are those of 1005. -/
theorem late_settlement_loses : ¬∀ (s : State) (tr : Trace) (q : Point) (br : BlockReward),
    Genesis s → Run Step ⟨s, 0⟩ tr q → q.state.blockreward = some br →
    ∃ l e l', tr = l ++ e :: l' ∧ e.1.state.blockreward = none ∧
      br.rewardBlockOut.amount + (l'.map paidBlockOut).sum =
        blockOutReward * ((br.lastRewardBlockNum : Int) - e.2.1.1.currentBlockNum) := by
  intro h
  obtain ⟨hfirst, hvote, hleft, hok, hrow, hrow', hrow'', hlate⟩ := late_eval
  obtain ⟨br, hbr, hval⟩ := Option.map_eq_some_iff.mp hlate
  have hrun : Run Step ⟨founding, 0⟩ lateTrace lateSettled :=
    (((Run.nil.snoc (Point.next_step _ _ _ (by decide) hfirst)).snoc
      (Point.next_step _ _ _ (by decide) hvote)).snoc
      (Point.next_step _ _ _ (by decide) hleft)).snoc (Point.next_step _ _ _ (by decide) hok)
  obtain ⟨l, e, l', htr, hnone, hsum⟩ := h _ _ _ _ founding_genesis hrun hbr
  -- the step that makes the row is the first one
  cases l with
  | nil =>
    obtain ⟨rfl, rfl⟩ := List.cons.inj htr
    rw [(Prod.mk.inj hval).1, (Prod.mk.inj hval).2] at hsum
    revert hsum
    decide
  | cons x l =>
    obtain ⟨-, htr⟩ := List.cons.inj htr
    have he : e ∈ l ++ e :: l' := List.mem_append_right l List.mem_cons_self
    rw [← List.append_eq, ← htr] at he
    simp only [List.mem_cons, List.not_mem_nil, or_false] at he
    have hsome : e.1.state.blockreward.isSome = true := by
      rcases he with rfl | rfl | rfl <;> assumption
    rw [hnone] at hsome
    cases hsome

end Eosforce.System
