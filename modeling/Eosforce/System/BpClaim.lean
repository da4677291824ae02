import Eosforce.System.Supply

/-!
# When `bpclaim` pays what is due

A bp is due its vote reward and its share of the block-out rewards by block age. `bpclaim` divides
by `total_block_age` without a look at it, and takes only a share that is below the whole pool.

* `bpDue`: what a bp is due.
* `BlockOutClaimable`: the state in which neither the division nor the check fails.
* `claimBlockOut_iff`: the block-out part succeeds with its share exactly there.
* `bpclaim_iff`: `bpclaim` pays what is due exactly there, up to the range of an asset.
-/

namespace Eosforce.System

open Fallible Keyed Runs

variable {env : Env} {s s' : State} {b : Name}

/-- The block-out share of a bp: 0 without age, and without a row to take it from. -/
def blockOutDue (s : State) (b : Name) : Int :=
  match s.blockreward, s.bpmonitor.find b with
  | some br, some m => (m.bockAge * br.rewardBlockOut.amount) / br.totalBlockAge
  | _, _ => 0

/-- The vote reward of a bp. -/
def voteRewardDue (s : State) (b : Name) : Int := (s.bpsreward.find b).elim 0 fun r => r.amount

/-- All that a bp is due. -/
def bpDue (s : State) (b : Name) : Int := voteRewardDue s b + blockOutDue s b

/-- `bpclaim` succeeds and credits exactly what is due. -/
def PaysDue (env : Env) (s : State) (b : Name) : Prop :=
  ∃ s', exec env s (.bpclaim b) = .ok (s', []) ∧ ∀ act, s.accounts.find b = some act →
    s'.accounts.find b = some (act.credit (bpDue s b))

/-- Others hold block age, and the pool is not empty. -/
def BlockOutClaimable (s : State) (b : Name) : Prop :=
  ∀ br m, s.blockreward = some br → s.bpmonitor.find b = some m →
    m.bockAge < br.totalBlockAge ∧ 0 < br.rewardBlockOut.amount

/-! ## The share -/

/-- A share of a pool is below the pool exactly when its weight is below the total and there is
something in the pool. -/
theorem share_lt_iff {pool : Int} {age total : Nat} (hp : 0 ≤ pool) (ht : total ≠ 0) :
    (age * pool) / (total : Int) < pool ↔ age < total ∧ 0 < pool := by
  have hpos : (0 : Int) < total := by omega
  rw [Int.ediv_lt_iff_lt_mul hpos, Int.mul_comm pool]
  constructor
  · intro h
    have h0 : 0 < pool := by
      rcases hp.lt_or_eq with h0 | h0
      · exact h0
      · subst h0
        simp at h
    exact ⟨by exact_mod_cast lt_of_mul_lt_mul_right h hp, h0⟩
  · rintro ⟨hlt, h0⟩
    exact mul_lt_mul_of_pos_right (by exact_mod_cast hlt) h0

section Pool

variable {br : BlockReward} {m : BpMonitor}

theorem blockOutDue_eq (hbr : s.blockreward = some br) (hm : s.bpmonitor.find b = some m) :
    blockOutDue s b = (m.bockAge * br.rewardBlockOut.amount) / br.totalBlockAge := by
  unfold blockOutDue
  rw [hbr, hm]

theorem blockOutDue_nonneg (hc : Coins s.ledger) : 0 ≤ blockOutDue s b := by
  unfold blockOutDue
  split
  · rename_i br m hbr _
    exact Int.ediv_nonneg (Int.mul_nonneg (Int.natCast_nonneg _) (hc.blockreward br hbr).2)
      (Int.natCast_nonneg _)
  · exact le_refl _

/-- The share that the code computes, before it is stored in an `int64_t`. -/
theorem blockOutDue_tdiv (hc : Coins s.ledger) (hbr : s.blockreward = some br)
    (hm : s.bpmonitor.find b = some m) :
    (m.bockAge * br.rewardBlockOut.amount).tdiv br.totalBlockAge = blockOutDue s b := by
  rw [blockOutDue_eq hbr hm]
  exact Int.tdiv_eq_ediv_of_nonneg
    (Int.mul_nonneg (Int.natCast_nonneg _) (hc.blockreward br hbr).2)

/-- A block-out part that takes what is due finds others with age and a pool that is not empty. -/
theorem claimBlockOut_claimable (hc : Coins s.ledger) {x : Asset}
    (h : claimBlockOut s b = .ok (s', x)) (hx : x.amount = blockOutDue s b) :
    BlockOutClaimable s b := by
  intro br m hbr hm
  simp only [claimBlockOut, hbr, hm, blockOutShare, bind_eq_ok, check_eq_ok, pure_eq_ok,
    exists_const, Asset.lt_eq_ok, Prod.mk.injEq] at h
  obtain ⟨y, ⟨ht, -⟩, _, ⟨-, rfl⟩, hlt, _, -, -, rfl⟩ := h
  have hlt' : blockOutDue s b < br.rewardBlockOut.amount := by
    rw [← hx]
    exact of_decide_eq_true hlt
  rw [blockOutDue_eq hbr hm] at hlt'
  exact (share_lt_iff (hc.blockreward br hbr).2 ht).mp hlt'

/-- Where others hold age and the pool is not empty, the block-out part takes what is due. -/
theorem claimBlockOut_pays (hc : Coins s.ledger)
    (hpool : ∀ r, s.blockreward = some r → Asset.InRange r.rewardBlockOut.amount)
    (hcl : BlockOutClaimable s b) (hle : blockOutDue s b ≤ Asset.maxAmount) :
    ∃ t, claimBlockOut s b = .ok (t, ⟨blockOutDue s b, coreSymbol⟩) := by
  have h0 := blockOutDue_nonneg (b := b) hc
  cases hbr : s.blockreward with
  | none =>
    have hz : blockOutDue s b = 0 := by
      unfold blockOutDue
      rw [hbr]
    refine ⟨s, ?_⟩
    unfold claimBlockOut
    rw [hbr, hz]
    rfl
  | some br =>
    cases hm : s.bpmonitor.find b with
    | none =>
      have hz : blockOutDue s b = 0 := by
        unfold blockOutDue
        rw [hbr, hm]
      refine ⟨s, ?_⟩
      unfold claimBlockOut
      rw [hbr, hm, hz]
      rfl
    | some m =>
      obtain ⟨hage, hpos⟩ := hcl br m hbr hm
      have hbc := hc.blockreward br hbr
      have ht : br.totalBlockAge ≠ 0 := by omega
      have hlt := (share_lt_iff hbc.2 ht).mpr ⟨hage, hpos⟩
      rw [← blockOutDue_eq hbr hm] at hlt
      have hmax : Asset.maxAmount = 2 ^ 62 - 1 := rfl
      have hrange := hpool br hbr
      unfold Asset.InRange at hrange
      have hi : i64 (blockOutDue s b) = blockOutDue s b := i64_of_range (by omega) (by omega)
      have hshare : blockOutShare m.bockAge br = .ok ⟨blockOutDue s b, coreSymbol⟩ := by
        simp only [blockOutShare, bind_eq_ok, check_eq_ok, exists_const, Asset.make_eq_ok]
        rw [blockOutDue_tdiv hc hbr hm, hi]
        exact ⟨ht, ⟨by omega, hle⟩, coreSymbol_isValid, rfl⟩
      have hless : Asset.lt ⟨blockOutDue s b, coreSymbol⟩ br.rewardBlockOut = .ok true :=
        Asset.lt_eq_ok.mpr ⟨hbc.1.symm, (decide_eq_true hlt).symm⟩
      have hsub : br.rewardBlockOut.sub ⟨blockOutDue s b, coreSymbol⟩ =
          .ok ⟨br.rewardBlockOut.amount - blockOutDue s b, br.rewardBlockOut.symbol⟩ :=
        Asset.sub_eq_ok.mpr ⟨hbc.1.symm, ⟨by simp only; omega, by simp only; omega⟩, rfl⟩
      simp only [claimBlockOut, hbr, hm, hshare, hless, hsub, ok_bind]
      exact ⟨_, rfl⟩

end Pool

/-! ## The vote reward -/

theorem voteRewardDue_nonneg (hc : Coins s.ledger) (b : Name) : 0 ≤ voteRewardDue s b := by
  unfold voteRewardDue
  cases hr : s.bpsreward.find b with
  | none => exact le_refl _
  | some r => exact (hc.bpsreward b r hr).2

/-- The part of `bpclaim` that takes the vote reward takes all of it. -/
theorem claimBpsReward_eq (hc : s.bpsreward.All fun _ r => IsCoin r) (b : Name) :
    ∃ t, claimBpsReward s b = (t, ⟨voteRewardDue s b, coreSymbol⟩) ∧ t.accounts = s.accounts := by
  unfold claimBpsReward voteRewardDue
  cases hr : s.bpsreward.find b with
  | none => exact ⟨s, rfl, rfl⟩
  | some r =>
    refine ⟨_, Prod.ext rfl ?_, rfl⟩
    rw [← (hc b r hr).1]
    rfl

/-! ## The action -/

/-- In a reachable state the block-out rewards are in the range of an asset. -/
theorem Reachable.poolFits {p : Point} (h : Reachable p) :
    ∀ r, p.state.blockreward = some r → Asset.InRange r.rewardBlockOut.amount := by
  apply h.inv (I := fun p => ∀ r, p.state.blockreward = some r →
    Asset.InRange r.rewardBlockOut.amount)
  · intro s hg r hr
    rw [show (Point.mk s 0).state.blockreward = none from hg.blockreward] at hr
    cases hr
  · intro p a q hI hs r hr
    obtain ⟨-, -, fx, hx⟩ := hs
    rcases exec_pool hx with he | hall
    · exact hI r (he ▸ hr)
    · exact hall r hr

/-- After the block-out part, the action succeeds exactly when the sum is large enough and fits,
and credits it. -/
theorem bpclaim_credits (hc : Coins s.ledger) (hauth : b ∈ env.auths) {act : AccountInfo}
    (hact : s.accounts.find b = some act) {t : State} {n : Int}
    (ht : claimBlockOut s b = .ok (t, ⟨n, coreSymbol⟩))
    (hmin : (minClaimBp : Int) < voteRewardDue s b + n)
    (hle : act.available.amount + (voteRewardDue s b + n) ≤ Asset.maxAmount) :
    ∃ s', bpclaim env s b = .ok s' ∧
      s'.accounts.find b = some (act.credit (voteRewardDue s b + n)) := by
  have hacc : IsCoin act.available := hc.accounts b act hact
  have hpos := hacc.2
  have hreward := voteRewardDue_nonneg hc b
  have hmax : 0 ≤ Asset.maxAmount := by decide
  obtain ⟨br, m, rfl, -⟩ := claimBlockOut_spec ht
  obtain ⟨u, hu, hua⟩ := claimBpsReward_eq (s := { s with blockreward := br, bpmonitor := m })
    hc.bpsreward b
  change claimBpsReward _ b = (u, ⟨voteRewardDue s b, coreSymbol⟩) at hu
  have hadd : Asset.add ⟨voteRewardDue s b, coreSymbol⟩ ⟨n, coreSymbol⟩ =
      .ok ⟨voteRewardDue s b + n, coreSymbol⟩ :=
    Asset.add_eq_ok.mpr ⟨rfl, ⟨by simp only; omega, by simp only; omega⟩, rfl⟩
  have hav : act.available.add ⟨voteRewardDue s b + n, coreSymbol⟩ =
      .ok (act.credit (voteRewardDue s b + n)).available :=
    Asset.add_eq_ok.mpr ⟨hacc.1.symm, ⟨by simp only; omega, hle⟩, rfl⟩
  have hra : requireAuth env b = .ok () := check_eq_ok.mpr hauth
  have hfe : fetch (s.accounts.find b) "bpname is not found in accounts table" = .ok act :=
    fetch_eq_ok.mpr hact
  have hch : check ((minClaimBp : Int) < voteRewardDue s b + n) "need 100 EOSC < reward" = .ok () :=
    check_eq_ok.mpr hmin
  simp only [bpclaim, hra, hfe, ht, hu, hadd, hch, hav, ok_bind]
  exact ⟨_, rfl, Table.find_put_self _ _ _⟩

/-- What a successful action takes and credits. -/
theorem bpclaim_spec (hc : Coins s.ledger) {act : AccountInfo}
    (hact : s.accounts.find b = some act) (h : bpclaim env s b = .ok s') :
    ∃ t x, claimBlockOut s b = .ok (t, x) ∧
      act.available.amount + (voteRewardDue s b + x.amount) ≤ Asset.maxAmount ∧
      s'.accounts.find b = some (act.credit (voteRewardDue s b + x.amount)) := by
  simp only [bpclaim, bind_eq_ok, fetch_eq_ok, check_eq_ok, pure_eq_ok, Asset.add_eq_ok,
    exists_const, Prod.exists] at h
  obtain ⟨_, -, a, ha, t, x, ht, sum, ⟨-, -, rfl⟩, -, av, ⟨-, hin, rfl⟩, rfl⟩ := h
  obtain rfl := Option.some.inj (ha.symm.trans hact)
  refine ⟨t, x, ht, ?_⟩
  obtain ⟨br, m, rfl, -⟩ := claimBlockOut_spec ht
  obtain ⟨u, hu, -⟩ := claimBpsReward_eq (s := { s with blockreward := br, bpmonitor := m })
    hc.bpsreward b
  change claimBpsReward _ b = (u, ⟨voteRewardDue s b, coreSymbol⟩) at hu
  rw [hu] at hin ⊢
  exact ⟨hin.2, Table.find_put_self _ _ _⟩

/-- What is due to a bp with an account is paid exactly when others hold block age too, the pool
is not empty, and the account's balance stays in the range of an asset. -/
theorem bpclaim_iff {p : Point} (hp : Reachable p) {act : AccountInfo} (hauth : b ∈ env.auths)
    (hact : p.state.accounts.find b = some act) (hdue : (minClaimBp : Int) < bpDue p.state b) :
    PaysDue env p.state b ↔ BlockOutClaimable p.state b ∧
      act.available.amount + bpDue p.state b ≤ Asset.maxAmount := by
  have hc := hp.coins
  constructor
  · rintro ⟨s', hx, hpaid⟩
    obtain ⟨t, x, ht, hle, hcredit⟩ := bpclaim_spec hc hact (silent_eq_ok.mp hx).1
    have hx : x.amount = blockOutDue p.state b := by
      have hsame := Option.some.inj (hcredit.symm.trans (hpaid act hact))
      have hamount := congrArg (fun a : AccountInfo => a.available.amount) hsame
      simp only [AccountInfo.credit_amount, bpDue] at hamount
      omega
    rw [hx] at hle
    exact ⟨claimBlockOut_claimable hc ht hx, hle⟩
  · rintro ⟨hcl, hle⟩
    have hreward := voteRewardDue_nonneg hc b
    have hacc : IsCoin act.available := hc.accounts b act hact
    have hpos := hacc.2
    have hfits : blockOutDue p.state b ≤ Asset.maxAmount := by
      unfold bpDue at hle
      omega
    obtain ⟨t, ht⟩ := claimBlockOut_pays hc hp.poolFits hcl hfits
    obtain ⟨s', hs', hcredit⟩ := bpclaim_credits hc hauth hact ht hdue hle
    refine ⟨s', silent_eq_ok.mpr ⟨hs', rfl⟩, fun a ha => ?_⟩
    obtain rfl := Option.some.inj (ha.symm.trans hact)
    exact hcredit

/-! ### Two producers of a round -/

/-- The producers 0 and 1 have accounts. -/
def producers : State := { accounts := ((∅ : Table Name AccountInfo).put 0 {}).put 1 {} }

/-- The context of a block where some accounts have pledged 20000 EOS. -/
def pledgedTo (accounts : List Name) (block : Nat) : Env :=
  { Env.block block with
    pledges := accounts.foldl (fun t n =>
      t.put n Eosforce.blockOutPledge ⟨⟨200000000, coreSymbol⟩, Asset.zero⟩) ∅ }

/-- The producers 0 and 1 make a block each of version 1, and version 2 starts at block 1001. -/
def settled (accounts : List Name) : Point :=
  (((Point.mk producers 0).next (pledgedTo accounts 1) (.onblock 0 1)).next (pledgedTo accounts 2)
    (.onblock 1 1)).next (pledgedTo accounts 1001) (.onblock 0 2)

theorem producers_reachable : Reachable ⟨producers, 0⟩ := by
  have hacc : ∀ k a, producers.accounts.find k = some a →
      a.available.symbol = coreSymbol ∧ 0 ≤ a.available.amount :=
    ((Table.all_empty _).put ⟨rfl, by decide⟩).put ⟨rfl, by decide⟩
  exact ⟨producers, [], .of_rows hacc (Table.all_empty _), .nil⟩

theorem settled_reachable {accounts : List Name} (h : accounts = [0] ∨ accounts = [0, 1]) :
    Reachable (settled accounts) := by
  rcases h with rfl | rfl
  · exact ((producers_reachable.step (Point.next_step _ _ _ (by decide) rfl)).step
      (Point.next_step _ _ _ (by decide) rfl)).step (Point.next_step _ _ _ (by decide) rfl)
  · exact ((producers_reachable.step (Point.next_step _ _ _ (by decide) rfl)).step
      (Point.next_step _ _ _ (by decide) rfl)).step (Point.next_step _ _ _ (by decide) rfl)

/-- Both have pledged, and each is due half of the pool of 500 EOS. -/
theorem bpclaim_iff_settled : bpDue (settled [0, 1]).state 0 = 2500000 ∧
    PaysDue (Env.of 0 1001) (settled [0, 1]).state 0 := by
  have hdue : bpDue (settled [0, 1]).state 0 = 2500000 := by decide
  have hact : (settled [0, 1]).state.accounts.find 0 = some {} := rfl
  refine ⟨hdue, (bpclaim_iff (settled_reachable (.inr rfl)) (List.mem_singleton.mpr rfl) hact
    (by rw [hdue]; decide)).mpr ⟨?_, by rw [hdue]; decide⟩⟩
  intro br m hbr hm
  cases hbr
  cases hm
  decide

/-- Only producer 0 has pledged: it holds all block age, is due the whole pool, and gets nothing. -/
theorem sole_holder_rejected : ¬∀ (p : Point) (env : Env) (b : Name) (act : AccountInfo),
    Reachable p → b ∈ env.auths → p.state.accounts.find b = some act →
    (minClaimBp : Int) < bpDue p.state b → PaysDue env p.state b := by
  intro h
  obtain ⟨s', hx, -⟩ := h (settled [0]) (Env.of 0 1001) 0 {} (settled_reachable (.inl rfl))
    (List.mem_singleton.mpr rfl) rfl (by decide)
  have herr : (exec (Env.of 0 1001) (settled [0]).state (.bpclaim 0)).isOk = false := rfl
  rw [hx] at herr
  cases herr

end Eosforce.System
