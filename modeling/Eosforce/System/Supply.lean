import Eosforce.System.ClaimVotes

/-!
# Conservation of core tokens

* `Change.coins`: an action keeps every amount of the ledger a core-token amount that is not
  negative.
* `Ledger.coreTotal`: all core tokens that the ledger holds for accounts, votes and rewards.
* `Change.coreTotal`: the actions that move tokens keep the total.
* `coreTotal_step`: both, for every step from a reachable state.
-/

namespace Eosforce.System

open Fallible Keyed

variable {env : Env} {s : State} {a : Action} {l : Ledger}

/-! ## Rows -/

theorem AssetAge.getAge_nonneg {a : AssetAge} (hs : 0 ≤ a.staked.amount) (ha : 0 ≤ a.age) (h : Nat) :
    0 ≤ a.getAge h := by
  have hp : 0 ≤ precisionBase a.staked.symbol.precision := Int.pow_nonneg (by decide)
  exact Int.add_nonneg (Int.mul_nonneg (Int.tdiv_nonneg hs hp) (Int.natCast_nonneg _)) ha

/-- A vote with its stake changed to an amount of whole tokens. -/
theorem VoteOk.changeStakedTo {v : VoteInfo} (hv : VoteOk v) {x : Asset} (hx : IsCoin x)
    (hw : coreSymbolPrecision ∣ x.amount) (h : Nat) :
    VoteOk { v with voteage := v.voteage.changeStakedTo h x } :=
  ⟨hx, hw, AssetAge.getAge_nonneg hv.staked.2 hv.age h, hv.unstaking⟩

theorem VoteOk.clean {v : VoteInfo} (hv : VoteOk v) (h : Nat) : VoteOk (v.clean h) :=
  ⟨hv.staked, hv.whole, le_refl _, hv.unstaking⟩

theorem VoteOk.setUnstaking {v : VoteInfo} (hv : VoteOk v) {x : Asset} (hx : IsCoin x) (n : Nat) :
    VoteOk { v with unstaking := x, unstakeHeight := n } :=
  ⟨hv.staked, hv.whole, hv.age, hx⟩

theorem FixVoteOk.cleanAge {v : FixTimeVoteInfo} (hv : FixVoteOk v) (h : Nat) :
    FixVoteOk (v.cleanAge h) :=
  ⟨hv.staked, hv.whole, le_refl _, hv.vote, hv.withdrawn⟩

theorem CastRow.ok {h : Nat} {old v : VoteInfo} {stake : Asset} {change : Int}
    (hr : CastRow h old stake change v) (ho : VoteOk old) (hs : IsCoin stake)
    (hw : coreSymbolPrecision ∣ stake.amount) : VoteOk v := by
  refine ⟨hr.voteage ▸ hs, hr.voteage ▸ hw, ?_, ?_⟩
  · rw [hr.voteage]
    exact AssetAge.getAge_nonneg ho.staked.2 ho.age h
  · rw [hr.unstaking]
    exact ⟨ho.unstaking.1, Int.add_nonneg ho.unstaking.2 (le_max_left _ _)⟩

theorem IsCoin.credit {act : AccountInfo} (ha : IsCoin act.available) {x : Int}
    (hx : 0 ≤ act.available.amount + x) : IsCoin (act.credit x).available := ⟨ha.1, hx⟩

/-- The row of a vote, or the default row. -/
theorem VoteOk.getD {t : Scoped Name Name VoteInfo} (ht : t.All fun _ _ v => VoteOk v)
    (voter bpname : Name) : VoteOk ((t.find voter bpname).getD {}) := by
  cases hf : t.find voter bpname with
  | none => exact voteOk_default
  | some v => exact ht _ _ _ hf

/-! ## No amount becomes negative -/

theorem Coins.setVotesTbl (hc : Coins l) (typ : VoteTyp) {t : Scoped Name Name VoteInfo}
    (ht : t.All fun _ _ v => VoteOk v) : Coins (l.setVotesTbl typ t) := by
  cases typ
  · exact { hc with votes := ht }
  · exact { hc with votes4ram := ht }

/-- The rewards pool of a bp is not touched by a stake change. -/
theorem BpInfo.stakeBy_rewardsPool (b : BpInfo) (h : Nat) (x : Int) :
    (b.stakeBy h x).rewardsPool = b.rewardsPool := by
  unfold BpInfo.stakeBy; split <;> rfl

theorem pools_put {t : Table Name BpInfo} (ht : t.All fun _ b => IsPool b.rewardsPool) {k : Name}
    {b : BpInfo} (hb : IsPool b.rewardsPool) {h : Nat} {x : Int} :
    (t.put k (b.addTotalStaked h x)).All fun _ b => IsPool b.rewardsPool := ht.put hb

theorem Change.coins (hch : Change env s a l) (hc : Coins s.ledger) : Coins l := by
  cases hch with
  | @transfer src dst q memo x y hx hsym h0 hle hy =>
    have hx' : IsCoin x.available := hc.accounts _ _ hx
    have hacc := hc.accounts.put (k := src)
      (hx'.credit (x := -q.amount) (by omega))
    have hy' : IsCoin y.available := hacc _ _ hy
    have h2 := hy'.2
    exact { hc with accounts := hacc.put (hy'.credit (by omega)) }
  | @updatebp bpname key rate url b hb =>
    refine { hc with bps := hc.bps.put ?_ }
    subst hb
    cases hf : s.bps.find bpname with
    | none => exact isPool_zero
    | some b =>
      have hb : IsPool b.rewardsPool := hc.bps _ _ hf
      exact hb
  | @cast typ voter bpname stake act bp change v hact hbp hst hw hrow hle hblack =>
    have hvt := hc.votesTbl typ
    rw [ledger_votesTbl] at hvt
    have hv := hrow.ok (VoteOk.getD hvt voter bpname) hst hw
    have hact' : IsCoin act.available := hc.accounts _ _ hact
    have h0 := hact'.2
    have hbase := hc.setVotesTbl typ (hvt.put (s := voter) (k := bpname) hv)
    refine { hbase with accounts := hc.accounts.put (hact'.credit (by omega)), bps := hc.bps.put ?_ }
    rw [BpInfo.stakeBy_rewardsPool]
    exact hc.bps _ _ hbp
  | @revote voter frombp tobp restake bpf bpt vf vt hne hst hpos hw hbpf hbpt hvf hle hvt =>
    have hf : VoteOk vf := hc.votes _ _ _ hvf
    have ht : VoteOk vt := hvt ▸ VoteOk.getD hc.votes voter tobp
    have hpf : IsPool bpf.rewardsPool := hc.bps _ _ hbpf
    have hpt : IsPool bpt.rewardsPool := hc.bps _ _ hbpt
    refine { hc with votes := (hc.votes.put ?_).put ?_, bps := pools_put (pools_put hc.bps hpf) hpt }
    · exact hf.changeStakedTo
        (x := ⟨vf.voteage.staked.amount - restake.amount, vf.voteage.staked.symbol⟩)
        ⟨hf.staked.1, by simp only; omega⟩ (Int.dvd_sub hf.whole hw) _
    · exact ht.changeStakedTo ⟨rfl, Int.add_nonneg ht.staked.2 hst.2⟩ (Int.dvd_add ht.whole hw) _
  | @unfreeze typ voter bpname act v hact hv hpos =>
    have hvt := hc.votesTbl typ
    rw [ledger_votesTbl] at hvt
    have hact' : IsCoin act.available := hc.accounts _ _ hact
    have hv' : VoteOk v := hvt _ _ _ hv
    have hbase := hc.setVotesTbl typ (hvt.put (s := voter) (k := bpname)
      (hv'.setUnstaking (x := ⟨0, v.unstaking.symbol⟩) ⟨hv'.unstaking.1, le_refl _⟩ v.unstakeHeight))
    have h0 := hact'.2
    exact { hbase with accounts := hc.accounts.put (hact'.credit (by omega)) }
  | @votefix voter bpname typ stake stakeTyp key d act bp accounts votes f hd hbp hact hst hpos hw
      hblack htake hkey hf =>
    have hsrc : accounts.All (fun _ a => IsCoin a.available) ∧ votes.All fun _ _ v => VoteOk v := by
      rcases htake with ⟨rfl, hle, rfl⟩ | ⟨rfl, v, hv, hlt, rfl⟩
      · have hact' : IsCoin act.available := hc.accounts _ _ hact
        exact ⟨hc.accounts.put (hact'.credit (by omega)), hc.votes⟩
      · have hv' : VoteOk v := hc.votes _ _ _ hv
        exact ⟨hc.accounts, hc.votes.put
          (hv'.setUnstaking (x := ⟨v.unstaking.amount - stake.amount, v.unstaking.symbol⟩)
            ⟨hv'.unstaking.1, by simp only; omega⟩ v.unstakeHeight)⟩
    have hp : IsPool bp.rewardsPool := hc.bps _ _ hbp
    refine { hc with
      accounts := hsrc.1, votes := hsrc.2, fixvotes := hc.fixvotes.put ?_, bps := hc.bps.put hp }
    subst hf
    refine ⟨⟨rfl, Int.mul_nonneg hst.2 (by omega)⟩, Int.dvd_mul_of_dvd_left hw, le_refl _, hst, ?_⟩
    intro h; cases h
  | @revotefix voter key bpname f bpf bpt hf hne hwd hlt hblack hbpf hbpt hage =>
    have hf' : FixVoteOk f := hc.fixvotes _ _ _ hf
    have hf'' : FixVoteOk { f with bpname } :=
      ⟨hf'.staked, hf'.whole, hf'.age, hf'.vote, hf'.withdrawn⟩
    have hpf : IsPool bpf.rewardsPool := hc.bps _ _ hbpf
    have hpt : IsPool bpt.rewardsPool := hc.bps _ _ hbpt
    exact { hc with
      fixvotes := hc.fixvotes.put (hf''.cleanAge _), bps := pools_put (pools_put hc.bps hpf) hpt }
  | @outfixvote voter key f bp v hf hbp hle hwd hv =>
    have hf' : FixVoteOk f := hc.fixvotes _ _ _ hf
    have hv' : VoteOk v := hv ▸ VoteOk.getD hc.votes voter f.bpname
    have hp : IsPool bp.rewardsPool := hc.bps _ _ hbp
    exact { hc with
      votes := hc.votes.put (hv'.setUnstaking
        (x := ⟨v.unstaking.amount + f.vote.amount, v.unstaking.symbol⟩)
        ⟨hv'.unstaking.1, Int.add_nonneg hv'.unstaking.2 hf'.vote.2⟩ env.currentBlockNum)
      fixvotes := hc.fixvotes.put ⟨hf'.staked, hf'.whole, hf'.age, isCoin_zero, fun _ => rfl⟩
      bps := hc.bps.put hp }
  | @claim voter bpname act bp newest reward votes fixvotes hact hbp hn hrw hage h0 hle =>
    obtain ⟨age, hcv, hcf⟩ := newestVoteage_eq hn
    have hact' : IsCoin act.available := hc.accounts _ _ hact
    have hbp' : IsPool bp.rewardsPool := hc.bps _ _ hbp
    have hvotes : votes.All fun _ _ v => VoteOk v := by
      rcases (claimVote_spec hcv).2 with ⟨rfl, -⟩ | ⟨v, hv, rfl⟩
      · exact hc.votes
      · have hv' : VoteOk v := hc.votes _ _ _ hv
        exact hc.votes.put (hv'.clean _)
    have hfix : fixvotes.All fun _ v => FixVoteOk v := by
      have := claimFixVotes_all env.currentBlockNum bpname
        (hc.fixvotes.scope voter) (fun _ _ hv => FixVoteOk.cleanAge hv _) age
      rwa [show s.ledger.fixvotes = s.fixvotes from rfl, hcf] at this
    have h1 := hact'.2
    refine { hc with
      accounts := hc.accounts.put (hact'.credit (by omega)), votes := hvotes
      fixvotes := hc.fixvotes.setScope hfix, bps := hc.bps.put ⟨⟨hbp'.1.1, ?_⟩, ?_⟩ }
    · simp only; omega
    · have := hbp'.2; simp only; omega
  | @bpclaim bpname act blockreward bpsreward x y hact hx hy hpos =>
    have hact' : IsCoin act.available := hc.accounts _ _ hact
    have h1 := hact'.2
    refine { hc with
      accounts := hc.accounts.put (hact'.credit (by omega)), blockreward := ?_, bpsreward := ?_ }
    · rcases hy with ⟨-, -, rfl⟩ | ⟨r, hr, -, rfl⟩
      · exact hc.bpsreward
      · exact hc.bpsreward.put isCoin_zero
    · rcases hx with ⟨-, rfl⟩ | ⟨br, br', hbr, rfl, hlt, he⟩
      · exact hc.blockreward
      · intro r hr
        cases hr
        rw [he]
        exact ⟨(hc.blockreward br hbr).1, by simp only; omega⟩
  | other ha hv hv4 hf hb hco => exact hco hc

/-! ## The total -/

namespace Ledger

/-- The tokens of a vote. -/
def voteCoins (v : VoteInfo) : Int := v.voteage.staked.amount + v.unstaking.amount

/-- All core tokens of the ledger. -/
def coreTotal (l : Ledger) : Int :=
  (l.accounts.sum fun _ a => a.available.amount) + (l.votes.sum fun _ _ v => voteCoins v) +
    (l.votes4ram.sum fun _ _ v => voteCoins v) + (l.fixvotes.sum fun _ _ v => v.vote.amount) +
    (l.bps.sum fun _ b => b.rewardsPool.amount) + (l.bpsreward.sum fun _ r => r.amount) +
    l.blockreward.elim 0 fun br => br.rewardBlockOut.amount

end Ledger

/-- All core tokens of a state. -/
def coreTotal (s : State) : Int := s.ledger.coreTotal

open Ledger

theorem sum_accounts_credit {t : Table Name AccountInfo} {k : Name} {act : AccountInfo}
    (h : t.find k = some act) (x : Int) :
    ((t.put k (act.credit x)).sum fun _ a => a.available.amount) =
      (t.sum fun _ a => a.available.amount) + x := by
  rw [Table.sum_put_of_find _ _ h, AccountInfo.credit_amount]; omega

theorem sum_votes_put (t : Scoped Name Name VoteInfo) (voter bpname : Name) (v : VoteInfo) :
    ((t.put voter bpname v).sum fun _ _ v => voteCoins v) =
      (t.sum fun _ _ v => voteCoins v) + (voteCoins v -
        voteCoins ((t.find voter bpname).getD {})) := by
  rw [Scoped.sum_put, Scoped.val_eq_getD (d := {}) (by rfl)]; omega

/-- A row of a bp with its rewards pool kept. -/
theorem sum_pools_put (b' : BpInfo) {t : Table Name BpInfo} {k : Name} {b : BpInfo}
    (h : t.find k = some b)
    (e : b'.rewardsPool = b.rewardsPool) :
    ((t.put k b').sum fun _ b => b.rewardsPool.amount) =
      t.sum fun _ b => b.rewardsPool.amount :=
  Table.sum_put_same h (congrArg Asset.amount e)

/-- Stake moved from one bp to another keeps the rewards pools. -/
theorem sum_pools_move {t : Table Name BpInfo} {k k' : Name} {r r' : BpInfo} (hne : k ≠ k')
    (h : t.find k = some r) (h' : t.find k' = some r') (n : Nat) (x y : Int) :
    (((t.put k (r.addTotalStaked n x)).put k' (r'.addTotalStaked n y)).sum
      fun _ b => b.rewardsPool.amount) = t.sum fun _ b => b.rewardsPool.amount := by
  rw [sum_pools_put (r'.addTotalStaked n y) ((Table.find_put_ne t _ hne).trans h') rfl,
    sum_pools_put (r.addTotalStaked n x) h rfl]

theorem sum_fixvotes_put {t : Scoped Name Nat FixTimeVoteInfo} {voter : Name} {k : Nat}
    {f f' : FixTimeVoteInfo} (h : t.find voter k = some f) :
    ((t.put voter k f').sum fun _ _ v => v.vote.amount) =
      (t.sum fun _ _ v => v.vote.amount) + (f'.vote.amount - f.vote.amount) := by
  rw [Scoped.sum_put, Scoped.val_of_find h]; omega

/-- What a transfer between accounts of the same table keeps. -/
theorem sum_accounts_transfer {t : Table Name AccountInfo} {src dst : Name} {x y : AccountInfo}
    {q : Int} (hx : t.find src = some x) (hy : (t.put src (x.credit (-q))).find dst = some y) :
    (((t.put src (x.credit (-q))).put dst (y.credit q)).sum fun _ a => a.available.amount) =
      t.sum fun _ a => a.available.amount := by
  rw [sum_accounts_credit hy, sum_accounts_credit hx]; omega

/-- The actions that move tokens keep the total. -/
theorem Change.coreTotal (hch : Change env s a l) (hc : Coins s.ledger) (ha : a.moves = true) :
    l.coreTotal = s.ledger.coreTotal := by
  cases hch with
  | @transfer src dst q memo x y hx hsym h0 hle hy =>
    simp only [Ledger.coreTotal, sum_accounts_transfer hx hy]
    rfl
  | @updatebp bpname key rate url b hb =>
    have hval : (s.bps.put bpname b).sum (fun _ b => b.rewardsPool.amount) =
        s.bps.sum fun _ b => b.rewardsPool.amount := by
      rw [Table.sum_put, Table.val_eq_getD (d := {}) (by rfl), hb]; simp only; omega
    simp only [Ledger.coreTotal, hval]
    rfl
  | @cast typ voter bpname stake act bp change v hact hbp hst hw hrow hle hblack =>
    have hv : voteCoins v = voteCoins (((s.votesTbl typ).find voter bpname).getD {}) +
        max 0 change := by
      simp only [voteCoins, hrow.voteage, hrow.unstaking, AssetAge.changeStakedTo, hrow.change_eq]
      omega
    have hp := sum_pools_put (bp.stakeBy env.currentBlockNum change) hbp
      (BpInfo.stakeBy_rewardsPool _ _ _)
    cases typ <;>
      simp only [Ledger.coreTotal, Ledger.setVotesTbl, State.votesTbl, State.ledger, sum_votes_put,
        sum_accounts_credit hact, hp] at hv ⊢ <;> omega
  | @revote voter frombp tobp restake bpf bpt vf vt hne hst hpos hw hbpf hbpt hvf hle hvt =>
    simp only [Ledger.coreTotal, State.ledger, sum_votes_put, hvf,
      Scoped.find_put_ne _ _ fun e => hne e.2, hvt, Option.getD_some, sum_pools_move hne hbpf hbpt]
    simp only [voteCoins, AssetAge.changeStakedTo]
    omega
  | @unfreeze typ voter bpname act v hact hv hpos =>
    cases typ <;> simp only [State.votesTbl] at hv <;>
      simp only [Ledger.coreTotal, Ledger.setVotesTbl, State.votesTbl, State.ledger, sum_votes_put,
        sum_accounts_credit hact, hv, Option.getD_some] <;>
      simp only [voteCoins] <;> omega
  | @votefix voter bpname typ stake stakeTyp key d act bp accounts votes f hd hbp hact hst hpos hw
      hblack htake hkey hf =>
    have hsrc : (accounts.sum fun _ a => a.available.amount) +
        (votes.sum fun _ _ v => voteCoins v) + stake.amount =
        (s.accounts.sum fun _ a => a.available.amount) +
          (s.votes.sum fun _ _ v => voteCoins v) := by
      rcases htake with ⟨rfl, -, rfl⟩ | ⟨rfl, v, hv, -, rfl⟩
      · rw [sum_accounts_credit hact]; omega
      · rw [sum_votes_put, hv]; simp only [Option.getD_some, voteCoins]; omega
    have hfv : f.vote.amount = stake.amount := by rw [hf]
    simp only [Ledger.coreTotal, State.ledger, Scoped.sum_put, Scoped.val_of_none hkey, hfv,
      sum_pools_put (bp.addTotalStaked _ _) hbp rfl]
    omega
  | @revotefix voter key bpname f bpf bpt hf hne hwd hlt hblack hbpf hbpt hage =>
    simp only [Ledger.coreTotal, State.ledger, sum_fixvotes_put hf,
      sum_pools_move hne hbpf hbpt, FixTimeVoteInfo.cleanAge]
    omega
  | @outfixvote voter key f bp v hf hbp hle hwd hv =>
    simp only [Ledger.coreTotal, State.ledger, sum_votes_put, hv, sum_fixvotes_put hf,
      sum_pools_put (bp.addTotalStaked _ _) hbp rfl]
    simp only [voteCoins, Asset.zero]
    omega
  | @claim voter bpname act bp newest reward votes fixvotes hact hbp hn hrw hage h0 hle =>
    obtain ⟨age, hcv, hcf⟩ := newestVoteage_eq hn
    have hvotes : (votes.sum fun _ _ v => voteCoins v) = s.votes.sum fun _ _ v => voteCoins v := by
      rcases (claimVote_spec hcv).2 with ⟨rfl, -⟩ | ⟨v, hv, rfl⟩
      · rfl
      · rw [sum_votes_put, hv]; simp [voteCoins, VoteInfo.clean, AssetAge.cleanAge]
    have hfix : (fixvotes.sum fun _ v => v.vote.amount) =
        (s.fixvotes.scope voter).sum fun _ v => v.vote.amount := by
      have := claimFixVotes_sum env.currentBlockNum bpname
        (s.fixvotes.scope voter) age fun _ v => v.vote.amount
      rw [hcf] at this
      rw [this]
      apply Table.sum_congr
      intro k v hv
      have hok : FixVoteOk v := hc.fixvotes _ _ _ hv
      unfold claimedFixVote
      split
      · split
        · rename_i hw; exact (hok.withdrawn hw).symm
        · rfl
      · rfl
    simp only [Ledger.coreTotal, State.ledger, sum_accounts_credit hact, hvotes, Scoped.sum_setScope,
      hfix, Table.sum_put_of_find _ _ hbp]
    omega
  | @bpclaim bpname act blockreward bpsreward x y hact hx hy hpos =>
    have hbr : (blockreward.elim 0 fun br => br.rewardBlockOut.amount) + x =
        s.blockreward.elim 0 fun br => br.rewardBlockOut.amount := by
      rcases hx with ⟨rfl, rfl⟩ | ⟨br, br', hbr, rfl, hlt, he⟩
      · omega
      · simp only [hbr, Option.elim_some, he]; omega
    have hr : (bpsreward.sum fun _ r => r.amount) + y = s.bpsreward.sum fun _ r => r.amount := by
      rcases hy with ⟨rfl, -, rfl⟩ | ⟨r, hr, rfl, rfl⟩
      · omega
      · rw [Table.sum_put_of_find _ _ hr]; simp only [Asset.zero]; omega
    simp only [Ledger.coreTotal, State.ledger, sum_accounts_credit hact]
    omega
  | other hmv hv hv4 hf hb hco => rw [ha] at hmv; cases hmv

/-! ## Runs -/

theorem Genesis.votes_all {s : State} (hg : Genesis s) (P : Name → Name → VoteInfo → Prop) :
    s.votes.All P := by rw [hg.votes]; exact Scoped.all_empty _

theorem Genesis.votes4ram_all {s : State} (hg : Genesis s) (P : Name → Name → VoteInfo → Prop) :
    s.votes4ram.All P := by rw [hg.votes4ram]; exact Scoped.all_empty _

theorem Genesis.fixvotes_all {s : State} (hg : Genesis s)
    (P : Name → Nat → FixTimeVoteInfo → Prop) : s.fixvotes.All P := by
  rw [hg.fixvotes]; exact Scoped.all_empty _

/-- A state before any action holds no negative amount. -/
theorem Genesis.coins {s : State} (hg : Genesis s) : Coins s.ledger where
  accounts := hg.accounts
  votes := hg.votes_all _
  votes4ram := hg.votes4ram_all _
  fixvotes := hg.fixvotes_all _
  bps := fun k b hb => by
    have he : b.rewardsPool = Asset.zero := (hg.bps k b hb).2.1
    simp only [he]
    exact isPool_zero
  bpsreward := by rw [show s.ledger.bpsreward = ∅ from hg.bpsreward]; exact Table.all_empty _
  blockreward := fun br hbr => by
    rw [show s.ledger.blockreward = none from hg.blockreward] at hbr; cases hbr

theorem Step.change {p q : Point} {a : Env × Action} (h : Step p a q) :
    Change a.1 p.state a.2 q.state.ledger := by
  obtain ⟨-, -, fx, hfx⟩ := h
  exact exec_change hfx

/-- No amount is negative in a reachable state. -/
theorem Reachable.coins {p : Point} (h : Reachable p) : Coins p.state.ledger :=
  h.inv (I := fun p => Coins p.state.ledger) (fun _ hg => hg.coins)
    fun _ _ _ hI hs => hs.change.coins hI

/-- Two accounts, 50 tokens in the first, and two bps. -/
def founding : State :=
  { accounts := ((∅ : Table Name AccountInfo).put 1 ⟨⟨500000, coreSymbol⟩⟩).put 2 {}
    bps := ((∅ : Table Name BpInfo).put 7 {}).put 8 {} }

theorem founding_genesis : Genesis founding :=
  .of_rows (((Table.all_empty _).put ⟨rfl, by decide⟩).put ⟨rfl, by decide⟩)
    (((Table.all_empty _).put ⟨rfl, rfl, rfl, rfl⟩).put ⟨rfl, rfl, rfl, rfl⟩)

theorem founding_reachable : Reachable ⟨founding, 0⟩ :=
  ⟨founding, [], founding_genesis, .nil⟩

end Eosforce.System
