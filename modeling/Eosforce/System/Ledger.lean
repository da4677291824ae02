import Eosforce.System.Exec

/-!
# What an action does to tokens, stakes and ages

* `Ledger`: the tables that hold them.
* `Change env s a l`: from state `s`, action `a` leads to the ledger `l`: one case for each action
  on votes and for each other action that moves tokens (`Action.moves`), and one for all the rest,
  which keep the votes and the stakes of the bps (`SameStakes`).
* `exec_change`: a successful action is such a change. The invariants of votes and tokens are case
  analyses on it, and do not open the actions again.
* `Coins`: core tokens that are not negative, in every table.
-/

namespace Eosforce.System

open Fallible Keyed Runs

/-- The tables that core tokens, stakes and ages live in. -/
structure Ledger where
  accounts : Table Name AccountInfo
  votes : Scoped Name Name VoteInfo
  votes4ram : Scoped Name Name VoteInfo
  fixvotes : Scoped Name Nat FixTimeVoteInfo
  bps : Table Name BpInfo
  bpsreward : Table Name Asset
  blockreward : Option BlockReward
  gvotestat : Option Int

namespace Ledger

/-- The table of a kind of votes. -/
def votesTbl (l : Ledger) : VoteTyp → Scoped Name Name VoteInfo
  | .votes => l.votes
  | .votes4ram => l.votes4ram

def setVotesTbl (l : Ledger) (typ : VoteTyp) (tbl : Scoped Name Name VoteInfo) : Ledger :=
  match typ with
  | .votes => { l with votes := tbl }
  | .votes4ram => { l with votes4ram := tbl }

end Ledger

/-- The ledger of a state. -/
def State.ledger (s : State) : Ledger :=
  { accounts := s.accounts, votes := s.votes, votes4ram := s.votes4ram, fixvotes := s.fixvotes,
    bps := s.bps, bpsreward := s.bpsreward, blockreward := s.blockreward, gvotestat := s.gvotestat }

theorem ledger_votesTbl (s : State) (typ : VoteTyp) :
    s.ledger.votesTbl typ = s.votesTbl typ := by cases typ <;> rfl

/-! ## Coins -/

/-- A core-token amount that is not negative. -/
def IsCoin (a : Asset) : Prop := a.symbol = coreSymbol ∧ 0 ≤ a.amount

theorem isCoin_zero : IsCoin Asset.zero := ⟨rfl, le_refl _⟩

/-- A coin below the limit of an asset: what a rewards pool, which only asset operators change, is. -/
def IsPool (a : Asset) : Prop := IsCoin a ∧ a.amount ≤ Asset.maxAmount

theorem isPool_zero : IsPool Asset.zero := ⟨isCoin_zero, by decide⟩

/-- Core tokens staked on a bp: whole tokens. -/
structure VoteOk (v : VoteInfo) : Prop where
  staked : IsCoin v.voteage.staked
  whole : coreSymbolPrecision ∣ v.voteage.staked.amount
  age : 0 ≤ v.voteage.age
  unstaking : IsCoin v.unstaking

/-- A fix-time vote: the powered stake is in whole tokens, and a withdrawn vote holds no token. -/
structure FixVoteOk (v : FixTimeVoteInfo) : Prop where
  staked : IsCoin v.votepowerAge.staked
  whole : coreSymbolPrecision ∣ v.votepowerAge.staked.amount
  age : 0 ≤ v.votepowerAge.age
  vote : IsCoin v.vote
  withdrawn : v.isWithdraw = true → v.vote.amount = 0

/-- Every amount of the ledger is a core-token amount that is not negative. -/
structure Coins (l : Ledger) : Prop where
  accounts : l.accounts.All fun _ a => IsCoin a.available
  votes : l.votes.All fun _ _ v => VoteOk v
  votes4ram : l.votes4ram.All fun _ _ v => VoteOk v
  fixvotes : l.fixvotes.All fun _ _ v => FixVoteOk v
  bps : l.bps.All fun _ b => IsPool b.rewardsPool
  bpsreward : l.bpsreward.All fun _ r => IsCoin r
  blockreward : ∀ br, l.blockreward = some br → IsCoin br.rewardBlockOut

theorem Coins.votesTbl {l : Ledger} (h : Coins l) (typ : VoteTyp) :
    (l.votesTbl typ).All fun _ _ v => VoteOk v := by
  cases typ
  · exact h.votes
  · exact h.votes4ram

/-- The default row of a vote is fine. -/
theorem voteOk_default : VoteOk {} :=
  ⟨isCoin_zero, ⟨0, by decide⟩, le_refl _, isCoin_zero⟩

/-! ## Changes of rows -/

namespace AccountInfo

/-- The account with `x` more units. -/
def credit (a : AccountInfo) (x : Int) : AccountInfo :=
  { a with available := { a.available with amount := a.available.amount + x } }

@[simp] theorem credit_amount (a : AccountInfo) (x : Int) :
    (a.credit x).available.amount = a.available.amount + x := rfl

@[simp] theorem credit_symbol (a : AccountInfo) (x : Int) :
    (a.credit x).available.symbol = a.available.symbol := rfl

theorem credit_zero (a : AccountInfo) : a.credit 0 = a := by simp [credit]

end AccountInfo

/-- The vote, or the default row, after `castVote`. -/
structure CastRow (currBlockNum : Nat) (old : VoteInfo) (stake : Asset) (change : Int)
    (v : VoteInfo) : Prop where
  change_eq : change = stake.amount - old.voteage.staked.amount
  voteage : v.voteage = old.voteage.changeStakedTo currBlockNum stake
  unstaking : v.unstaking = { old.unstaking with amount := old.unstaking.amount + max 0 (-change) }

/-- Two tables of bps agree on stakes and ages; a missing row has none. -/
def SameStakes (t t' : Table Name BpInfo) : Prop := ∀ k,
  ((t'.find k).getD {}).totalStaked = ((t.find k).getD {}).totalStaked ∧
  ((t'.find k).getD {}).totalVoteage = ((t.find k).getD {}).totalVoteage ∧
  ((t'.find k).getD {}).voteageUpdateHeight = ((t.find k).getD {}).voteageUpdateHeight

theorem SameStakes.refl (t : Table Name BpInfo) : SameStakes t t := fun _ => ⟨rfl, rfl, rfl⟩

theorem SameStakes.trans {t u v : Table Name BpInfo} (h : SameStakes t u) (h' : SameStakes u v) :
    SameStakes t v := fun k =>
  ⟨(h' k).1.trans (h k).1, (h' k).2.1.trans (h k).2.1, (h' k).2.2.trans (h k).2.2⟩

/-- A replaced row with the stake and age of the old one. -/
theorem SameStakes.put (t : Table Name BpInfo) (k : Name) {b : BpInfo}
    (h1 : b.totalStaked = ((t.find k).getD {}).totalStaked)
    (h2 : b.totalVoteage = ((t.find k).getD {}).totalVoteage)
    (h3 : b.voteageUpdateHeight = ((t.find k).getD {}).voteageUpdateHeight) :
    SameStakes t (t.put k b) := fun k' => by
  rw [Table.find_put]
  split
  · subst_vars; exact ⟨h1, h2, h3⟩
  · exact ⟨rfl, rfl, rfl⟩

/-! ## Changes of the ledger -/

/-- The action that `vote_by_typ_imp` is the body of. -/
def castAction : VoteTyp → Name → Name → Asset → Action
  | .votes => .vote
  | .votes4ram => .vote4ram

/-- The action that `unfreeze_by_typ_imp` is the body of. -/
def unfreezeAction : VoteTyp → Name → Name → Action
  | .votes => .unfreeze
  | .votes4ram => .unfreezeram

/-- The actions that move tokens between the tables: all but `onblock`, which creates tokens, and
those that touch none. -/
def Action.moves : Action → Bool
  | .transfer .. | .vote .. | .vote4ram .. | .revote .. | .unfreeze .. | .unfreezeram ..
  | .votefix .. | .revotefix .. | .outfixvote .. | .claim .. | .bpclaim .. | .updatebp .. => true
  | _ => false

/-- The row of the bp after a stake change: settled only for a change. -/
def BpInfo.stakeBy (b : BpInfo) (currBlockNum : Nat) (change : Int) : BpInfo :=
  if change = 0 then b else b.addTotalStaked currBlockNum change

/-- The global stake after a change, where the bps are `bps` then. -/
def stakeTotal (g : Option Int) (bps : Table Name BpInfo) (deta : Int) : Option Int :=
  some (g.getD (bps.sum fun _ b => b.totalStaked) + deta.tdiv coreSymbolPrecision)

/-- The ledger that a successful action leads to. -/
inductive Change (env : Env) (s : State) : Action → Ledger → Prop
  | transfer {src dst : Name} {q : Asset} {memo : String} {a b : AccountInfo} :
    s.accounts.find src = some a → q.symbol = coreSymbol → 0 ≤ q.amount →
    q.amount ≤ a.available.amount →
    (s.accounts.put src (a.credit (-q.amount))).find dst = some b →
    Change env s (.transfer src dst q memo)
      { s.ledger with
        accounts := (s.accounts.put src (a.credit (-q.amount))).put dst (b.credit q.amount) }
  | updatebp {bpname : Name} {key : String} {rate : Nat} {url : String} {b : BpInfo} :
    b = { (s.bps.find bpname).getD {} with blockSigningKey := key, commissionRate := rate, url } →
    Change env s (.updatebp bpname key rate url) { s.ledger with bps := s.bps.put bpname b }
  | cast {typ : VoteTyp} {voter bpname : Name} {stake : Asset} {act : AccountInfo} {bp : BpInfo}
      {change : Int} {v : VoteInfo} :
    s.accounts.find voter = some act → s.bps.find bpname = some bp → IsCoin stake →
    coreSymbolPrecision ∣ stake.amount →
    CastRow env.currentBlockNum (((s.votesTbl typ).find voter bpname).getD {}) stake change v →
    change ≤ act.available.amount → (0 < change → isProducerInBlacklist s bpname = false) →
    Change env s (castAction typ voter bpname stake)
      { s.ledger.setVotesTbl typ ((s.votesTbl typ).put voter bpname v) with
        accounts := s.accounts.put voter (act.credit (-max 0 change))
        bps := s.bps.put bpname (bp.stakeBy env.currentBlockNum change)
        gvotestat :=
          if change = 0 then s.gvotestat
          else stakeTotal s.gvotestat (s.bps.put bpname (bp.stakeBy env.currentBlockNum change))
            change }
  | revote {voter frombp tobp : Name} {restake : Asset} {bpf bpt : BpInfo} {vf vt : VoteInfo} :
    frombp ≠ tobp → IsCoin restake → 0 < restake.amount → coreSymbolPrecision ∣ restake.amount →
    s.bps.find frombp = some bpf → s.bps.find tobp = some bpt →
    s.votes.find voter frombp = some vf → restake.amount ≤ vf.voteage.staked.amount →
    (s.votes.find voter tobp).getD {} = vt →
    Change env s (.revote voter frombp tobp restake)
      { s.ledger with
        votes := (s.votes.put voter frombp { vf with
          voteage := vf.voteage.changeStakedTo env.currentBlockNum
            ⟨vf.voteage.staked.amount - restake.amount, vf.voteage.staked.symbol⟩ }).put voter tobp
          { vt with
            voteage := vt.voteage.changeStakedTo env.currentBlockNum
              ⟨vt.voteage.staked.amount + restake.amount, coreSymbol⟩ }
        bps := (s.bps.put frombp (bpf.addTotalStaked env.currentBlockNum (-restake.amount))).put tobp
          (bpt.addTotalStaked env.currentBlockNum restake.amount) }
  | unfreeze {typ : VoteTyp} {voter bpname : Name} {act : AccountInfo} {v : VoteInfo} :
    s.accounts.find voter = some act → (s.votesTbl typ).find voter bpname = some v →
    0 < v.unstaking.amount →
    Change env s (unfreezeAction typ voter bpname)
      { s.ledger.setVotesTbl typ ((s.votesTbl typ).put voter bpname
          { v with unstaking := { v.unstaking with amount := 0 } }) with
        accounts := s.accounts.put voter (act.credit v.unstaking.amount) }
  | votefix {voter bpname typ : Name} {stake : Asset} {stakeTyp key : Nat} {d : FixVoteData}
      {act : AccountInfo} {bp : BpInfo} {accounts : Table Name AccountInfo}
      {votes : Scoped Name Name VoteInfo} {f : FixTimeVoteInfo} :
    getDataByTyp typ = some d → s.bps.find bpname = some bp → s.accounts.find voter = some act →
    IsCoin stake → 0 < stake.amount → coreSymbolPrecision ∣ stake.amount →
    isProducerInBlacklist s bpname = false →
    (accounts = s.accounts.put voter (act.credit (-stake.amount)) ∧
        stake.amount ≤ act.available.amount ∧ votes = s.votes ∨
      accounts = s.accounts ∧ ∃ v, s.votes.find voter bpname = some v ∧
        stake.amount < v.unstaking.amount ∧
        votes = s.votes.put voter bpname
          { v with unstaking := ⟨v.unstaking.amount - stake.amount, v.unstaking.symbol⟩ }) →
    s.fixvotes.find voter key = none →
    f = { bpname, fvoteTyp := typ, startBlockNum := env.currentBlockNum,
          withdrawBlockNum := u32 (env.currentBlockNum + u32 (d.days * blockNumPerDay)),
          vote := stake,
          votepowerAge :=
            { staked := ⟨stake.amount * d.power, coreSymbol⟩
              updateHeight := env.currentBlockNum } } →
    Change env s (.votefix voter bpname typ stake stakeTyp)
      { s.ledger with
        accounts
        votes
        fixvotes := s.fixvotes.put voter key f
        bps := s.bps.put bpname (bp.addTotalStaked env.currentBlockNum (stake.amount * d.power))
        gvotestat := stakeTotal s.gvotestat
          (s.bps.put bpname (bp.addTotalStaked env.currentBlockNum (stake.amount * d.power)))
          (stake.amount * d.power) }
  | revotefix {voter : Name} {key : Nat} {bpname : Name} {f : FixTimeVoteInfo} {bpf bpt : BpInfo} :
    s.fixvotes.find voter key = some f → f.bpname ≠ bpname → f.isWithdraw = false →
    env.currentBlockNum < f.withdrawBlockNum → isProducerInBlacklist s bpname = false →
    s.bps.find f.bpname = some bpf → s.bps.find bpname = some bpt →
    f.getAge env.currentBlockNum = 0 →
    Change env s (.revotefix voter key bpname)
      { s.ledger with
        fixvotes := s.fixvotes.put voter key ({ f with bpname }.cleanAge env.currentBlockNum)
        bps := (s.bps.put f.bpname
            (bpf.addTotalStaked env.currentBlockNum (-f.votepowerAge.staked.amount))).put bpname
          (bpt.addTotalStaked env.currentBlockNum f.votepowerAge.staked.amount) }
  | outfixvote {voter : Name} {key : Nat} {f : FixTimeVoteInfo} {bp : BpInfo} {v : VoteInfo} :
    s.fixvotes.find voter key = some f → s.bps.find f.bpname = some bp →
    f.withdrawBlockNum ≤ env.currentBlockNum → f.isWithdraw = false →
    (s.votes.find voter f.bpname).getD {} = v →
    Change env s (.outfixvote voter key)
      { s.ledger with
        votes := s.votes.put voter f.bpname
          { v with
            unstaking := ⟨v.unstaking.amount + f.vote.amount, v.unstaking.symbol⟩
            unstakeHeight := env.currentBlockNum }
        fixvotes := s.fixvotes.put voter key { f with vote := Asset.zero, isWithdraw := true }
        bps := s.bps.put f.bpname
          (bp.addTotalStaked env.currentBlockNum (-f.votepowerAge.staked.amount))
        gvotestat := stakeTotal s.gvotestat
          (s.bps.put f.bpname
            (bp.addTotalStaked env.currentBlockNum (-f.votepowerAge.staked.amount)))
          (-f.votepowerAge.staked.amount) }
  | claim {voter bpname : Name} {act : AccountInfo} {bp : BpInfo} {newest reward : Int}
      {votes : Scoped Name Name VoteInfo} {fixvotes : Table Nat FixTimeVoteInfo} :
    s.accounts.find voter = some act → s.bps.find bpname = some bp →
    newestVoteage env.currentBlockNum s voter bpname = (newest, votes, fixvotes) →
    reward = claimReward bp newest (bp.getAge env.currentBlockNum) →
    0 < bp.getAge env.currentBlockNum → 0 ≤ reward → reward ≤ bp.rewardsPool.amount →
    Change env s (.claim voter bpname)
      { s.ledger with
        accounts := s.accounts.put voter (act.credit reward)
        votes
        fixvotes := s.fixvotes.setScope voter fixvotes
        bps := s.bps.put bpname
          { bp with
            rewardsPool := ⟨bp.rewardsPool.amount - reward, bp.rewardsPool.symbol⟩
            totalVoteage := bp.getAge env.currentBlockNum - newest
            voteageUpdateHeight := env.currentBlockNum } }
  | bpclaim {bpname : Name} {act : AccountInfo} {blockreward : Option BlockReward}
      {bpsreward : Table Name Asset} {x y : Int} :
    s.accounts.find bpname = some act →
    (x = 0 ∧ blockreward = s.blockreward ∨ ∃ br br', s.blockreward = some br ∧
      blockreward = some br' ∧ x < br.rewardBlockOut.amount ∧
      br'.rewardBlockOut = ⟨br.rewardBlockOut.amount - x, br.rewardBlockOut.symbol⟩) →
    (y = 0 ∧ s.bpsreward.find bpname = none ∧ bpsreward = s.bpsreward ∨
      ∃ r, s.bpsreward.find bpname = some r ∧ y = r.amount ∧
        bpsreward = s.bpsreward.put bpname Asset.zero) →
    0 < y + x →
    Change env s (.bpclaim bpname)
      { s.ledger with
        accounts := s.accounts.put bpname (act.credit (y + x))
        blockreward
        bpsreward }
  | other {a : Action} {l : Ledger} :
    a.moves = false → l.votes = s.votes → l.votes4ram = s.votes4ram → l.fixvotes = s.fixvotes →
    SameStakes s.bps l.bps → (Coins s.ledger → Coins l) → Change env s a l

end Eosforce.System
