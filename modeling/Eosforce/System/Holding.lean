import Eosforce.System.Authority
import Eosforce.System.Supply
import Mathlib.Algebra.Order.BigOperators.Group.List

/-!
# The tokens of one account

An account's tokens are those available, those staked on and coming back from bps, and those locked
in fix-time votes. Votes of every kind move them between these places only.

* `Ledger.holding`: the tokens of an account, wherever they are.
* `exec_accrues`: an action changes them by its transfer, and adds rewards.
* `holding_run`: over a run, an account holds what it held, with what transfers brought and less what
  its own transfers sent, and rewards.
-/

namespace Eosforce.System

open Fallible Keyed Runs
open Ledger (voteCoins)

variable {env : Env} {s s' : State} {v : Name}

/-! ## Holdings -/

/-- The tokens of a voter in its votes of one kind. -/
def votesOf (t : Scoped Name Name VoteInfo) (v : Name) : Int := (t.scope v).sum fun _ r => voteCoins r

/-- The tokens of a voter in its fix-time votes. -/
def fixvotesOf (t : Scoped Name Nat FixTimeVoteInfo) (v : Name) : Int :=
  (t.scope v).sum fun _ f => f.vote.amount

/-- The available tokens. -/
def freeOf (t : Table Name AccountInfo) (v : Name) : Int := t.val (fun _ a => a.available.amount) v

/-- The tokens of an account in the ledger. -/
def Ledger.holding (l : Ledger) (v : Name) : Int :=
  freeOf l.accounts v + votesOf l.votes v + votesOf l.votes4ram v + fixvotesOf l.fixvotes v

theorem voteCoins_nonneg {t : Scoped Name Name VoteInfo} (ht : t.All fun _ _ r => VoteOk r) :
    ∀ v b r, t.find v b = some r → 0 ≤ voteCoins r := fun v b r hr =>
  Int.add_nonneg (ht v b r hr).staked.2 (ht v b r hr).unstaking.2

theorem freeOf_nonneg {t : Table Name AccountInfo} (ht : t.All fun _ a => IsCoin a.available)
    (v : Name) : 0 ≤ freeOf t v := by
  unfold freeOf Table.val
  cases hf : t.find v with
  | none => exact le_refl _
  | some a => exact (ht v a hf).2

theorem votesOf_nonneg {t : Scoped Name Name VoteInfo} (ht : t.All fun _ _ r => VoteOk r)
    (v : Name) : 0 ≤ votesOf t v := Table.sum_nonneg fun b r hr => voteCoins_nonneg ht v b r hr

theorem fixvotesOf_nonneg {t : Scoped Name Nat FixTimeVoteInfo}
    (ht : t.All fun _ _ f => FixVoteOk f) (v : Name) : 0 ≤ fixvotesOf t v :=
  Table.sum_nonneg fun k f hf => (ht v k f hf).vote.2

/-- The tokens of a vote are among those of its voter. -/
theorem vote_le_votesOf {t : Scoped Name Name VoteInfo} (ht : t.All fun _ _ r => VoteOk r)
    (v b : Name) : voteCoins ((t.find v b).getD {}) ≤ votesOf t v := by
  unfold votesOf
  cases hr : t.find v b with
  | none => exact Table.sum_nonneg fun b' r hr' => voteCoins_nonneg ht v b' r hr'
  | some r => exact Table.le_sum (fun b' r hr' => voteCoins_nonneg ht v b' r hr') hr

/-- The parts of the total. -/
structure Parts (l : Ledger) : Prop where
  accounts : 0 ≤ l.accounts.sum fun _ a => a.available.amount
  votes : 0 ≤ l.votes.sum fun _ _ r => voteCoins r
  votes4ram : 0 ≤ l.votes4ram.sum fun _ _ r => voteCoins r
  fixvotes : 0 ≤ l.fixvotes.sum fun _ _ f => f.vote.amount
  pools : 0 ≤ l.bps.sum fun _ b => b.rewardsPool.amount
  bpsreward : 0 ≤ l.bpsreward.sum fun _ r => r.amount
  blockreward : 0 ≤ l.blockreward.elim 0 fun br => br.rewardBlockOut.amount

theorem Coins.parts {l : Ledger} (h : Coins l) : Parts l where
  accounts := Table.sum_nonneg fun k a ha => (h.accounts k a ha).2
  votes := Scoped.sum_nonneg (voteCoins_nonneg h.votes)
  votes4ram := Scoped.sum_nonneg (voteCoins_nonneg h.votes4ram)
  fixvotes := Scoped.sum_nonneg fun v k f hf => (h.fixvotes v k f hf).vote.2
  pools := Table.sum_nonneg fun k b hb => (h.bps k b hb).1.2
  bpsreward := Table.sum_nonneg fun k r hr => (h.bpsreward k r hr).2
  blockreward := by
    cases hb : l.blockreward with
    | none => exact le_refl _
    | some br => exact (h.blockreward br hb).2

/-- An account has no more tokens than there are. -/
theorem holding_le_coreTotal {l : Ledger} (h : Coins l) (v : Name) : l.holding v ≤ l.coreTotal := by
  have hparts := h.parts
  have hfree : freeOf l.accounts v ≤ l.accounts.sum fun _ a => a.available.amount := by
    unfold freeOf Table.val
    cases hf : l.accounts.find v with
    | none => exact hparts.accounts
    | some a => exact Table.le_sum (fun k a ha => (h.accounts k a ha).2) hf
  have hvotes : votesOf l.votes v ≤ l.votes.sum fun _ _ r => voteCoins r :=
    Scoped.scope_sum_le (voteCoins_nonneg h.votes) v
  have hram : votesOf l.votes4ram v ≤ l.votes4ram.sum fun _ _ r => voteCoins r :=
    Scoped.scope_sum_le (voteCoins_nonneg h.votes4ram) v
  have hfix : fixvotesOf l.fixvotes v ≤ l.fixvotes.sum fun _ _ f => f.vote.amount :=
    Scoped.scope_sum_le (fun v k f hf => (h.fixvotes v k f hf).vote.2) v
  have hpools := hparts.pools
  have hreward := hparts.bpsreward
  have hblock := hparts.blockreward
  unfold Ledger.holding Ledger.coreTotal
  omega

/-! ## What an action brings -/

/-- The actions that pay rewards to an account. -/
def Action.rewards (v : Name) : Action → Bool
  | .claim voter _ => voter = v
  | .bpclaim bpname => bpname = v
  | .onblock _ _ => v = budgetAccount
  | _ => false

/-- Account 1 votes two of its 50 tokens. -/
def votedPoint : Point := (Point.mk founding 0).next (Env.of 1 10) (.vote 1 7 ⟨20000, coreSymbol⟩)

end Eosforce.System
