import Eosforce.System.Stake
import Mathlib.Tactic.Ring

/-!
# The ages of votes and bps

A vote and a bp both age by their stake with every block, and settle at different times. Seen as
accruals (`Lib/Accrual.lean`), an action changes the rates of the bp and of the votes at the same
time by the same amount, so the difference between the age of a bp and the sum of the ages of its
votes does not change; `claim` takes the same age from both; a fix-time vote stops ageing before its
bp does.

* `Heights`, `Locks`: no stored height is above the chain's, and a fix-time vote does not start after
  its withdrawal height. The latter holds as long as each lock ends below `2^32` (`LockFits`).
* `Change.ages`: every action keeps the age of each bp at least the sum of the ages of its votes.
* `ages_le`, `claim_fair`: what this says of the code's ages, and of `claim`.
-/

namespace Eosforce.System

open Fallible Keyed Accruals Runs

variable {env : Env} {s : State} {a : Action} {l : Ledger}

/-! ## Ages as accruals -/

/-- The age of a bp. -/
def BpInfo.accrual (b : BpInfo) : Accrual := ⟨b.totalStaked, b.totalVoteage, b.voteageUpdateHeight⟩

theorem BpInfo.getAge_eq {b : BpInfo} {h : Nat} (hle : b.voteageUpdateHeight ≤ h)
    (hlt : h < 2 ^ 32) : b.getAge h = b.accrual.value h := by
  rw [BpInfo.getAge, u32sub_cast hle hlt]; rfl

theorem BpInfo.addTotalStaked_accrual {b : BpInfo} {h : Nat} (hle : b.voteageUpdateHeight ≤ h)
    (hlt : h < 2 ^ 32) (x : Int) :
    (b.addTotalStaked h x).accrual = b.accrual.addRate h (whole x) := by
  have := BpInfo.getAge_eq hle hlt
  rw [BpInfo.getAge, Int.add_comm] at this
  simp only [BpInfo.accrual, BpInfo.addTotalStaked, Accrual.addRate, whole] at this ⊢
  rw [this]

/-- What `claim` does to the row of a bp. -/
def BpInfo.claimed (b : BpInfo) (currBlockNum : Nat) (rewardsPool : Asset) (newest : Int) :
    BpInfo :=
  { b with
    rewardsPool
    totalVoteage := b.getAge currBlockNum - newest
    voteageUpdateHeight := currBlockNum }

theorem BpInfo.claimed_accrual {b : BpInfo} {h : Nat} (hle : b.voteageUpdateHeight ≤ h)
    (hlt : h < 2 ^ 32) (rewardsPool : Asset) (newest : Int) :
    (b.claimed h rewardsPool newest).accrual = b.accrual.drop h newest := by
  simp only [BpInfo.accrual, BpInfo.claimed, Accrual.drop]
  rw [BpInfo.getAge_eq hle hlt]
  rfl

theorem AssetAge.rate_eq {x : AssetAge} (hx : x.staked.symbol = coreSymbol) :
    x.rate = whole x.staked.amount := by
  unfold AssetAge.rate whole coreSymbolPrecision
  rw [hx]

theorem AssetAge.changeStakedTo_accrual {x : AssetAge} {new : Asset} {h : Nat}
    (hx : x.staked.symbol = coreSymbol) (hn : new.symbol = coreSymbol) (hle : x.updateHeight ≤ h)
    (hlt : h < 2 ^ 32) :
    (x.changeStakedTo h new).accrual =
      x.accrual.addRate h (whole new.amount - whole x.staked.amount) := by
  have h1 : (x.changeStakedTo h new).rate = whole new.amount := AssetAge.rate_eq hn
  simp only [AssetAge.accrual, h1, Accrual.addRate, AssetAge.rate_eq hx]
  rw [← AssetAge.rate_eq hx]
  simp only [AssetAge.changeStakedTo, AssetAge.getAge_eq hle hlt, AssetAge.accrual]
  congr 1
  omega

theorem AssetAge.cleanAge_accrual (x : AssetAge) (h : Nat) :
    (x.cleanAge h).accrual = x.accrual.reset h := rfl

/-- The age of a vote at height `t`. -/
def voteAgeAt (t : Nat) (v : VoteInfo) : Int := v.voteage.accrual.value t

/-- A bound on the age of a fix-time vote at height `t`: a vote that is not withdrawn ages on. -/
def fixVoteAgeAt (t : Nat) (v : FixTimeVoteInfo) : Int :=
  v.votepowerAge.accrual.value (if v.isWithdraw then v.withdrawBlockNum else t)

/-- The age of a bp at height `t`, 0 for an unregistered one. -/
def bpAgeAt (tbl : Table Name BpInfo) (b : Name) (t : Nat) : Int :=
  ((tbl.find b).getD {}).accrual.value t

/-- The ages of the votes for a bp. -/
def Ledger.agesOf (l : Ledger) (b : Name) (t : Nat) : Int :=
  votesFor l.votes b (voteAgeAt t) + votesFor l.votes4ram b (voteAgeAt t) +
    fixVotesFor l.fixvotes b (fixVoteAgeAt t)

theorem voteAgeAt_default (t : Nat) : voteAgeAt t {} = 0 := by
  simp [voteAgeAt, AssetAge.accrual, AssetAge.rate, Accrual.value, Asset.zero]

theorem bpAgeAt_put (tbl : Table Name BpInfo) (k b : Name) (r : BpInfo) (t : Nat) :
    bpAgeAt (tbl.put k r) b t = if k = b then r.accrual.value t else bpAgeAt tbl b t := by
  unfold bpAgeAt
  rw [Table.find_put]
  split <;> rfl

theorem bpAgeAt_of_find {tbl : Table Name BpInfo} {k : Name} {r : BpInfo}
    (h : tbl.find k = some r) (t : Nat) : bpAgeAt tbl k t = r.accrual.value t := by
  unfold bpAgeAt; rw [h]; rfl

/-- A stake change at height `n` changes the later ages at its rate. -/
theorem bpAgeAt_add {tbl : Table Name BpInfo} {k : Name} {r : BpInfo} (h : tbl.find k = some r)
    {n : Nat} (hle : r.voteageUpdateHeight ≤ n) (hlt : n < 2 ^ 32) (b : Name) (x : Int) (t : Nat) :
    bpAgeAt (tbl.put k (r.addTotalStaked n x)) b t =
      bpAgeAt tbl b t + if k = b then whole x * ((t : Int) - n) else 0 := by
  rw [bpAgeAt_put]
  split
  · subst_vars
    rw [bpAgeAt_of_find h, BpInfo.addTotalStaked_accrual hle hlt, Accrual.value_addRate]
  · omega

theorem bpAgeAt_stakeBy {tbl : Table Name BpInfo} {k : Name} {r : BpInfo} (h : tbl.find k = some r)
    {n : Nat} (hle : r.voteageUpdateHeight ≤ n) (hlt : n < 2 ^ 32) (b : Name) (x : Int) (t : Nat) :
    bpAgeAt (tbl.put k (r.stakeBy n x)) b t =
      bpAgeAt tbl b t + if k = b then whole x * ((t : Int) - n) else 0 := by
  unfold BpInfo.stakeBy
  split
  · subst_vars
    rw [Table.put_find h, whole_zero, Int.zero_mul, ite_self, Int.add_zero]
  · exact bpAgeAt_add h hle hlt b x t

/-- Stake moved from one bp to another at height `n` moves the later ages of it. -/
theorem bpAgeAt_move {tbl : Table Name BpInfo} {k k' : Name} {r r' : BpInfo} (hne : k ≠ k')
    (h : tbl.find k = some r) (h' : tbl.find k' = some r') {n : Nat}
    (hle : r.voteageUpdateHeight ≤ n) (hle' : r'.voteageUpdateHeight ≤ n) (hlt : n < 2 ^ 32)
    (b : Name) (x : Int) (t : Nat) :
    bpAgeAt ((tbl.put k (r.addTotalStaked n (-x))).put k' (r'.addTotalStaked n x)) b t =
      bpAgeAt tbl b t - (if k = b then whole x * ((t : Int) - n) else 0) +
        if k' = b then whole x * ((t : Int) - n) else 0 := by
  rw [bpAgeAt_add ((Table.find_put_ne tbl _ hne).trans h') hle' hlt, bpAgeAt_add h hle hlt,
    whole_neg, Int.neg_mul]
  split <;> omega

/-- The age of a vote after a change of its stake at height `n`. -/
theorem voteAgeAt_change (v' : VoteInfo) (new : Asset) {v : VoteInfo} {n : Nat} (hv : VoteOk v)
    (hn : IsCoin new) (hle : v.voteage.updateHeight ≤ n) (hlt : n < 2 ^ 32)
    (h : v'.voteage = v.voteage.changeStakedTo n new) (t : Nat) :
    voteAgeAt t v' - voteAgeAt t v =
      (whole new.amount - whole v.voteage.staked.amount) * ((t : Int) - n) := by
  unfold voteAgeAt
  rw [h, AssetAge.changeStakedTo_accrual hv.staked.1 hn.1 hle hlt, Accrual.value_addRate]
  omega

/-! ## Heights -/

/-- No height that the ledger stores is above `h`. -/
structure Heights (l : Ledger) (h : Nat) : Prop where
  bps : ∀ b, ((l.bps.find b).getD {}).voteageUpdateHeight ≤ h
  votes : l.votes.All fun _ _ v => v.voteage.updateHeight ≤ h
  votes4ram : l.votes4ram.All fun _ _ v => v.voteage.updateHeight ≤ h
  fixvotes : l.fixvotes.All fun _ _ v => v.votepowerAge.updateHeight ≤ h

/-- No fix-time vote was settled after its withdrawal height. -/
def Locks (l : Ledger) : Prop :=
  l.fixvotes.All fun _ _ v => v.votepowerAge.updateHeight ≤ v.withdrawBlockNum

/-- A fix-time vote that the action makes is locked up to a height below `2^32`. -/
def LockFits (a : Env × Action) : Prop :=
  ∀ voter b typ stake stakeTyp d, a.2 = .votefix voter b typ stake stakeTyp →
    getDataByTyp typ = some d → a.1.currentBlockNum + d.days * blockNumPerDay < 2 ^ 32

theorem Heights.mono {h h' : Nat} (hh : Heights l h) (hle : h ≤ h') : Heights l h' :=
  ⟨fun b => (hh.bps b).trans hle, hh.votes.imp fun _ _ _ hv => hv.trans hle,
    hh.votes4ram.imp fun _ _ _ hv => hv.trans hle, hh.fixvotes.imp fun _ _ _ hv => hv.trans hle⟩

theorem Heights.bp {h : Nat} (hh : Heights l h) {k : Name} {r : BpInfo}
    (hr : l.bps.find k = some r) : r.voteageUpdateHeight ≤ h := by
  have := hh.bps k
  rwa [hr] at this

theorem Heights.votesTbl {h : Nat} (hh : Heights l h) (typ : VoteTyp) :
    (l.votesTbl typ).All fun _ _ v => v.voteage.updateHeight ≤ h := by
  cases typ
  · exact hh.votes
  · exact hh.votes4ram

theorem updateHeight_getD {t : Scoped Name Name VoteInfo} {h : Nat}
    (ht : t.All fun _ _ v => v.voteage.updateHeight ≤ h) (voter b : Name) :
    ((t.find voter b).getD {}).voteage.updateHeight ≤ h := by
  cases hf : t.find voter b with
  | none => exact Nat.zero_le _
  | some v => exact ht _ _ _ hf

theorem bps_put {t : Table Name BpInfo} {h : Nat}
    (ht : ∀ b, ((t.find b).getD {}).voteageUpdateHeight ≤ h) {k : Name} {r : BpInfo}
    (hr : r.voteageUpdateHeight ≤ h) (b : Name) :
    (((t.put k r).find b).getD {}).voteageUpdateHeight ≤ h := by
  rw [Table.find_put]
  split
  · exact hr
  · exact ht b

theorem calcBlockNum_le (v : FixTimeVoteInfo) (h : Nat) :
    v.calcBlockNum h ≤ h ∧ v.calcBlockNum h ≤ v.withdrawBlockNum := by
  unfold FixTimeVoteInfo.calcBlockNum
  split <;> omega

/-- The withdrawal height of a lock that fits is not before its start. -/
theorem le_withdrawBlockNum {h days : Nat} (hfit : h + days * blockNumPerDay < 2 ^ 32) :
    h ≤ u32 (h + u32 (days * blockNumPerDay)) := by
  rw [u32_of_lt (n := days * blockNumPerDay) (by omega), u32_of_lt hfit]
  omega

theorem FixTimeVoteInfo.cleanAge_heights (v : FixTimeVoteInfo) (h : Nat) :
    (v.cleanAge h).votepowerAge.updateHeight ≤ h ∧
      (v.cleanAge h).votepowerAge.updateHeight ≤ v.withdrawBlockNum := calcBlockNum_le v h

/-- Every action stores heights up to its block. -/
theorem Change.heights (hch : Change env s a l) (hh : Heights s.ledger env.currentBlockNum) :
    Heights l env.currentBlockNum := by
  cases hch with
  | transfer => exact ⟨hh.bps, hh.votes, hh.votes4ram, hh.fixvotes⟩
  | @updatebp bpname key rate url b hb =>
    exact { hh with bps := bps_put hh.bps (by rw [hb]; exact hh.bps bpname) }
  | @cast typ voter bpname stake act bp change v hact hbp hst hw hrow hle hblack =>
    have hv : v.voteage.updateHeight ≤ env.currentBlockNum := by rw [hrow.voteage]; exact le_refl _
    have hb : (bp.stakeBy env.currentBlockNum change).voteageUpdateHeight ≤ env.currentBlockNum := by
      unfold BpInfo.stakeBy
      split
      · exact hh.bp hbp
      · exact le_refl _
    cases typ
    · exact { hh with bps := bps_put hh.bps hb, votes := hh.votes.put hv }
    · exact { hh with bps := bps_put hh.bps hb, votes4ram := hh.votes4ram.put hv }
  | revote => exact { hh with
      bps := bps_put (bps_put hh.bps (le_refl _)) (le_refl _)
      votes := (hh.votes.put (le_refl _)).put (le_refl _) }
  | @unfreeze typ voter bpname act v hact hv hpos =>
    cases typ
    · have hv' : v.voteage.updateHeight ≤ env.currentBlockNum := hh.votes _ _ _ hv
      exact { hh with votes := hh.votes.put hv' }
    · have hv' : v.voteage.updateHeight ≤ env.currentBlockNum := hh.votes4ram _ _ _ hv
      exact { hh with votes4ram := hh.votes4ram.put hv' }
  | @votefix voter bpname typ stake stakeTyp key d act bp accounts votes f hd hbp hact hst hpos hw
      hblack htake hkey hf =>
    have hvotes : votes.All fun _ _ v => v.voteage.updateHeight ≤ env.currentBlockNum := by
      rcases htake with ⟨-, -, rfl⟩ | ⟨-, v, hv, -, rfl⟩
      · exact hh.votes
      · have hv' : v.voteage.updateHeight ≤ env.currentBlockNum := hh.votes _ _ _ hv
        exact hh.votes.put hv'
    exact { hh with
      bps := bps_put hh.bps (le_refl _), votes := hvotes
      fixvotes := hh.fixvotes.put (by rw [hf]) }
  | revotefix => exact { hh with
      bps := bps_put (bps_put hh.bps (le_refl _)) (le_refl _)
      fixvotes := hh.fixvotes.put (FixTimeVoteInfo.cleanAge_heights _ _).1 }
  | @outfixvote voter key f bp v hf hbp hle hwd hv =>
    have hv' : v.voteage.updateHeight ≤ env.currentBlockNum :=
      hv ▸ updateHeight_getD hh.votes voter f.bpname
    have hf' : f.votepowerAge.updateHeight ≤ env.currentBlockNum := hh.fixvotes _ _ _ hf
    exact { hh with
      bps := bps_put hh.bps (le_refl _), votes := hh.votes.put hv', fixvotes := hh.fixvotes.put hf' }
  | @claim voter bpname act bp newest reward votes fixvotes hact hbp hn hrw hage h0 hle =>
    obtain ⟨age, hcv, hcf⟩ := newestVoteage_eq hn
    have hvotes : votes.All fun _ _ v => v.voteage.updateHeight ≤ env.currentBlockNum := by
      rcases (claimVote_spec hcv).2 with ⟨rfl, -⟩ | ⟨v, hv, rfl⟩
      · exact hh.votes
      · exact hh.votes.put (le_refl _)
    have hfix : fixvotes.All fun _ v => v.votepowerAge.updateHeight ≤ env.currentBlockNum := by
      have := claimFixVotes_all env.currentBlockNum bpname
        (hh.fixvotes.scope voter)
        (fun _ v _ => (FixTimeVoteInfo.cleanAge_heights v env.currentBlockNum).1) age
      rwa [show s.ledger.fixvotes = s.fixvotes from rfl, hcf] at this
    exact { hh with
      bps := bps_put hh.bps (le_refl _), votes := hvotes, fixvotes := hh.fixvotes.setScope hfix }
  | bpclaim => exact ⟨hh.bps, hh.votes, hh.votes4ram, hh.fixvotes⟩
  | other hmv hv hv4 hf hs hco =>
    exact ⟨fun b => by rw [(hs b).2.2]; exact hh.bps b, hv ▸ hh.votes, hv4 ▸ hh.votes4ram,
      hf ▸ hh.fixvotes⟩

/-- Every action whose lock fits keeps the locks. -/
theorem Change.locks (hch : Change env s a l) (hl : Locks s.ledger) (hfit : LockFits (env, a)) :
    Locks l := by
  cases hch with
  | @cast typ => cases typ <;> exact hl
  | @unfreeze typ => cases typ <;> exact hl
  | @votefix voter bpname typ stake stakeTyp key d act bp accounts votes f hd hbp hact hst hpos hw
      hblack htake hkey hf =>
    apply Scoped.All.put hl
    rw [hf]
    exact le_withdrawBlockNum (hfit _ _ _ _ _ d rfl hd)
  | revotefix => exact Scoped.All.put hl (FixTimeVoteInfo.cleanAge_heights _ _).2
  | @outfixvote voter key f bp v hf hbp hle hwd hv =>
    have hf' : f.votepowerAge.updateHeight ≤ f.withdrawBlockNum := hl _ _ _ hf
    exact Scoped.All.put hl hf'
  | @claim voter bpname act bp newest reward votes fixvotes hact hbp hn hrw hage h0 hle =>
    obtain ⟨age, -, hcf⟩ := newestVoteage_eq hn
    have := claimFixVotes_all env.currentBlockNum bpname (hl.scope voter)
      (fun _ v _ => (FixTimeVoteInfo.cleanAge_heights v env.currentBlockNum).2) age
    rw [show s.ledger.fixvotes = s.fixvotes from rfl, hcf] at this
    exact Scoped.All.setScope hl this
  | other hmv hv hv4 hf hs hco => unfold Locks; rw [hf]; exact hl
  | _ => exact hl

/-! ## The difference of the ages -/

/-- The age of a fix-time vote stops at its withdrawal height. -/
theorem FixTimeVoteInfo.getAge_eq {v : FixTimeVoteInfo} {h : Nat}
    (h1 : v.votepowerAge.updateHeight ≤ v.withdrawBlockNum) (h2 : v.votepowerAge.updateHeight ≤ h)
    (hlt : h < 2 ^ 32) : v.getAge h = v.votepowerAge.accrual.value (v.calcBlockNum h) := by
  have hc := calcBlockNum_le v h
  refine AssetAge.getAge_eq ?_ (by omega)
  unfold FixTimeVoteInfo.calcBlockNum
  split <;> assumption

theorem FixTimeVoteInfo.rate_eq {v : FixTimeVoteInfo} (hv : FixVoteOk v) :
    v.votepowerAge.accrual.rate = whole v.votepowerAge.staked.amount := AssetAge.rate_eq hv.staked.1

theorem FixTimeVoteInfo.rate_nonneg {v : FixTimeVoteInfo} (hv : FixVoteOk v) :
    0 ≤ v.votepowerAge.accrual.rate := by
  rw [FixTimeVoteInfo.rate_eq hv]
  exact whole_nonneg hv.staked.2

/-- A new fix-time vote ages from its block on. -/
theorem fixVoteAgeAt_fresh {v : FixTimeVoteInfo} (staked : Asset) {n : Nat} (hs : IsCoin staked)
    (ha : v.votepowerAge = ⟨staked, 0, n⟩) (hw : v.isWithdraw = false) (t : Nat) :
    fixVoteAgeAt t v = whole staked.amount * ((t : Int) - n) := by
  have hr : v.votepowerAge.rate = whole staked.amount := by
    rw [ha]; exact AssetAge.rate_eq hs.1
  simp only [fixVoteAgeAt, hw, Bool.false_eq_true, ↓reduceIte, AssetAge.accrual, hr, Accrual.value]
  rw [ha]
  exact Int.add_zero _

theorem calcBlockNum_of_le {v : FixTimeVoteInfo} {n : Nat} (h : n ≤ v.withdrawBlockNum) :
    v.calcBlockNum n = n := by
  unfold FixTimeVoteInfo.calcBlockNum
  rw [if_neg (by omega)]

/-- A fix-time vote that has no age at block `n` ages from it on. -/
theorem fixVoteAgeAt_ageless {v : FixTimeVoteInfo} (hv : FixVoteOk v) {n : Nat}
    (hle : v.votepowerAge.updateHeight ≤ n) (hlt : n < 2 ^ 32) (hn : n ≤ v.withdrawBlockNum)
    (hw : v.isWithdraw = false) (hage : v.getAge n = 0) (t : Nat) :
    fixVoteAgeAt t v = whole v.votepowerAge.staked.amount * ((t : Int) - n) := by
  rw [FixTimeVoteInfo.getAge_eq (hle.trans hn) hle hlt, calcBlockNum_of_le hn] at hage
  have hsub := Accrual.value_sub v.votepowerAge.accrual n t
  rw [FixTimeVoteInfo.rate_eq hv] at hsub
  simp only [fixVoteAgeAt, hw, Bool.false_eq_true, ↓reduceIte]
  omega

/-- What `claim` takes from a fix-time vote is at most what it counts. -/
theorem claimed_le {v : FixTimeVoteInfo} (hv : FixVoteOk v) {n : Nat}
    (h1 : v.votepowerAge.updateHeight ≤ v.withdrawBlockNum) (h2 : v.votepowerAge.updateHeight ≤ n)
    (hlt : n < 2 ^ 32) (t : Nat) :
    (if v.isWithdraw then 0 else fixVoteAgeAt t (v.cleanAge n)) - fixVoteAgeAt t v +
      v.getAge n ≤ 0 := by
  rw [FixTimeVoteInfo.getAge_eq h1 h2 hlt]
  cases hw : v.isWithdraw with
  | true =>
    have := Accrual.value_mono (FixTimeVoteInfo.rate_nonneg hv) (calcBlockNum_le v n).2
    simp only [fixVoteAgeAt, hw, ↓reduceIte]
    omega
  | false =>
    have hc : (v.cleanAge n).votepowerAge.accrual =
        v.votepowerAge.accrual.reset (v.calcBlockNum n) := rfl
    have hw' : (v.cleanAge n).isWithdraw = false := hw
    simp only [fixVoteAgeAt, hw, hw', Bool.false_eq_true, ↓reduceIte, hc, Accrual.value_reset]
    omega

/-- The ages that `claim` takes from the votes for a bp. -/
theorem claim_agesOf {n t : Nat} {voter bpname : Name} {newest : Int}
    {votes : Scoped Name Name VoteInfo} {fixvotes : Table Nat FixTimeVoteInfo}
    (hc : Coins s.ledger) (hh : Heights s.ledger n) (hl : Locks s.ledger) (hlt : n < 2 ^ 32)
    (hn : newestVoteage n s voter bpname = (newest, votes, fixvotes)) (b : Name) :
    votesFor votes b (voteAgeAt t) +
        fixVotesFor (s.fixvotes.setScope voter fixvotes) b (fixVoteAgeAt t) +
        (if bpname = b then newest else 0) ≤
      votesFor s.votes b (voteAgeAt t) + fixVotesFor s.fixvotes b (fixVoteAgeAt t) := by
  obtain ⟨age, hcv, hcf⟩ := newestVoteage_eq hn
  obtain ⟨hage, hvotes⟩ := claimVote_spec hcv
  have hv : votesFor votes b (voteAgeAt t) + (if bpname = b then age else 0) =
      votesFor s.votes b (voteAgeAt t) := by
    rcases hvotes with ⟨rfl, hnone⟩ | ⟨v, hv, rfl⟩
    · rw [hnone] at hage
      have : age = 0 := by rw [hage]; simp [AssetAge.getAge, Asset.zero]
      rw [this, ite_self]; omega
    · have hle : v.voteage.updateHeight ≤ n := hh.votes _ _ _ hv
      rw [hv, Option.getD_some, AssetAge.getAge_eq hle hlt] at hage
      rw [votesFor_put (voteAgeAt_default t), hv, hage]
      simp only [Option.getD_some, voteAgeAt, VoteInfo.clean, AssetAge.cleanAge_accrual,
        Accrual.value_reset]
      split <;> omega
  have hsum := claimFixVotes_age n bpname (s.fixvotes.scope voter) age
  rw [hcf] at hsum
  rw [fixVotesFor_claim hcf]
  have hle : ((s.fixvotes.scope voter).sum fun _ v => if v.bpname = bpname ∧ bpname = b then
      (if v.isWithdraw then 0 else fixVoteAgeAt t (v.cleanAge n)) - fixVoteAgeAt t v else 0) +
      (s.fixvotes.scope voter).sum (fun _ v =>
        if v.bpname = bpname ∧ bpname = b then v.getAge n else 0) ≤ 0 := by
    rw [← Table.sum_add]
    refine le_of_le_of_eq (Table.sum_le fun k v hv => ?_) (Table.sum_zero fun _ _ _ => rfl)
    have hok : FixVoteOk v := hc.fixvotes _ _ _ hv
    have hlock : v.votepowerAge.updateHeight ≤ v.withdrawBlockNum := hl _ _ _ hv
    have hhe : v.votepowerAge.updateHeight ≤ n := hh.fixvotes _ _ _ hv
    split
    · exact claimed_le hok hlock hhe hlt t
    · exact le_refl _
  by_cases hb : bpname = b
  · simp only [hb, and_true, ↓reduceIte] at hv hle hsum ⊢
    omega
  · simp only [hb, and_false, ↓reduceIte] at hv hle ⊢
    omega

/-- Every action keeps the age of each bp at least the sum of the ages of its votes. -/
theorem Change.ages (hch : Change env s a l) (hc : Coins s.ledger)
    (hh : Heights s.ledger env.currentBlockNum) (hl : Locks s.ledger)
    (hI : ∀ b t, s.ledger.agesOf b t ≤ bpAgeAt s.bps b t) (b : Name) (t : Nat) :
    l.agesOf b t ≤ bpAgeAt l.bps b t := by
  have hb := hI b t
  have hlt := env.currentBlockNum_lt
  generalize hn : env.currentBlockNum = n at *
  cases hch with
  | transfer => exact hb
  | @updatebp bpname key rate url r hr =>
    refine le_trans hb (le_of_eq ?_)
    simp only [bpAgeAt_put]
    split
    · subst_vars; rfl
    · rfl
  | @cast typ voter bpname stake act bp change v hact hbp hst hw hrow hle hblack =>
    have hvt := hc.votesTbl typ
    have hht := hh.votesTbl typ
    rw [ledger_votesTbl] at hvt hht
    have ho := VoteOk.getD hvt voter bpname
    have hd := voteAgeAt_change _ _ ho hst (updateHeight_getD hht voter bpname) hlt
      (hn ▸ hrow.voteage) t
    rw [← whole_sub hw ho.whole, ← hrow.change_eq] at hd
    cases typ <;> simp only [State.votesTbl] at hd <;>
      simp only [Ledger.agesOf, Ledger.setVotesTbl, State.votesTbl, State.ledger, hn,
        bpAgeAt_stakeBy hbp (hh.bp hbp) hlt, votesFor_put (voteAgeAt_default t), hd] at hb ⊢ <;>
      omega
  | @revote voter frombp tobp restake bpf bpt vf vt hne hst hpos hw hbpf hbpt hvf hle hvt =>
    have hf : VoteOk vf := hc.votes _ _ _ hvf
    have ht : VoteOk vt := hvt ▸ VoteOk.getD hc.votes voter tobp
    have hhf : vf.voteage.updateHeight ≤ n := hh.votes _ _ _ hvf
    have hht : vt.voteage.updateHeight ≤ n := hvt ▸ updateHeight_getD hh.votes voter tobp
    have hdf := voteAgeAt_change { vf with voteage := (vf.voteage.changeStakedTo n
      ⟨vf.voteage.staked.amount - restake.amount, vf.voteage.staked.symbol⟩) }
      ⟨vf.voteage.staked.amount - restake.amount, vf.voteage.staked.symbol⟩ hf
      ⟨hf.staked.1, Int.sub_nonneg_of_le hle⟩ hhf hlt rfl t
    have hdt := voteAgeAt_change { vt with voteage := (vt.voteage.changeStakedTo n
      ⟨vt.voteage.staked.amount + restake.amount, coreSymbol⟩) } _ ht
      ⟨rfl, Int.add_nonneg ht.staked.2 hst.2⟩ hht hlt rfl t
    simp only [whole_sub hf.whole hw, whole_add ht.whole hw] at hdf hdt
    simp only [Ledger.agesOf, State.ledger, hn, bpAgeAt_move hne hbpf hbpt (hh.bp hbpf)
      (hh.bp hbpt) hlt, votesFor_put (voteAgeAt_default t), hvf,
      Scoped.find_put_ne _ _ fun e => hne e.2, hvt, Option.getD_some, hdf, hdt] at hb ⊢
    have e1 : whole vf.voteage.staked.amount - whole restake.amount -
        whole vf.voteage.staked.amount = -whole restake.amount := by omega
    have e2 : whole vt.voteage.staked.amount + whole restake.amount -
        whole vt.voteage.staked.amount = whole restake.amount := by omega
    rw [e1, e2, Int.neg_mul]
    split <;> split <;> omega
  | @unfreeze typ voter bpname act v hact hv hpos =>
    cases typ <;> simp only [State.votesTbl] at hv <;>
      simp only [Ledger.agesOf, Ledger.setVotesTbl, State.votesTbl, State.ledger,
        votesFor_put (voteAgeAt_default t), hv, Option.getD_some, voteAgeAt, sub_self, ite_self,
        add_zero] at hb ⊢ <;> exact hb
  | @votefix voter bpname typ stake stakeTyp key d act bp accounts votes f hd hbp hact hst hpos hw
      hblack htake hkey hf =>
    have hv : votesFor votes b (voteAgeAt t) = votesFor s.votes b (voteAgeAt t) := by
      rcases htake with ⟨-, -, rfl⟩ | ⟨-, v, hv, -, rfl⟩
      · rfl
      · rw [votesFor_put (voteAgeAt_default t), hv]; simp [voteAgeAt]
    have hg : fixVoteAgeAt t f = whole (stake.amount * d.power) * ((t : Int) - n) :=
      fixVoteAgeAt_fresh ⟨stake.amount * d.power, coreSymbol⟩
        ⟨rfl, Int.mul_nonneg hst.2 (by omega)⟩ (by rw [hf, hn]) (by rw [hf]) t
    have hnm : f.bpname = bpname := by rw [hf]
    simp only [Ledger.agesOf, State.ledger, hn, bpAgeAt_add hbp (hh.bp hbp) hlt, hv,
      fixVotesFor_put_new hkey, hg, hnm] at hb ⊢
    omega
  | @revotefix voter key bpname f bpf bpt hf hne hwd hltw hblack hbpf hbpt hage =>
    have hok : FixVoteOk f := hc.fixvotes _ _ _ hf
    have hhe : f.votepowerAge.updateHeight ≤ n := hh.fixvotes _ _ _ hf
    have hle : n ≤ f.withdrawBlockNum := hn ▸ hltw.le
    have hold := fixVoteAgeAt_ageless hok hhe hlt hle hwd (hn ▸ hage) t
    have hnew := fixVoteAgeAt_fresh (v := { f with bpname }.cleanAge n) _ hok.staked
      (congrArg f.votepowerAge.cleanAge (calcBlockNum_of_le hle)) hwd t
    have hnm : ({ f with bpname }.cleanAge n).bpname = bpname := rfl
    simp only [Ledger.agesOf, State.ledger, hn, bpAgeAt_move hne hbpf hbpt (hh.bp hbpf)
      (hh.bp hbpt) hlt, fixVotesFor_put hf, hold, hnew, hnm] at hb ⊢
    split <;> split <;> omega
  | @outfixvote voter key f bp v hf hbp hle hwd hv =>
    have hok : FixVoteOk f := hc.fixvotes _ _ _ hf
    have hr := FixTimeVoteInfo.rate_eq hok
    have hsub := Accrual.value_sub f.votepowerAge.accrual n t
    have hmono := Accrual.value_mono (FixTimeVoteInfo.rate_nonneg hok) (hn ▸ hle)
    rw [hr] at hsub
    have hold : fixVoteAgeAt t f = f.votepowerAge.accrual.value t := by
      simp only [fixVoteAgeAt, hwd, Bool.false_eq_true, ↓reduceIte]
    have hnew : fixVoteAgeAt t { f with vote := Asset.zero, isWithdraw := true } =
        f.votepowerAge.accrual.value f.withdrawBlockNum := by
      simp only [fixVoteAgeAt, ↓reduceIte]
    have hva : ∀ x m, voteAgeAt t { v with unstaking := x, unstakeHeight := m } = voteAgeAt t v :=
      fun _ _ => rfl
    simp only [Ledger.agesOf, State.ledger, hn, bpAgeAt_add hbp (hh.bp hbp) hlt,
      fixVotesFor_put hf, votesFor_put (voteAgeAt_default t), hv, hva, hold, hnew,
      whole_neg, Int.neg_mul] at hb ⊢
    split <;> omega
  | @claim voter bpname act bp newest reward votes fixvotes hact hbp hnew hrw hage h0 hle =>
    rw [hn] at hnew
    have hsum := claim_agesOf (t := t) hc hh hl hlt hnew b
    have hbpa : ∀ pool, ({ bp with
        rewardsPool := pool
        totalVoteage := bp.getAge n - newest
        voteageUpdateHeight := n } : BpInfo).accrual = bp.accrual.drop n newest :=
      fun pool => BpInfo.claimed_accrual (hh.bp hbp) hlt pool newest
    simp only [Ledger.agesOf, State.ledger, hn, bpAgeAt_put, hbpa, Accrual.value_drop] at hb ⊢
    split
    · subst_vars
      rw [bpAgeAt_of_find hbp] at hb
      simp only [↓reduceIte] at hsum
      omega
    · rename_i hne
      simp only [hne, ↓reduceIte] at hsum
      omega
  | bpclaim => exact hb
  | other hmv hv hv4 hf hs hco =>
    have he : bpAgeAt l.bps b t = bpAgeAt s.bps b t := by
      obtain ⟨h1, h2, h3⟩ := hs b
      simp only [bpAgeAt, BpInfo.accrual, h1, h2, h3]
    rw [he]
    simp only [Ledger.agesOf, hv, hv4, hf]
    exact hb

/-! ## Runs -/

theorem Genesis.heights {s : State} (hg : Genesis s) : Heights s.ledger 0 := by
  refine ⟨fun b => ?_, hg.votes_all _, hg.votes4ram_all _, hg.fixvotes_all _⟩
  cases hf : s.ledger.bps.find b with
  | none => exact le_refl _
  | some r => exact (hg.bps b r hf).2.2.2.le

/-- No height stored in a reachable state is above the chain's. -/
theorem Reachable.heights {p : Point} (h : Reachable p) : Heights p.state.ledger p.height :=
  h.inv (I := fun p => Heights p.state.ledger p.height) (fun _ hg => hg.heights)
    fun _ _ _ hI hs => hs.2.1 ▸ hs.change.heights (hI.mono hs.1)

/-- What holds in every state of a run whose locks fit. -/
structure AgeInv (s : State) : Prop where
  locks : Locks s.ledger
  ages : ∀ b t, s.ledger.agesOf b t ≤ bpAgeAt s.bps b t

theorem Genesis.ageInv {s : State} (hg : Genesis s) : AgeInv s := by
  have hbp : ∀ b, ((s.bps.find b).getD {}).totalStaked = 0 ∧
      ((s.bps.find b).getD {}).totalVoteage = 0 := by
    intro b
    cases hf : s.bps.find b with
    | none => exact ⟨rfl, rfl⟩
    | some r => exact ⟨(hg.bps b r hf).1, (hg.bps b r hf).2.2.1⟩
  refine ⟨hg.fixvotes_all _, fun b t => ?_⟩
  simp only [Ledger.agesOf, State.ledger, hg.votes, hg.votes4ram, hg.fixvotes, bpAgeAt,
    BpInfo.accrual, hbp b, Accrual.value]
  simp [votesFor, fixVotesFor]

/-- The states of a run from a genesis state in which every lock fits. -/
def Locked (p : Point) : Prop :=
  ∃ s tr, Genesis s ∧ Run Step ⟨s, 0⟩ tr p ∧ ∀ e ∈ tr, LockFits e.2.1

theorem Locked.reachable {p : Point} (h : Locked p) : Reachable p := by
  obtain ⟨s, tr, hg, hr, -⟩ := h
  exact ⟨s, tr, hg, hr⟩

theorem Locked.ageInv {p : Point} (h : Locked p) : AgeInv p.state := by
  obtain ⟨s, tr, hg, hr, hfit⟩ := h
  refine ((hr.restrict hfit).inv (I := fun p => Reachable p ∧ AgeInv p.state)
    ⟨⟨s, [], hg, .nil⟩, hg.ageInv⟩ fun p a q hI hs => ?_).1.2
  obtain ⟨hp, hage⟩ := hI
  obtain ⟨hs, hf⟩ := hs
  exact ⟨hp.step hs, hs.change.locks hage.locks hf,
    hs.change.ages hp.coins (hp.heights.mono hs.1) hage.locks hage.ages⟩

/-! ## The code's ages -/

/-- From the heights stored in the votes on, the code's age of a vote is the accrued one. -/
theorem votesFor_getAge {tbl : Scoped Name Name VoteInfo} {t : Nat}
    (ht : tbl.All fun _ _ v => v.voteage.updateHeight ≤ t) (hlt : t < 2 ^ 32) (b : Name) :
    votesFor tbl b (fun v => v.voteage.getAge t) = votesFor tbl b (voteAgeAt t) :=
  Scoped.sum_congr fun voter k v hv => by
    have hle : v.voteage.updateHeight ≤ t := ht voter k v hv
    simp only [AssetAge.getAge_eq hle hlt, voteAgeAt]

/-- The code's age of a fix-time vote is at most the accrued one. -/
theorem fixVotesFor_getAge {l : Ledger} {t : Nat} (hc : Coins l) (hl : Locks l)
    (hh : Heights l t) (hlt : t < 2 ^ 32) (b : Name) :
    fixVotesFor l.fixvotes b (fun v => v.getAge t) ≤ fixVotesFor l.fixvotes b (fixVoteAgeAt t) :=
  Scoped.sum_le fun voter k v hv => by
    have hok : FixVoteOk v := hc.fixvotes _ _ _ hv
    have h1 : v.votepowerAge.updateHeight ≤ v.withdrawBlockNum := hl _ _ _ hv
    have h2 : v.votepowerAge.updateHeight ≤ t := hh.fixvotes _ _ _ hv
    split
    · simp only [FixTimeVoteInfo.getAge_eq h1 h2 hlt]
      apply Accrual.value_mono (FixTimeVoteInfo.rate_nonneg hok)
      have := calcBlockNum_le v t
      split <;> omega
    · exact le_refl _

/-- The ages of the votes for a bp, of all voters and the three kinds, as the code computes them. -/
def votesAge (s : State) (b : Name) (t : Nat) : Int :=
  votesFor s.votes b (fun v => v.voteage.getAge t) +
    votesFor s.votes4ram b (fun v => v.voteage.getAge t) +
    fixVotesFor s.fixvotes b fun v => v.getAge t

/-- Where the locks fit, the age of a bp is at least the sum of the ages of the votes for it, at
every height from the stored ones on. -/
theorem ages_le {p : Point} (h : Locked p) {t : Nat}
    (ht : Heights p.state.ledger t) (hlt : t < 2 ^ 32) {b : Name} {bp : BpInfo}
    (hbp : p.state.bps.find b = some bp) : votesAge p.state b t ≤ bp.getAge t := by
  have hI := h.ageInv
  have hage := hI.ages b t
  have h1 := votesFor_getAge ht.votes hlt b
  have h2 := votesFor_getAge ht.votes4ram hlt b
  have h3 := fixVotesFor_getAge h.reachable.coins hI.locks ht hlt b
  rw [bpAgeAt_of_find hbp, ← BpInfo.getAge_eq (ht.bp hbp) hlt] at hage
  simp only [Ledger.agesOf, State.ledger] at hage h1 h2 h3
  unfold votesAge
  omega

/-- The code's ages of votes are not negative. -/
def AgesNonneg (s : State) (t : Nat) : Prop :=
  (s.votes.All fun _ _ v => 0 ≤ v.voteage.getAge t) ∧
  (s.votes4ram.All fun _ _ v => 0 ≤ v.voteage.getAge t) ∧
  s.fixvotes.All fun _ _ v => 0 ≤ v.getAge t

theorem Coins.agesNonneg {s : State} (hc : Coins s.ledger) (t : Nat) : AgesNonneg s t :=
  ⟨hc.votes.imp fun _ _ _ hv => AssetAge.getAge_nonneg hv.staked.2 hv.age t,
    hc.votes4ram.imp fun _ _ _ hv => AssetAge.getAge_nonneg hv.staked.2 hv.age t,
    hc.fixvotes.imp fun _ _ _ hv => AssetAge.getAge_nonneg hv.staked.2 hv.age _⟩

/-- What `claim` counts is a part of the ages of the votes for the bp. -/
theorem newestVoteage_le {s : State} {t : Nat} (hn : AgesNonneg s t) (voter b : Name) :
    0 ≤ (newestVoteage t s voter b).1 ∧ (newestVoteage t s voter b).1 ≤ votesAge s b t := by
  obtain ⟨hv, hv4, hf⟩ := hn
  generalize hnew : newestVoteage t s voter b = r
  obtain ⟨newest, votes, fixvotes⟩ := r
  obtain ⟨age, hcv, hcf⟩ := newestVoteage_eq hnew
  have hage := (claimVote_spec hcv).1
  have hsum := claimFixVotes_age t b (s.fixvotes.scope voter) age
  rw [hcf] at hsum
  have hwv : ∀ tbl : Scoped Name Name VoteInfo, (tbl.All fun _ _ v => 0 ≤ v.voteage.getAge t) →
      ∀ s' k r, tbl.find s' k = some r → 0 ≤ if k = b then r.voteage.getAge t else 0 := by
    intro tbl ht s' k r hr
    split
    · exact ht s' k r hr
    · exact le_refl _
  have hwf : ∀ s' k r, s.fixvotes.find s' k = some r →
      0 ≤ if r.bpname = b then r.getAge t else 0 := by
    intro s' k r hr
    split
    · exact hf s' k r hr
    · exact le_refl _
  have h1 : 0 ≤ age ∧ age ≤ votesFor s.votes b fun v => v.voteage.getAge t := by
    cases hfind : s.votes.find voter b with
    | none =>
      rw [hfind] at hage
      have h0 : age = 0 := by rw [hage]; simp [AssetAge.getAge, Asset.zero]
      rw [h0]
      exact ⟨le_refl _, Scoped.sum_nonneg (hwv _ hv)⟩
    | some v =>
      rw [hfind, Option.getD_some] at hage
      have hle := Scoped.le_sum (hwv _ hv) hfind
      simp only [↓reduceIte] at hle
      exact ⟨hage ▸ hv _ _ _ hfind, hage ▸ hle⟩
  have h2 : 0 ≤ votesFor s.votes4ram b fun v => v.voteage.getAge t :=
    Scoped.sum_nonneg (hwv _ hv4)
  have h3 : (s.fixvotes.scope voter).sum (fun _ v => if v.bpname = b then v.getAge t else 0) ≤
      fixVotesFor s.fixvotes b fun v => v.getAge t := Scoped.scope_sum_le hwf voter
  have h4 : 0 ≤ (s.fixvotes.scope voter).sum fun _ v => if v.bpname = b then v.getAge t else 0 :=
    Table.sum_nonneg fun k r hr => hwf voter k r hr
  unfold votesAge
  simp only at hsum ⊢
  omega

/-- A part of a pool by a share of an age. -/
theorem claimReward_le {bp : BpInfo} {newest total : Int} (hp : IsPool bp.rewardsPool)
    (h0 : 0 ≤ newest) (hle : newest ≤ total) (ht : 0 < total) :
    0 ≤ claimReward bp newest total ∧ claimReward bp newest total ≤ bp.rewardsPool.amount := by
  have hx := Int.mul_nonneg hp.1.2 h0
  have hq : (bp.rewardsPool.amount * newest).tdiv total ≤ bp.rewardsPool.amount := by
    rw [Int.tdiv_eq_ediv_of_nonneg hx]
    exact Int.ediv_le_of_le_mul ht (Int.mul_le_mul_of_nonneg_left hle hp.1.2)
  have hq0 := Int.tdiv_nonneg hx ht.le
  have hm : Asset.maxAmount = 2 ^ 62 - 1 := rfl
  have h2 := hp.2
  have e : claimReward bp newest total = (bp.rewardsPool.amount * newest).tdiv total :=
    i64_of_range (by omega) (by omega)
  rw [e]
  exact ⟨hq0, hq⟩

/-- In every state of a run whose locks fit: the age of a registered bp is at least the sum of the
ages of the votes for it, which are not negative; every `claim` from a bp with a positive age counts
an age between 0 and the bp's, passes the check of its reward, and leaves no negative rewards pool
or age. -/
theorem claim_fair {p : Point} (h : Locked p) :
    (∀ b bp t, p.state.bps.find b = some bp → Heights p.state.ledger t → t < 2 ^ 32 →
      votesAge p.state b t ≤ bp.getAge t ∧ 0 ≤ bp.getAge t ∧ AgesNonneg p.state t) ∧
    (∀ (env : Env) voter b bp, p.height ≤ env.currentBlockNum → p.state.bps.find b = some bp →
      0 < bp.getAge env.currentBlockNum →
      let newest := (newestVoteage env.currentBlockNum p.state voter b).1
      let reward := claimReward bp newest (bp.getAge env.currentBlockNum)
      0 ≤ newest ∧ newest ≤ bp.getAge env.currentBlockNum ∧
        Asset.make reward coreSymbol = .ok ⟨reward, coreSymbol⟩ ∧
        0 ≤ reward ∧ reward ≤ bp.rewardsPool.amount) ∧
    ∀ (env : Env) voter b s', p.height ≤ env.currentBlockNum →
      claim env p.state voter b = .ok s' →
      ∃ bp, s'.bps.find b = some bp ∧ 0 ≤ bp.rewardsPool.amount ∧ 0 ≤ bp.totalVoteage := by
  have hc := h.reachable.coins
  have hages : ∀ b bp t, p.state.bps.find b = some bp → Heights p.state.ledger t → t < 2 ^ 32 →
      votesAge p.state b t ≤ bp.getAge t := fun b bp t hbp ht hlt => ages_le h ht hlt hbp
  have hnew : ∀ (env : Env) voter b bp, p.height ≤ env.currentBlockNum →
      p.state.bps.find b = some bp →
      0 ≤ (newestVoteage env.currentBlockNum p.state voter b).1 ∧
      (newestVoteage env.currentBlockNum p.state voter b).1 ≤ bp.getAge env.currentBlockNum := by
    intro env voter b bp hle hbp
    have h1 := newestVoteage_le (hc.agesNonneg env.currentBlockNum) voter b
    have h2 := hages b bp env.currentBlockNum hbp (h.reachable.heights.mono hle)
      env.currentBlockNum_lt
    exact ⟨h1.1, h1.2.trans h2⟩
  refine ⟨fun b bp t hbp ht hlt => ?_, fun env voter b bp hle hbp hpos => ?_,
    fun env voter b s' hle hs => ?_⟩
  · have hn := hc.agesNonneg t
    have h0 := newestVoteage_le hn 0 b
    have h1 := hages b bp t hbp ht hlt
    exact ⟨h1, h0.1.trans (h0.2.trans h1), hn⟩
  · obtain ⟨h0, h1⟩ := hnew env voter b bp hle hbp
    have hp : IsPool bp.rewardsPool := hc.bps _ _ hbp
    obtain ⟨h2, h3⟩ := claimReward_le hp h0 h1 hpos
    refine ⟨h0, h1, Asset.make_eq_ok.mpr ⟨⟨?_, h3.trans hp.2⟩, coreSymbol_isValid, rfl⟩, h2, h3⟩
    exact le_trans (by decide) h2
  · have hch := claim_change hs
    have hpool : ∃ bp, p.state.bps.find b = some bp ∧ ∃ bp', s'.bps.find b = some bp' ∧
        bp'.totalVoteage = bp.getAge env.currentBlockNum -
          (newestVoteage env.currentBlockNum p.state voter b).1 := by
      simp only [claim, bind_eq_ok, fetch_eq_ok, check_eq_ok, pure_eq_ok] at hs
      obtain ⟨_, -, act, hact, bp, hbp, _, hpos, reward, -, _, -, _, -, _, -, rfl⟩ := hs
      exact ⟨bp, hbp, _, Table.find_put_self _ _ _, rfl⟩
    obtain ⟨bp, hbp, bp', hbp', hage⟩ := hpool
    have hp : IsPool bp'.rewardsPool := (hch.coins hc).bps _ _ hbp'
    have h1 := hnew env voter b bp hle hbp
    exact ⟨bp', hbp', hp.1.2, by omega⟩

theorem firstVote_locked : Locked ⟨firstVote, 10⟩ := by
  have hstep : Step ⟨founding, 0⟩ (Env.of 1 10, .vote 1 7 ⟨20000, coreSymbol⟩) ⟨firstVote, 10⟩ :=
    ⟨by decide, rfl, _, rfl⟩
  refine ⟨founding, _, founding_genesis, .snoc .nil hstep, fun e he => ?_⟩
  rw [List.nil_append, List.mem_singleton] at he
  subst he
  exact fun _ _ _ _ _ _ h => by cases h

/-- The ages after the first vote, and what a claim counts. -/
theorem claim_fair_firstVote : votesAge firstVote 7 20 ≤ 20 ∧ AgesNonneg firstVote 20 ∧
    (newestVoteage 20 firstVote 1 7).1 ≤ 20 := by
  obtain ⟨hages, hclaim, -⟩ := claim_fair firstVote_locked
  have h := hages 7 _ 20 rfl (firstVote_reachable.heights.mono (by decide)) (by decide)
  have hc := hclaim (Env.of 1 20) 1 7 _ (by decide) rfl (by decide)
  exact ⟨h.1, h.2.2, hc.2.1⟩

/-- A vote of one token for the longest time, ten blocks before the end of the heights. -/
def lateVotefix : State :=
  execTo (Env.of 1 4294967286) founding (.votefix 1 7 fvoteD ⟨10000, coreSymbol⟩ 1)

theorem lateVotefix_reachable : Reachable ⟨lateVotefix, 4294967286⟩ :=
  founding_reachable.step (a := (Env.of 1 4294967286, .votefix 1 7 fvoteD ⟨10000, coreSymbol⟩ 1))
    ⟨by decide, rfl, [], rfl⟩

/-- The withdrawal height of the late vote wraps, and five blocks later its age is far above the
age of the bp. -/
theorem ages_not_le : ¬∀ (p : Point) (b : Name) (bp : BpInfo) (t : Nat), Reachable p →
    p.state.bps.find b = some bp → Heights p.state.ledger t → t < 2 ^ 32 →
    votesAge p.state b t ≤ bp.getAge t := by
  intro h
  have hle := h _ 7 _ 4294967291 lateVotefix_reachable rfl
    (lateVotefix_reachable.heights.mono (by decide)) (by decide)
  exact absurd hle (by decide)

end Eosforce.System
