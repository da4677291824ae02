import Eosforce.Lib.Share
import Eosforce.System.AgeHistory

/-!
# The order of claims

A claim pays a voter its share of the rewards pool of a bp by age, and takes both from the bp. Two
voters that claim at the same block get, in either order, what the first order gives them, or one
unit more or less.

* `Known`: a voter has an account, in every reachable state (`Reachable.known`).
* `claim_ok_iff`: in a run whose locks fit, a claim needs the voter's authority and room in its
  account, and nothing else.
* `AgesFit`: the exact ages that a claim reads are those that the code has in `int64_t`.
* `claims_commute`: the two orders of two claims. `claims_not_commute`: a lock that does not fit, an
  account without room, and an age that does not fit.
-/

namespace Eosforce.System

open Fallible Keyed Accruals Runs Shares

variable {env : Env} {s s' : State}

/-! ## Voters have accounts -/

/-- The scopes of a table are accounts. -/
def Known {κ ρ : Type} [LinearOrder κ] (accounts : Table Name AccountInfo)
    (t : Scoped Name κ ρ) : Prop := t.All fun voter _ _ => (accounts.find voter).isSome = true

section Known

variable {κ ρ : Type} [LinearOrder κ] {accounts accounts' : Table Name AccountInfo}
  {t : Scoped Name κ ρ}

theorem isSome_put {k v : Name} (a : AccountInfo) (h : (accounts.find v).isSome = true) :
    ((accounts.put k a).find v).isSome = true := by
  rw [Table.find_put]
  split
  · rfl
  · exact h

theorem isSome_of_find {v : Name} {a : AccountInfo} (h : accounts.find v = some a) :
    (accounts.find v).isSome = true := by rw [h]; rfl

theorem Known.mono (h : Known accounts t)
    (hkeep : ∀ v, (accounts.find v).isSome = true → (accounts'.find v).isSome = true) :
    Known accounts' t := h.imp fun v _ _ hv => hkeep v hv

theorem Known.putAccount (h : Known accounts t) (k : Name) (a : AccountInfo) :
    Known (accounts.put k a) t := h.mono fun _ => isSome_put a

end Known

/-- An action keeps the voters' accounts. -/
theorem exec_known {a : Action} {fx : List Effect} (h : exec env s a = .ok (s', fx))
    (hv : Known s.accounts s.votes) (hf : Known s.accounts s.fixvotes) :
    Known s'.accounts s'.votes ∧ Known s'.accounts s'.fixvotes := by
  have hch := exec_change h
  have hgrow := fun hm => exec_grow (a := a) hm h
  change _ → AccountsGrow _ s'.ledger.accounts ∧ _ at hgrow
  change Known s'.ledger.accounts s'.ledger.votes ∧ Known s'.ledger.accounts s'.ledger.fixvotes
  generalize s'.ledger = l at *
  cases hch with
  | transfer => exact ⟨(hv.putAccount _ _).putAccount _ _, (hf.putAccount _ _).putAccount _ _⟩
  | updatebp => exact ⟨hv, hf⟩
  | @cast typ voter b stake act bp change v hact =>
    have hsome := isSome_put (k := voter) (act.credit (-max 0 change)) (isSome_of_find hact)
    cases typ with
    | votes => exact ⟨(hv.putAccount _ _).put hsome, hf.putAccount _ _⟩
    | votes4ram => exact ⟨hv.putAccount _ _, hf.putAccount _ _⟩
  | @revote voter _ _ _ _ _ vf _ _ _ _ _ _ _ hvf =>
    have hsome := hv _ _ _ hvf
    exact ⟨(hv.put hsome).put hsome, hf⟩
  | @unfreeze typ voter b act v hact =>
    have hsome := isSome_put (k := voter) (act.credit v.unstaking.amount) (isSome_of_find hact)
    cases typ with
    | votes => exact ⟨(hv.putAccount _ _).put hsome, hf.putAccount _ _⟩
    | votes4ram => exact ⟨hv.putAccount _ _, hf.putAccount _ _⟩
  | @votefix voter b typ stake stakeTyp key d act bp accounts votes f _ _ hact _ _ _ _ hsrc =>
    rcases hsrc with ⟨rfl, -, rfl⟩ | ⟨rfl, v, -, -, rfl⟩
    · exact ⟨hv.putAccount _ _, (hf.putAccount _ _).put (isSome_put _ (isSome_of_find hact))⟩
    · exact ⟨hv.put (isSome_of_find hact), hf.put (isSome_of_find hact)⟩
  | revotefix hfind => exact ⟨hv, hf.put (hf _ _ _ hfind)⟩
  | outfixvote hfind => exact ⟨hv.put (hf _ _ _ hfind), hf.put (hf _ _ _ hfind)⟩
  | @claim voter b act bp newest reward votes fixvotes hact _ hnew =>
    have hsome := isSome_put (k := voter) (act.credit reward) (isSome_of_find hact)
    obtain ⟨age, hcv, -⟩ := newestVoteage_eq hnew
    refine ⟨?_, (hf.putAccount _ _).setScope fun _ _ _ => hsome⟩
    rcases (claimVote_spec hcv).2 with ⟨rfl, -⟩ | ⟨v, -, rfl⟩
    · exact hv.putAccount _ _
    · exact (hv.putAccount _ _).put hsome
  | bpclaim => exact ⟨hv.putAccount _ _, hf.putAccount _ _⟩
  | other hm hvotes _ hfix =>
    have hkeep : ∀ v, (s.accounts.find v).isSome = true → (l.accounts.find v).isSome = true := by
      intro v hsome
      obtain ⟨b, hb⟩ := Option.isSome_iff_exists.mp hsome
      obtain ⟨b', hb', -⟩ := (hgrow hm).1 v b hb
      exact isSome_of_find hb'
    rw [hvotes, hfix]
    exact ⟨hv.mono hkeep, hf.mono hkeep⟩

/-- In a reachable state, the voters have accounts. -/
theorem Reachable.known {p : Point} (h : Reachable p) :
    Known p.state.accounts p.state.votes ∧ Known p.state.accounts p.state.fixvotes := by
  refine h.inv (I := fun p => Known p.state.accounts p.state.votes ∧
    Known p.state.accounts p.state.fixvotes) (fun s hg => ?_) fun p a q hI hs => ?_
  · simp only [hg.votes, hg.fixvotes]
    exact ⟨Scoped.all_empty _, Scoped.all_empty _⟩
  · obtain ⟨-, -, fx, hx⟩ := hs
    exact exec_known hx hI.1 hI.2

/-! ## The age of a voter -/

/-- The age that a voter has for a bp: what `claim` counts. -/
def ageOf (h : Nat) (s : State) (voter b : Name) : Int := (newestVoteage h s voter b).1

variable {h : Nat} {voter other b : Name}

theorem ageOf_eq (h : Nat) (s : State) (voter b : Name) : ageOf h s voter b =
    ((s.votes.find voter b).getD {}).voteage.getAge h +
      (s.fixvotes.scope voter).sum fun _ v => if v.bpname = b then v.getAge h else 0 := by
  unfold ageOf
  generalize hn : newestVoteage h s voter b = r
  obtain ⟨newest, votes, fixvotes⟩ := r
  obtain ⟨age, hcv, hcf⟩ := newestVoteage_eq hn
  have hage := claimFixVotes_age h b (s.fixvotes.scope voter) age
  rw [hcf, (claimVote_spec hcv).1] at hage
  exact hage

/-- A voter with an age has an account. -/
theorem exists_account (hv : Known s.accounts s.votes) (hf : Known s.accounts s.fixvotes)
    (hage : ageOf h s voter b ≠ 0) : ∃ act, s.accounts.find voter = some act := by
  by_contra hno
  have hnone : ¬(s.accounts.find voter).isSome = true := fun hs =>
    hno (Option.isSome_iff_exists.mp hs)
  apply hage
  have hvote : s.votes.find voter b = none :=
    Option.eq_none_iff_forall_ne_some.mpr fun v hfind => hnone (hv _ _ _ hfind)
  have hfix : s.fixvotes.scope voter = ∅ := Table.ext_find fun k =>
    Option.eq_none_iff_forall_ne_some.mpr fun v hfind => hnone (hf _ _ _ hfind)
  rw [ageOf_eq, hvote, hfix]
  simp [AssetAge.getAge, Asset.zero]

theorem getAge_cleanAge (a : AssetAge) (h : Nat) : (a.cleanAge h).getAge h = 0 := by
  simp only [AssetAge.getAge, AssetAge.cleanAge, u32sub_self]
  omega

theorem getAge_claimed (bp : BpInfo) (h : Nat) (pool : Asset) (newest : Int) :
    (bp.claimed h pool newest).getAge h = bp.getAge h - newest := by
  have hdrop : ((bp.claimed h pool newest).totalVoteage : Int) = bp.getAge h - newest := rfl
  rw [BpInfo.getAge, hdrop]
  simp only [BpInfo.claimed, u32sub_self]
  omega

/-! ## One claim -/

/-- The state after a claim of the reward. -/
def claimed (h : Nat) (s : State) (voter b : Name) (act : AccountInfo) (bp : BpInfo)
    (reward : Int) : State :=
  { s with
    accounts := s.accounts.put voter (act.credit reward)
    votes := (newestVoteage h s voter b).2.1
    fixvotes := s.fixvotes.setScope voter (newestVoteage h s voter b).2.2
    bps := s.bps.put b (bp.claimed h ⟨bp.rewardsPool.amount - reward, bp.rewardsPool.symbol⟩
      (ageOf h s voter b)) }

/-- The voter that has claimed has no age left. -/
theorem ageOf_claimed_self (h : Nat) (s : State) (voter b : Name) (act : AccountInfo) (bp : BpInfo)
    (reward : Int) : ageOf h (claimed h s voter b act bp reward) voter b = 0 := by
  rw [ageOf_eq]
  simp only [claimed]
  generalize hn : newestVoteage h s voter b = r
  obtain ⟨newest, votes, fixvotes⟩ := r
  obtain ⟨age, hcv, hcf⟩ := newestVoteage_eq hn
  have hvote : ((votes.find voter b).getD {}).voteage.getAge h = 0 := by
    rcases (claimVote_spec hcv).2 with ⟨rfl, hnone⟩ | ⟨v, -, rfl⟩
    · rw [hnone]
      simp [AssetAge.getAge, Asset.zero]
    · rw [Scoped.find_put_self]
      exact getAge_cleanAge _ h
  have hfix : fixvotes.sum (fun _ v => if v.bpname = b then v.getAge h else 0) = 0 := by
    have hsum := claimFixVotes_sum h b (s.fixvotes.scope voter) age
      fun _ v => if v.bpname = b then v.getAge h else 0
    rw [hcf] at hsum
    refine hsum.trans (Table.sum_zero fun k v _ => ?_)
    unfold claimedFixVote
    split
    · split
      · rfl
      · have h0 : (v.cleanAge h).getAge h = 0 :=
          getAge_cleanAge v.votepowerAge (v.calcBlockNum h)
        simp only [Option.elim_some, h0, ite_self]
    · rename_i hb
      exact if_neg hb
  rw [hvote, Scoped.scope_setScope_self, hfix]
  rfl

/-- Another voter keeps its age. -/
theorem ageOf_claimed_other (h : Nat) (s : State) (b : Name) (act : AccountInfo) (bp : BpInfo)
    (reward : Int) (hne : voter ≠ other) :
    ageOf h (claimed h s voter b act bp reward) other b = ageOf h s other b := by
  rw [ageOf_eq, ageOf_eq]
  simp only [claimed]
  generalize hn : newestVoteage h s voter b = r
  obtain ⟨newest, votes, fixvotes⟩ := r
  obtain ⟨age, hcv, -⟩ := newestVoteage_eq hn
  have hvote : votes.find other b = s.votes.find other b := by
    rcases (claimVote_spec hcv).2 with ⟨rfl, -⟩ | ⟨v, -, rfl⟩
    · rfl
    · exact Scoped.find_put_scope _ _ hne
  have hfix : (s.fixvotes.setScope voter fixvotes).scope other = s.fixvotes.scope other := by
    rw [Scoped.scope_setScope, if_neg hne]
  rw [hvote, hfix]

theorem claimReward_eq {bp : BpInfo} {newest total : Int} (hp : IsPool bp.rewardsPool)
    (h0 : 0 ≤ newest) (hle : newest ≤ total) (ht : 0 < total) :
    claimReward bp newest total = share bp.rewardsPool.amount newest total := by
  have hx := Int.mul_nonneg hp.1.2 h0
  have hs := share_nonneg hp.1.2 h0 ht
  have hs' := share_le hp.1.2 hle ht
  have hm : Asset.maxAmount = 2 ^ 62 - 1 := rfl
  have hp' := hp.2
  unfold claimReward
  rw [Int.tdiv_eq_ediv_of_nonneg hx]
  exact i64_of_range (by unfold share at hs; omega) (by unfold share at hs'; omega)

/-- What a voter can spend. -/
def availableOf (s : State) (voter : Name) : Int :=
  ((s.accounts.find voter).getD {}).available.amount

theorem availableOf_of_find {act : AccountInfo} (hact : s.accounts.find voter = some act) :
    availableOf s voter = act.available.amount := by
  unfold availableOf; rw [hact]; rfl

/-- With a sound age of the voter and the bp, a claim needs authority and room for the reward. -/
theorem claim_ok_iff (hc : Coins s.ledger) {act : AccountInfo} {bp : BpInfo}
    (hh : env.currentBlockNum = h) (hauth : voter ∈ env.auths)
    (hact : s.accounts.find voter = some act) (hbp : s.bps.find b = some bp)
    (h0 : 0 ≤ ageOf h s voter b) (hle : ageOf h s voter b ≤ bp.getAge h) (hpos : 0 < bp.getAge h)
    {reward : Int}
    (hrew : reward = share bp.rewardsPool.amount (ageOf h s voter b) (bp.getAge h)) :
    claim env s voter b = .ok s' ↔ act.available.amount + reward ≤ Asset.maxAmount ∧
      s' = claimed h s voter b act bp reward := by
  subst hh
  have hp : IsPool bp.rewardsPool := hc.bps _ _ hbp
  have hco : IsCoin act.available := hc.accounts _ _ hact
  have hr := claimReward_eq hp h0 hle hpos
  have hr0 := share_nonneg hp.1.2 h0 hpos
  have hr1 := share_le hp.1.2 hle hpos
  rw [← hrew] at hr hr0 hr1
  have hm : Asset.maxAmount = 2 ^ 62 - 1 := rfl
  have hp' := hp.2
  have ha := hco.2
  have hsub : Asset.InRange (bp.rewardsPool.amount - reward) := ⟨by omega, by omega⟩
  have hrange : Asset.InRange reward := ⟨by omega, by omega⟩
  unfold ageOf at hr
  simp only [claim, requireAuth, bind_eq_ok, fetch_eq_ok, check_eq_ok, pure_eq_ok, exists_const,
    Asset.add_eq_ok, Asset.sub_eq_ok, Asset.make_eq_ok]
  constructor
  · rintro ⟨-, act', hact', bp', hbp', -, x, ⟨-, -, rfl⟩, -, _, ⟨-, hroom, rfl⟩, _, ⟨-, -, rfl⟩, rfl⟩
    obtain rfl := Option.some.inj (hact.symm.trans hact')
    obtain rfl := Option.some.inj (hbp.symm.trans hbp')
    simp only [hr] at hroom ⊢
    exact ⟨hroom.2, rfl⟩
  · rintro ⟨hroom, rfl⟩
    have hadd : Asset.InRange (act.available.amount + reward) := ⟨by omega, hroom⟩
    refine ⟨hauth, act, hact, bp, hbp, hpos, ⟨reward, coreSymbol⟩, ⟨?_, coreSymbol_isValid, ?_⟩,
      ⟨hr0, hr1⟩, _, ⟨hco.1.symm, hadd, rfl⟩, _, ⟨hp.1.1.symm, hsub, rfl⟩, rfl⟩
    · rw [hr]; exact hrange
    · rw [hr]

/-- A claim of the voter at height `h` pays nothing. -/
def PaysNoMore (h : Nat) (s : State) (voter b : Name) : Prop := ∀ (env : Env) s',
  env.currentBlockNum = h → claim env s voter b = .ok s' → availableOf s' voter = availableOf s voter

theorem paysNoMore_of_age (hage : ageOf h s voter b = 0) : PaysNoMore h s voter b := by
  rintro env s' rfl hs
  simp only [claim, bind_eq_ok, fetch_eq_ok, check_eq_ok, pure_eq_ok, Asset.add_eq_ok,
    Asset.make_eq_ok] at hs
  obtain ⟨_, -, act, hact, bp, -, _, -, reward, ⟨-, -, rfl⟩, _, -, _, ⟨-, -, rfl⟩, _, -, rfl⟩ := hs
  have hzero : claimReward bp (newestVoteage env.currentBlockNum s voter b).1
      (bp.getAge env.currentBlockNum) = 0 := by
    unfold ageOf at hage
    rw [hage]
    unfold claimReward
    rw [Int.mul_zero, Int.zero_tdiv]
    decide
  rw [availableOf_of_find hact, availableOf_of_find (Table.find_put_self _ _ _), hzero]
  exact Int.add_zero _

/-! ## Two claims -/

theorem Locked.step {p q : Point} {a : Env × Action} (hp : Locked p) (hs : Step p a q)
    (hfit : LockFits a) : Locked q := by
  obtain ⟨s, tr, hg, hr, hall⟩ := hp
  refine ⟨s, _, hg, hr.snoc hs, fun e he => ?_⟩
  rcases List.mem_append.mp he with he | he
  · exact hall e he
  · rw [List.mem_singleton] at he
    subst he
    exact hfit

theorem Locked.claim {p : Point} (hp : Locked p) (hle : p.height ≤ env.currentBlockNum)
    (hs : claim env p.state voter b = .ok s') : Locked ⟨s', env.currentBlockNum⟩ := by
  have hstep : Step p (env, .claim voter b) ⟨s', env.currentBlockNum⟩ :=
    ⟨hle, rfl, [], silent_eq_ok.mpr ⟨hs, rfl⟩⟩
  exact hp.step hstep fun _ _ _ _ _ _ h => by cases h

/-- Where the locks fit, the age of a voter is at most that of the bp. -/
theorem Locked.ageOf_le {p : Point} (hp : Locked p) (hle : p.height ≤ h) (hlt : h < 2 ^ 32)
    {bp : BpInfo} (hbp : p.state.bps.find b = some bp) (voter : Name) :
    0 ≤ ageOf h p.state voter b ∧ ageOf h p.state voter b ≤ bp.getAge h := by
  have h1 := newestVoteage_le (hp.reachable.coins.agesNonneg h) voter b
  have h2 := ages_le hp (hp.reachable.heights.mono hle) hlt hbp
  exact ⟨h1.1, h1.2.trans h2⟩

/-- The age of a voter is a sum over its own votes. -/
theorem ageOf_le_scopes (hn : AgesNonneg s h) (voter b : Name) : ageOf h s voter b ≤
    (s.votes.scope voter).sum (fun k v => if k = b then v.voteage.getAge h else 0) +
      (s.fixvotes.scope voter).sum fun _ v => if v.bpname = b then v.getAge h else 0 := by
  have hw : ∀ k v, (s.votes.scope voter).find k = some v →
      0 ≤ if k = b then v.voteage.getAge h else 0 := fun k v hv => by
    split
    · exact hn.1 voter k v hv
    · exact le_refl _
  have hvote : ((s.votes.find voter b).getD {}).voteage.getAge h ≤
      (s.votes.scope voter).sum fun k v => if k = b then v.voteage.getAge h else 0 := by
    cases hfind : s.votes.find voter b with
    | none =>
      have h0 : ((none : Option VoteInfo).getD {}).voteage.getAge h = 0 := by
        simp [AssetAge.getAge, Asset.zero]
      rw [h0]
      exact Table.sum_nonneg hw
    | some v =>
      have hle := Table.le_sum hw hfind
      rwa [if_pos rfl] at hle
  rw [ageOf_eq]
  omega

/-- Where the locks fit, the ages of two voters are together at most that of the bp. -/
theorem Locked.two_ages_le {p : Point} (hp : Locked p) (hle : p.height ≤ h) (hlt : h < 2 ^ 32)
    {bp : BpInfo} (hbp : p.state.bps.find b = some bp) (hne : voter ≠ other) :
    ageOf h p.state voter b + ageOf h p.state other b ≤ bp.getAge h := by
  have hn := hp.reachable.coins.agesNonneg h
  have hages := ages_le hp (hp.reachable.heights.mono hle) hlt hbp
  have h1 := ageOf_le_scopes hn voter b
  have h2 := ageOf_le_scopes hn other b
  have hv := Scoped.two_scopes_le (t := p.state.votes)
    (w := fun _ k v => if k = b then v.voteage.getAge h else 0) (fun s k v hv => by
      split
      · exact hn.1 s k v hv
      · exact le_refl _) hne
  have hf := Scoped.two_scopes_le (t := p.state.fixvotes)
    (w := fun _ _ v => if v.bpname = b then v.getAge h else 0) (fun s k v hv => by
      split
      · exact hn.2.2 s k v hv
      · exact le_refl _) hne
  have h4 : 0 ≤ votesFor p.state.votes4ram b fun v => v.voteage.getAge h :=
    Scoped.sum_nonneg fun s k v hv => by
      split
      · exact hn.2.1 s k v hv
      · exact le_refl _
  simp only [votesAge, votesFor, fixVotesFor] at hages h4
  omega

/-- The ages that a claim reads are those of the code, which has them in `int64_t`. -/
structure AgesFit (h : Nat) (s : State) (voter b : Name) : Prop where
  bp : ∀ bp, s.bps.find b = some bp → i64 (bp.getAge h) = bp.getAge h
  vote : ∀ v, s.votes.find voter b = some v → i64 (v.voteage.getAge h) = v.voteage.getAge h
  fixvote : ∀ key v, s.fixvotes.find voter key = some v → v.bpname = b →
    i64 (v.getAge h) = v.getAge h

/-- The rows of a voter are no older than the voter. -/
theorem rows_le_ageOf (hn : AgesNonneg s h) (voter b : Name) :
    (∀ v, s.votes.find voter b = some v → v.voteage.getAge h ≤ ageOf h s voter b) ∧
      ∀ key v, s.fixvotes.find voter key = some v → v.bpname = b →
        v.getAge h ≤ ageOf h s voter b := by
  have hw : ∀ k v, (s.fixvotes.scope voter).find k = some v →
      0 ≤ if v.bpname = b then v.getAge h else 0 := fun k v hv => by
    split
    · exact hn.2.2 voter k v hv
    · exact le_refl _
  rw [ageOf_eq]
  constructor
  · intro v hv
    rw [hv, Option.getD_some]
    exact le_add_of_nonneg_right (Table.sum_nonneg hw)
  · intro key v hv hb
    have hvote : 0 ≤ ((s.votes.find voter b).getD {}).voteage.getAge h := by
      cases hfind : s.votes.find voter b with
      | none => simp [AssetAge.getAge, Asset.zero]
      | some r => exact hn.1 voter b r hfind
    have hle := Table.le_sum hw (show (s.fixvotes.scope voter).find key = some v from hv)
    rw [if_pos hb] at hle
    exact hle.trans (le_add_of_nonneg_left hvote)

/-- Where the locks fit and the age of the bp does, the other ages do. -/
theorem Locked.agesFit {p : Point} (hp : Locked p) (hle : p.height ≤ h) (hlt : h < 2 ^ 32)
    {bp : BpInfo} (hbp : p.state.bps.find b = some bp) (hfit : bp.getAge h < 2 ^ 63)
    (voter : Name) : AgesFit h p.state voter b := by
  have hn := hp.reachable.coins.agesNonneg h
  obtain ⟨h0, h1⟩ := hp.ageOf_le hle hlt hbp voter
  obtain ⟨hvote, hfix⟩ := rows_le_ageOf hn voter b
  refine ⟨fun bp' hbp' => ?_, fun v hv => ?_, fun key v hv hb => ?_⟩
  · obtain rfl := Option.some.inj (hbp.symm.trans hbp')
    exact i64_of_range (by omega) hfit
  · have hv0 := hn.1 voter b v hv
    have hv1 := hvote v hv
    exact i64_of_range (by omega) (by omega)
  · have hv0 := hn.2.2 voter key v hv
    have hv1 := hfix key v hv hb
    exact i64_of_range (by omega) (by omega)

/-- The share of the rewards pool that a voter is paid after another one has claimed. -/
def secondShare (bp : BpInfo) (total first second : Int) : Int :=
  share (bp.rewardsPool.amount - share bp.rewardsPool.amount first total) second (total - first)

section TwoClaims

variable {p : Point} {env' : Env} {bp : BpInfo}

theorem availableOf_claimed_self {act : AccountInfo} (hact : s.accounts.find voter = some act)
    (reward : Int) :
    availableOf (claimed h s voter b act bp reward) voter = availableOf s voter + reward := by
  rw [availableOf_of_find hact, availableOf, claimed, Table.find_put_self]
  rfl

theorem availableOf_claimed_other (act : AccountInfo) (reward : Int) (hne : voter ≠ other) :
    availableOf (claimed h s voter b act bp reward) other = availableOf s other := by
  unfold availableOf claimed
  rw [Table.find_put_ne _ _ hne]

/-- A voter with an age claims its share, and the bp is left with the rest. -/
theorem Locked.claim_share (hp : Locked p) (hle : p.height ≤ h) (hh : env.currentBlockNum = h)
    (hauth : voter ∈ env.auths) (hbp : p.state.bps.find b = some bp)
    (hage : 0 < ageOf h p.state voter b)
    (hroom : availableOf p.state voter +
      share bp.rewardsPool.amount (ageOf h p.state voter b) (bp.getAge h) ≤ Asset.maxAmount) :
    ∃ act t bp', t = claimed h p.state voter b act bp
        (share bp.rewardsPool.amount (ageOf h p.state voter b) (bp.getAge h)) ∧
      System.claim env p.state voter b = .ok t ∧ Locked ⟨t, h⟩ ∧
      availableOf t voter = availableOf p.state voter +
        share bp.rewardsPool.amount (ageOf h p.state voter b) (bp.getAge h) ∧
      t.bps.find b = some bp' ∧
      bp'.rewardsPool.amount = bp.rewardsPool.amount -
        share bp.rewardsPool.amount (ageOf h p.state voter b) (bp.getAge h) ∧
      bp'.totalVoteage = bp.getAge h - ageOf h p.state voter b ∧
      bp'.getAge h = bp.getAge h - ageOf h p.state voter b := by
  have hlt : h < 2 ^ 32 := hh ▸ env.currentBlockNum_lt
  obtain ⟨hvotes, hfix⟩ := hp.reachable.known
  obtain ⟨act, hact⟩ := exists_account hvotes hfix hage.ne'
  obtain ⟨h0, h1⟩ := hp.ageOf_le hle hlt hbp voter
  have hav := availableOf_of_find hact
  rw [hav] at hroom
  have hclaim := (claim_ok_iff hp.reachable.coins hh hauth hact hbp h0 h1 (hage.trans_le h1)
    rfl).mpr ⟨hroom, rfl⟩
  have hq := Locked.claim hp (hh.symm ▸ hle) hclaim
  rw [hh] at hq
  exact ⟨act, _, _, rfl, hclaim, hq, availableOf_claimed_self hact _, Table.find_put_self _ _ _,
    rfl, rfl, getAge_claimed _ _ _ _⟩

/-- One voter claims, then another one. -/
theorem Locked.two_claims (hp : Locked p) (hle : p.height ≤ h) (hh : env.currentBlockNum = h)
    (hh' : env'.currentBlockNum = h) (hne : voter ≠ other) (hauth : voter ∈ env.auths)
    (hauth' : other ∈ env'.auths) (hbp : p.state.bps.find b = some bp)
    (hage : 0 < ageOf h p.state voter b) (hage' : 0 < ageOf h p.state other b)
    (hroom : availableOf p.state voter +
      share bp.rewardsPool.amount (ageOf h p.state voter b) (bp.getAge h) ≤ Asset.maxAmount)
    (hroom' : availableOf p.state other + secondShare bp (bp.getAge h) (ageOf h p.state voter b)
      (ageOf h p.state other b) ≤ Asset.maxAmount) (hfit : bp.getAge h < 2 ^ 63) :
    ∃ t u, System.claim env p.state voter b = .ok t ∧ System.claim env' t other b = .ok u ∧
      availableOf u voter = availableOf p.state voter +
        share bp.rewardsPool.amount (ageOf h p.state voter b) (bp.getAge h) ∧
      availableOf u other = availableOf p.state other + secondShare bp (bp.getAge h)
        (ageOf h p.state voter b) (ageOf h p.state other b) ∧
      (u.bps.find b).map BpInfo.totalVoteage =
        some (bp.getAge h - ageOf h p.state voter b - ageOf h p.state other b) ∧
      (PaysNoMore h t voter b ∧ PaysNoMore h u voter b ∧ PaysNoMore h u other b) ∧
      ∀ w, AgesFit h t w b ∧ AgesFit h u w b := by
  have hlt : h < 2 ^ 32 := hh ▸ env.currentBlockNum_lt
  obtain ⟨act, t, bp₁, ht, hclaim, hq, hpaid, hbp₁, hpool, -, htotal⟩ :=
    hp.claim_share hle hh hauth hbp hage hroom
  -- the first claim leaves the other voter as it was
  have hother : ageOf h t other b = ageOf h p.state other b := by
    rw [ht, ageOf_claimed_other _ _ _ _ _ _ hne]
  have havail : availableOf t other = availableOf p.state other := by
    rw [ht, availableOf_claimed_other _ _ hne]
  have hshare : share bp₁.rewardsPool.amount (ageOf h t other b) (bp₁.getAge h) =
      secondShare bp (bp.getAge h) (ageOf h p.state voter b) (ageOf h p.state other b) := by
    rw [secondShare, hother, hpool, htotal]
  rw [← havail, ← hshare] at hroom'
  obtain ⟨act', u, bp₂, hu, hclaim', hr, hpaid', hbp₂, -, htotal', hrest⟩ :=
    hq.claim_share (le_refl h) hh' hauth' hbp₁ (hother.symm ▸ hage') hroom'
  have hself : ageOf h t voter b = 0 := by rw [ht, ageOf_claimed_self]
  have hrest : bp₂.getAge h = bp₁.getAge h - ageOf h t other b := hrest
  have hself' : ageOf h u voter b = 0 := by
    rw [hu, ageOf_claimed_other _ _ _ _ _ _ hne.symm, hself]
  refine ⟨t, u, hclaim, hclaim', ?_, ?_, ?_, ⟨?_, ?_, ?_⟩, fun w => ⟨?_, ?_⟩⟩
  · rw [hu, availableOf_claimed_other _ _ hne.symm, hpaid]
  · rw [hpaid', havail, hshare]
  · rw [hbp₂, Option.map_some, htotal', htotal, hother]
  · exact paysNoMore_of_age hself
  · exact paysNoMore_of_age hself'
  · exact paysNoMore_of_age (by rw [hu, ageOf_claimed_self])
  · exact hq.agesFit (le_refl h) hlt hbp₁ (by omega) w
  · exact hr.agesFit (le_refl h) hlt hbp₂ (by omega) w

/-- In a run whose locks fit, for two voters with positive ages for a bp whose own age is below
`2 ^ 63`, both with room in their accounts for what they are paid as the second: at one height, they
can claim in either order; each is paid the same in both orders, or one unit more or less; the bp is
left with the same age; none of the two is paid anything for another claim; and no age that a claim
reads in all this wraps. -/
theorem claims_commute (hp : Locked p) (hle : p.height ≤ h) (hh : env.currentBlockNum = h)
    (hh' : env'.currentBlockNum = h) (hne : voter ≠ other) (hauth : voter ∈ env.auths)
    (hauth' : other ∈ env'.auths) (hbp : p.state.bps.find b = some bp)
    (hage : 0 < ageOf h p.state voter b) (hage' : 0 < ageOf h p.state other b)
    (hroom : availableOf p.state voter + secondShare bp (bp.getAge h) (ageOf h p.state other b)
      (ageOf h p.state voter b) ≤ Asset.maxAmount)
    (hroom' : availableOf p.state other + secondShare bp (bp.getAge h) (ageOf h p.state voter b)
      (ageOf h p.state other b) ≤ Asset.maxAmount) (hfit : bp.getAge h < 2 ^ 63) :
    ∃ t u t' u', System.claim env p.state voter b = .ok t ∧ System.claim env' t other b = .ok u ∧
      System.claim env' p.state other b = .ok t' ∧ System.claim env t' voter b = .ok u' ∧
      |availableOf u voter - availableOf u' voter| ≤ 1 ∧
      |availableOf u other - availableOf u' other| ≤ 1 ∧
      (u.bps.find b).map BpInfo.totalVoteage = (u'.bps.find b).map BpInfo.totalVoteage ∧
      ((∀ s ∈ [t, u, u'], PaysNoMore h s voter b) ∧ ∀ s ∈ [t', u, u'], PaysNoMore h s other b) ∧
      ∀ s ∈ [p.state, t, u, t', u'], ∀ w, AgesFit h s w b := by
  have hlt : h < 2 ^ 32 := hh ▸ env.currentBlockNum_lt
  -- the first is paid no more than as the second, so the room is enough in both orders
  have hsum := hp.two_ages_le hle hlt hbp hne
  have hx := share_rest (p := bp.rewardsPool.amount) hage.le hage' hsum
  have hy := share_rest (p := bp.rewardsPool.amount) hage'.le hage (Int.add_comm _ _ ▸ hsum)
  unfold secondShare at hroom hroom'
  obtain ⟨t, u, ht, hu, hv, ho, htot, ⟨hno, hno', hno''⟩, hages⟩ := hp.two_claims hle hh hh' hne
    hauth hauth' hbp hage hage' (by omega) hroom' hfit
  obtain ⟨t', u', ht', hu', ho', hv', htot', ⟨hso, hso', hso''⟩, hages'⟩ := hp.two_claims hle hh' hh
    hne.symm hauth' hauth hbp hage' hage (by omega) hroom hfit
  unfold secondShare at ho hv'
  refine ⟨t, u, t', u', ht, hu, ht', hu', abs_le.mpr ?_, abs_le.mpr ?_, ?_, ⟨?_, ?_⟩, ?_⟩
  · omega
  · omega
  · rw [htot, htot']
    congr 1
    omega
  · simp only [List.mem_cons, List.not_mem_nil, or_false, forall_eq_or_imp, forall_eq]
    exact ⟨hno, hno', hso''⟩
  · simp only [List.mem_cons, List.not_mem_nil, or_false, forall_eq_or_imp, forall_eq]
    exact ⟨hso, hno'', hso'⟩
  · simp only [List.mem_cons, List.not_mem_nil, or_false, forall_eq_or_imp, forall_eq]
    exact ⟨hp.agesFit hle hlt hbp hfit, fun w => (hages w).1, fun w => (hages w).2,
      fun w => (hages' w).1, fun w => (hages' w).2⟩

end TwoClaims

/-! ### Two voters -/

/-- Two voters, the first with the largest amount of tokens, the account of the budget, and a bp. -/
def voters : State :=
  { accounts := (((∅ : Table Name AccountInfo).put 1 ⟨⟨Asset.maxAmount, coreSymbol⟩⟩).put 2
      ⟨⟨30000, coreSymbol⟩⟩).put budgetAccount {}
    bps := (∅ : Table Name BpInfo).put 7 { commissionRate := 100 } }

theorem voters_locked : Locked ⟨voters, 0⟩ := by
  refine ⟨voters, [], ?_, .nil, by simp⟩
  exact .of_rows ((((Table.all_empty _).put ⟨rfl, by decide⟩).put ⟨rfl, by decide⟩).put
    ⟨rfl, by decide⟩) ((Table.all_empty _).put ⟨rfl, rfl, rfl, rfl⟩)

/-- Both have voted for the bp. -/
def bothVoted : Point :=
  ((Point.mk voters 0).next (Env.of 1 1) (.vote 1 7 ⟨10000, coreSymbol⟩)).next (Env.of 2 1)
    (.vote 2 7 ⟨10000, coreSymbol⟩)

/-- A block has filled the pool of the bp. -/
def bothRewarded : Point := bothVoted.next (Env.block 2) (.onblock 7 1)

/-- The second voter has filled up the account of the first. -/
def filledUp : Point := bothRewarded.next (Env.of 2 2) (.transfer 2 1 ⟨10000, coreSymbol⟩ "")

/-- Instead, the second voter votes late, and the first ten blocks before the end of the heights, for
two years. -/
def lateVoter : Point :=
  ((Point.mk voters 0).next (Env.of 2 4294967200) (.vote 2 7 ⟨10000, coreSymbol⟩)).next
    (Env.of 1 4294967286) (.votefix 1 7 fvoteD ⟨10000, coreSymbol⟩ 1)

/-- Or the first votes with nearly all of its tokens. -/
def oldVoters : Point :=
  ((Point.mk voters 0).next (Env.of 1 1) (.vote 1 7 ⟨4611686018427380000, coreSymbol⟩)).next
    (Env.of 2 1) (.vote 2 7 ⟨10000, coreSymbol⟩)

/-- What the actions of the two voters come to. -/
theorem voters_eval : (exec (Env.of 1 1) voters (.vote 1 7 ⟨10000, coreSymbol⟩)).isOk = true ∧
    (exec (Env.of 2 1) ((Point.mk voters 0).next (Env.of 1 1)
      (.vote 1 7 ⟨10000, coreSymbol⟩)).state (.vote 2 7 ⟨10000, coreSymbol⟩)).isOk = true ∧
    (exec (Env.block 2) bothVoted.state (.onblock 7 1)).isOk = true ∧
    (exec (Env.of 2 2) bothRewarded.state (.transfer 2 1 ⟨10000, coreSymbol⟩ "")).isOk = true := by
  decide +kernel

theorem bothRewarded_locked : Locked bothRewarded := by
  obtain ⟨h1, h2, h3, -⟩ := voters_eval
  have hfit : ∀ env v b x, LockFits (env, .vote v b x) := fun _ _ _ _ => nofun
  have hvoted : Locked bothVoted :=
    (voters_locked.step (Point.next_step _ _ _ (by decide) h1) (hfit _ _ _ _)).step
      (Point.next_step _ _ _ (by decide) h2) (hfit _ _ _ _)
  exact hvoted.step (Point.next_step _ _ _ (by decide) h3) nofun

theorem filledUp_locked : Locked filledUp :=
  bothRewarded_locked.step (Point.next_step _ _ _ (by decide) voters_eval.2.2.2) nofun

/-- The bp of the two voters. -/
def sharedBp : BpInfo := (bothRewarded.state.bps.find 7).getD {}

theorem shared_eval : bothRewarded.state.bps.find 7 = some sharedBp ∧
    (0 < ageOf 3 bothRewarded.state 1 7 ∧ 0 < ageOf 3 bothRewarded.state 2 7) ∧
    availableOf bothRewarded.state 1 + secondShare sharedBp (sharedBp.getAge 3)
      (ageOf 3 bothRewarded.state 2 7) (ageOf 3 bothRewarded.state 1 7) ≤ Asset.maxAmount ∧
    availableOf bothRewarded.state 2 + secondShare sharedBp (sharedBp.getAge 3)
      (ageOf 3 bothRewarded.state 1 7) (ageOf 3 bothRewarded.state 2 7) ≤ Asset.maxAmount ∧
    sharedBp.getAge 3 < 2 ^ 63 := by
  decide +kernel

/-- The pool of 16499 units is shared by two voters with the same age. -/
theorem claims_commute_shared : ∃ t u t' u',
    claim (Env.of 1 3) bothRewarded.state 1 7 = .ok t ∧ claim (Env.of 2 3) t 2 7 = .ok u ∧
    claim (Env.of 2 3) bothRewarded.state 2 7 = .ok t' ∧ claim (Env.of 1 3) t' 1 7 = .ok u' ∧
    |availableOf u 1 - availableOf u' 1| ≤ 1 ∧ PaysNoMore 3 u 1 7 := by
  obtain ⟨hbp, ⟨h1, h2⟩, hroom, hroom', hfit⟩ := shared_eval
  obtain ⟨t, u, t', u', ht, hu, ht', hu', hle, -, -, ⟨hno, -⟩, -⟩ :=
    claims_commute bothRewarded_locked (by decide) (show (Env.of 1 3).currentBlockNum = 3 from rfl)
      (show (Env.of 2 3).currentBlockNum = 3 from rfl) (by decide) (by decide) (by decide) hbp h1 h2
      hroom hroom' hfit
  exact ⟨t, u, t', u', ht, hu, ht', hu', hle, hno u (by simp)⟩

theorem lateVoter_eval :
    ((exec (Env.of 2 4294967200) voters (.vote 2 7 ⟨10000, coreSymbol⟩)).isOk = true ∧
    (exec (Env.of 1 4294967286) ((Point.mk voters 0).next (Env.of 2 4294967200)
      (.vote 2 7 ⟨10000, coreSymbol⟩)).state
      (.votefix 1 7 fvoteD ⟨10000, coreSymbol⟩ 1)).isOk = true) ∧
    (0 < ageOf 4294967290 lateVoter.state 1 7 ∧ 0 < ageOf 4294967290 lateVoter.state 2 7) ∧
    (claim (Env.of 1 4294967290) lateVoter.state 1 7 >>= fun t =>
      claim (Env.of 2 4294967290) t 2 7).isOk = false := by
  decide +kernel

theorem filledUp_eval : (0 < ageOf 3 filledUp.state 1 7 ∧ 0 < ageOf 3 filledUp.state 2 7) ∧
    (claim (Env.of 1 3) filledUp.state 1 7).isOk = false := by
  decide +kernel

theorem oldVoters_eval :
    ((exec (Env.of 1 1) voters (.vote 1 7 ⟨4611686018427380000, coreSymbol⟩)).isOk = true ∧
    (exec (Env.of 2 1) ((Point.mk voters 0).next (Env.of 1 1)
      (.vote 1 7 ⟨4611686018427380000, coreSymbol⟩)).state (.vote 2 7 ⟨10000, coreSymbol⟩)).isOk =
        true) ∧
    (0 < ageOf 20001 oldVoters.state 1 7 ∧ 0 < ageOf 20001 oldVoters.state 2 7) ∧
    (oldVoters.state.bps.find 7).any (fun bp => i64 (bp.getAge 20001) < 0) = true := by
  decide +kernel

theorem oldVoters_locked : Locked oldVoters := by
  obtain ⟨⟨h1, h2⟩, -⟩ := oldVoters_eval
  exact (voters_locked.step (Point.next_step _ _ _ (by decide) h1) nofun).step
    (Point.next_step _ _ _ (by decide) h2) nofun

/-- After a lock that does not fit, the claim of its voter leaves the bp without an age for the other
voter; a voter whose account is full cannot claim; and where the age of the bp has reached `2 ^ 63`,
the `int64_t` that `claim` compares with 0 is negative. -/
theorem claims_not_commute :
    (Reachable lateVoter ∧ 0 < ageOf 4294967290 lateVoter.state 1 7 ∧
      0 < ageOf 4294967290 lateVoter.state 2 7 ∧
      ¬∃ t u, claim (Env.of 1 4294967290) lateVoter.state 1 7 = .ok t ∧
        claim (Env.of 2 4294967290) t 2 7 = .ok u) ∧
    (Locked filledUp ∧ 0 < ageOf 3 filledUp.state 1 7 ∧ 0 < ageOf 3 filledUp.state 2 7 ∧
      ¬∃ t, claim (Env.of 1 3) filledUp.state 1 7 = .ok t) ∧
    Locked oldVoters ∧ 0 < ageOf 20001 oldVoters.state 1 7 ∧ 0 < ageOf 20001 oldVoters.state 2 7 ∧
      ∃ bp, oldVoters.state.bps.find 7 = some bp ∧ i64 (bp.getAge 20001) < 0 := by
  obtain ⟨⟨h1, h2⟩, ⟨hage, hage'⟩, hfail⟩ := lateVoter_eval
  obtain ⟨⟨hage₁, hage₂⟩, hfail'⟩ := filledUp_eval
  obtain ⟨-, ⟨hold₁, hold₂⟩, hwrap⟩ := oldVoters_eval
  refine ⟨⟨?_, hage, hage', ?_⟩, ⟨filledUp_locked, hage₁, hage₂, ?_⟩, oldVoters_locked, hold₁, hold₂,
    ?_⟩
  · exact (voters_locked.reachable.step (Point.next_step _ _ _ (by decide) h1)).step
      (Point.next_step _ _ _ (by decide) h2)
  · rintro ⟨t, u, ht, hu⟩
    rw [ht] at hfail
    change (claim (Env.of 2 4294967290) t 2 7).isOk = false at hfail
    rw [hu] at hfail
    cases hfail
  · rintro ⟨t, ht⟩
    rw [ht] at hfail'
    cases hfail'
  · cases hbp : oldVoters.state.bps.find 7 with
    | none =>
      rw [hbp] at hwrap
      cases hwrap
    | some bp =>
      rw [hbp] at hwrap
      exact ⟨bp, rfl, of_decide_eq_true hwrap⟩

end Eosforce.System
