import Eosforce.System.Supply

/-!
# The stake of a bp

* `votesFor`, `fixVotesFor`: the sum over all voters of a weight of their votes, and of their
  fix-time votes, for one bp.
* `stakeOf`: the whole tokens staked on a bp by votes of the three kinds.
* `Change.stakes`: every action keeps `total_staked` equal to that sum; `totalStaked_eq` is the
  statement for reachable states.
* `stake_grows_iff`: an action adds stake to a bp in the blacklist exactly when it is a `revote` to
  such a bp.
-/

namespace Eosforce.System

open Fallible Keyed

variable {env : Env} {s : State} {a : Action} {l : Ledger}

/-! ## Whole tokens -/

/-- The whole tokens of an amount. -/
def whole (x : Int) : Int := x.tdiv coreSymbolPrecision

theorem whole_add {x y : Int} (hx : coreSymbolPrecision ∣ x) (hy : coreSymbolPrecision ∣ y) :
    whole (x + y) = whole x + whole y := by
  unfold whole
  rw [Int.tdiv_eq_ediv_of_dvd hx, Int.tdiv_eq_ediv_of_dvd hy,
    Int.tdiv_eq_ediv_of_dvd (Int.dvd_add hx hy), Int.add_ediv_of_dvd_left hx]

theorem whole_zero : whole 0 = 0 := Int.zero_tdiv _

theorem whole_neg (x : Int) : whole (-x) = -whole x := Int.neg_tdiv _ _

theorem whole_sub {x y : Int} (hx : coreSymbolPrecision ∣ x) (hy : coreSymbolPrecision ∣ y) :
    whole (x - y) = whole x - whole y := by
  rw [Int.sub_eq_add_neg, whole_add hx (Int.dvd_neg.mpr hy), whole_neg, Int.sub_eq_add_neg]

theorem whole_nonneg {x : Int} (h : 0 ≤ x) : 0 ≤ whole x := Int.tdiv_nonneg h (by decide)

theorem whole_pos {x : Int} (h : 0 < x) (hx : coreSymbolPrecision ∣ x) : 0 < whole x :=
  Int.tdiv_pos_of_pos_of_dvd h (by decide) hx

/-! ## Sums for one bp -/

/-- The sum of a weight over the votes of a table for a bp. -/
def votesFor (t : Scoped Name Name VoteInfo) (b : Name) (f : VoteInfo → Int) : Int :=
  t.sum fun _ b' v => if b' = b then f v else 0

/-- The sum of a weight over the fix-time votes for a bp. -/
def fixVotesFor (t : Scoped Name Nat FixTimeVoteInfo) (b : Name) (g : FixTimeVoteInfo → Int) : Int :=
  t.sum fun _ _ v => if v.bpname = b then g v else 0

theorem votesFor_put {f : VoteInfo → Int} (hf : f {} = 0) (t : Scoped Name Name VoteInfo)
    (b voter k : Name) (v : VoteInfo) :
    votesFor (t.put voter k v) b f =
      votesFor t b f + if k = b then f v - f ((t.find voter k).getD {}) else 0 := by
  unfold votesFor
  rw [Scoped.sum_put, Scoped.val_eq_getD (d := {}) (by simp [hf])]
  split <;> omega

theorem fixVotesFor_put_new {t : Scoped Name Nat FixTimeVoteInfo} {voter : Name} {key : Nat}
    (hk : t.find voter key = none) (b : Name) (g : FixTimeVoteInfo → Int) (v : FixTimeVoteInfo) :
    fixVotesFor (t.put voter key v) b g =
      fixVotesFor t b g + if v.bpname = b then g v else 0 := by
  unfold fixVotesFor
  rw [Scoped.sum_put, Scoped.val_of_none hk]
  omega

theorem fixVotesFor_put {t : Scoped Name Nat FixTimeVoteInfo} {voter : Name} {key : Nat}
    {v : FixTimeVoteInfo} (hk : t.find voter key = some v) (b : Name) (g : FixTimeVoteInfo → Int)
    (v' : FixTimeVoteInfo) :
    fixVotesFor (t.put voter key v') b g =
      fixVotesFor t b g + (if v'.bpname = b then g v' else 0) - if v.bpname = b then g v else 0 := by
  unfold fixVotesFor
  rw [Scoped.sum_put, Scoped.val_of_find hk]
  omega

/-- The sums after `claim`, by what it leaves of each row. -/
theorem fixVotesFor_claim {h : Nat} {bpname voter : Name} {n newest : Int}
    {t : Scoped Name Nat FixTimeVoteInfo} {tbl : Table Nat FixTimeVoteInfo}
    (hc : claimFixVotes h (t.scope voter) bpname n = (newest, tbl)) (b : Name)
    (g : FixTimeVoteInfo → Int) :
    fixVotesFor (t.setScope voter tbl) b g = fixVotesFor t b g +
      (t.scope voter).sum fun _ v =>
        if v.bpname = bpname ∧ bpname = b then
          (if v.isWithdraw then 0 else g (v.cleanAge h)) - g v else 0 := by
  unfold fixVotesFor
  have hs := claimFixVotes_sum h bpname (t.scope voter) n
    fun _ v => if v.bpname = b then g v else 0
  rw [hc] at hs
  rw [Scoped.sum_setScope, hs]
  have e : ((t.scope voter).sum fun _ v =>
      (claimedFixVote h bpname v).elim 0 fun v => if v.bpname = b then g v else 0) =
      ((t.scope voter).sum fun _ v => if v.bpname = b then g v else 0) +
        (t.scope voter).sum fun _ v => if v.bpname = bpname ∧ bpname = b then
          (if v.isWithdraw then 0 else g (v.cleanAge h)) - g v else 0 := by
    rw [← Table.sum_add]
    refine Table.sum_congr fun k v _ => ?_
    unfold claimedFixVote
    by_cases hb : v.bpname = bpname
    · by_cases hw : v.isWithdraw = true
      · by_cases hbb : bpname = b <;> simp [hb, hw, hbb]
      · by_cases hbb : bpname = b <;> simp [hb, hw, hbb, FixTimeVoteInfo.cleanAge]
    · simp [hb]
  rw [e]
  omega

/-- The stake of a bp, 0 for an unregistered one. -/
def stakeAt (t : Table Name BpInfo) (b : Name) : Int := ((t.find b).getD {}).totalStaked

theorem stakeAt_put (t : Table Name BpInfo) (k b : Name) (r : BpInfo) :
    stakeAt (t.put k r) b = if k = b then r.totalStaked else stakeAt t b := by
  unfold stakeAt
  rw [Table.find_put]
  split <;> rfl

theorem stakeAt_of_find {t : Table Name BpInfo} {k : Name} {r : BpInfo} (h : t.find k = some r) :
    stakeAt t k = r.totalStaked := by
  unfold stakeAt; rw [h]; rfl

/-- A stake change of a registered bp. -/
theorem stakeAt_add {t : Table Name BpInfo} {k : Name} {r : BpInfo} (h : t.find k = some r)
    (b : Name) (n : Nat) (x : Int) :
    stakeAt (t.put k (r.addTotalStaked n x)) b =
      stakeAt t b + if k = b then whole x else 0 := by
  rw [stakeAt_put]
  split
  · subst_vars
    rw [stakeAt_of_find h]; rfl
  · omega

theorem stakeAt_stakeBy {t : Table Name BpInfo} {k : Name} {r : BpInfo} (h : t.find k = some r)
    (b : Name) (n : Nat) (x : Int) :
    stakeAt (t.put k (r.stakeBy n x)) b = stakeAt t b + if k = b then whole x else 0 := by
  unfold BpInfo.stakeBy
  split
  · subst_vars
    rw [Table.put_find h, whole_zero, ite_self, Int.add_zero]
  · exact stakeAt_add h b n x

/-- Stake moved from one bp to another. -/
theorem stakeAt_move {t : Table Name BpInfo} {k k' : Name} {r r' : BpInfo} (hne : k ≠ k')
    (h : t.find k = some r) (h' : t.find k' = some r') (b : Name) (n : Nat) (x : Int) :
    stakeAt ((t.put k (r.addTotalStaked n (-x))).put k' (r'.addTotalStaked n x)) b =
      stakeAt t b - (if k = b then whole x else 0) + if k' = b then whole x else 0 := by
  rw [stakeAt_add ((Table.find_put_ne t _ hne).trans h'), stakeAt_add h, whole_neg]
  split <;> omega

/-! ## The sum of the votes -/

/-- The whole tokens of a vote. -/
def voteStake (v : VoteInfo) : Int := whole v.voteage.staked.amount

/-- The powered whole tokens of a fix-time vote: none once it is withdrawn. -/
def fixVoteStake (v : FixTimeVoteInfo) : Int :=
  if v.isWithdraw then 0 else whole v.votepowerAge.staked.amount

/-- The whole tokens staked on a bp. -/
def Ledger.stakeOf (l : Ledger) (b : Name) : Int :=
  votesFor l.votes b voteStake + votesFor l.votes4ram b voteStake +
    fixVotesFor l.fixvotes b fixVoteStake

theorem voteStake_default : voteStake {} = 0 := rfl

/-- Every action keeps the stakes of the bps equal to the sums of the votes. -/
theorem Change.stakes (hch : Change env s a l) (hc : Coins s.ledger)
    (hI : ∀ b, stakeAt s.bps b = s.ledger.stakeOf b) (b : Name) :
    stakeAt l.bps b = l.stakeOf b := by
  have hb := hI b
  cases hch with
  | @transfer src dst q memo x y hx hsym h0 hle hy => exact hb
  | @updatebp bpname key rate url r hr =>
    refine Eq.trans ?_ hb
    simp only [stakeAt_put]
    split
    · subst_vars; rfl
    · rfl
  | @cast typ voter bpname stake act bp change v hact hbp hst hw hrow hle hblack =>
    have hvt := hc.votesTbl typ
    rw [ledger_votesTbl] at hvt
    have ho := VoteOk.getD hvt voter bpname
    have hd : voteStake v - voteStake (((s.votesTbl typ).find voter bpname).getD {}) =
        whole change := by
      rw [hrow.change_eq, whole_sub hw ho.whole]
      simp only [voteStake, hrow.voteage, AssetAge.changeStakedTo]
    cases typ <;> simp only [State.votesTbl] at hd <;>
      simp only [Ledger.stakeOf, Ledger.setVotesTbl, State.votesTbl, State.ledger,
        stakeAt_stakeBy hbp, votesFor_put voteStake_default, hd] at hb ⊢ <;> omega
  | @revote voter frombp tobp restake bpf bpt vf vt hne hst hpos hw hbpf hbpt hvf hle hvt =>
    have hf : VoteOk vf := hc.votes _ _ _ hvf
    have ht : VoteOk vt := hvt ▸ VoteOk.getD hc.votes voter tobp
    simp only [Ledger.stakeOf, State.ledger, stakeAt_move hne hbpf hbpt,
      votesFor_put voteStake_default, hvf, Scoped.find_put_ne _ _ fun e => hne e.2, hvt,
      Option.getD_some] at hb ⊢
    simp only [voteStake, AssetAge.changeStakedTo, whole_sub hf.whole hw, whole_add ht.whole hw]
    split <;> split <;> omega
  | @unfreeze typ voter bpname act v hact hv hpos =>
    cases typ <;> simp only [State.votesTbl] at hv <;>
      simp only [Ledger.stakeOf, Ledger.setVotesTbl, State.votesTbl, State.ledger,
        votesFor_put voteStake_default, hv, Option.getD_some, voteStake, sub_self, ite_self,
        add_zero] at hb ⊢ <;> exact hb
  | @votefix voter bpname typ stake stakeTyp key d act bp accounts votes f hd hbp hact hst hpos hw
      hblack htake hkey hf =>
    have hv : votesFor votes b voteStake = votesFor s.votes b voteStake := by
      rcases htake with ⟨-, -, rfl⟩ | ⟨-, v, hv, -, rfl⟩
      · rfl
      · rw [votesFor_put voteStake_default, hv]; simp [voteStake]
    have hg : fixVoteStake f = whole (stake.amount * d.power) := by rw [hf]; rfl
    have hn : f.bpname = bpname := by rw [hf]
    simp only [Ledger.stakeOf, State.ledger, stakeAt_add hbp, hv, fixVotesFor_put_new hkey, hg,
      hn] at hb ⊢
    omega
  | @revotefix voter key bpname f bpf bpt hf hne hwd hlt hblack hbpf hbpt hage =>
    simp only [Ledger.stakeOf, State.ledger, stakeAt_move hne hbpf hbpt,
      fixVotesFor_put hf] at hb ⊢
    simp only [fixVoteStake, FixTimeVoteInfo.cleanAge, AssetAge.cleanAge, hwd, Bool.false_eq_true,
      ↓reduceIte]
    split <;> split <;> omega
  | @outfixvote voter key f bp v hf hbp hle hwd hv =>
    simp only [Ledger.stakeOf, State.ledger, stakeAt_add hbp, fixVotesFor_put hf,
      votesFor_put voteStake_default, hv, whole_neg] at hb ⊢
    simp only [fixVoteStake, voteStake, hwd, Bool.false_eq_true, ↓reduceIte]
    split <;> omega
  | @claim voter bpname act bp newest reward votes fixvotes hact hbp hn hrw hage h0 hle =>
    obtain ⟨age, hcv, hcf⟩ := newestVoteage_eq hn
    have hv : votesFor votes b voteStake = votesFor s.votes b voteStake := by
      rcases (claimVote_spec hcv).2 with ⟨rfl, -⟩ | ⟨v, hv, rfl⟩
      · rfl
      · rw [votesFor_put voteStake_default, hv]
        simp [voteStake, VoteInfo.clean, AssetAge.cleanAge]
    have hz : ((s.fixvotes.scope voter).sum fun _ v => if v.bpname = bpname ∧ bpname = b then
        (if v.isWithdraw then 0 else fixVoteStake (v.cleanAge env.currentBlockNum)) -
          fixVoteStake v else 0) = 0 :=
      Table.sum_zero fun k v _ => by
        cases hwd : v.isWithdraw <;>
          simp [fixVoteStake, FixTimeVoteInfo.cleanAge, AssetAge.cleanAge, hwd]
    have hbps : stakeAt (s.bps.put bpname { bp with
        rewardsPool := ⟨bp.rewardsPool.amount - reward, bp.rewardsPool.symbol⟩
        totalVoteage := bp.getAge env.currentBlockNum - newest
        voteageUpdateHeight := env.currentBlockNum }) b = stakeAt s.bps b := by
      rw [stakeAt_put]
      split
      · subst_vars; exact (stakeAt_of_find hbp).symm
      · rfl
    simp only [Ledger.stakeOf, State.ledger, hbps, hv, fixVotesFor_claim hcf, hz] at hb ⊢
    omega
  | @bpclaim bpname act blockreward bpsreward x y hact hx hy hpos => exact hb
  | other hmv hv hv4 hf hs hco =>
    have h1 : stakeAt l.bps b = stakeAt s.bps b := (hs b).1
    rw [h1, hb]
    simp only [Ledger.stakeOf, hv, hv4, hf, State.ledger]

theorem Genesis.stakes {s : State} (hg : Genesis s) (b : Name) :
    stakeAt s.bps b = s.ledger.stakeOf b := by
  have h0 : stakeAt s.bps b = 0 := by
    unfold stakeAt
    cases hf : s.bps.find b with
    | none => rfl
    | some r => exact (hg.bps b r hf).1
  simp only [Ledger.stakeOf, State.ledger, hg.votes, hg.votes4ram, hg.fixvotes, h0]
  rfl

/-- In a reachable state the stake of every bp is the sum of the votes for it. -/
theorem Reachable.stakes {p : Point} (h : Reachable p) (b : Name) :
    stakeAt p.state.bps b = p.state.ledger.stakeOf b :=
  (h.inv (I := fun p => Coins p.state.ledger ∧
      ∀ b, stakeAt p.state.bps b = p.state.ledger.stakeOf b)
    (fun _ hg => ⟨hg.coins, hg.stakes⟩)
    fun _ _ _ hI hs => ⟨hs.change.coins hI.1, fun b => hs.change.stakes hI.1 hI.2 b⟩).2 b

/-- An amount of whole tokens that is not negative. -/
def IsWhole (x : Int) : Prop := 0 ≤ x ∧ coreSymbolPrecision ∣ x

/-- In a reachable state, the stake of a registered bp is the sum over all voters of the whole
tokens of their votes of the three kinds, and all staked amounts are whole tokens. -/
theorem totalStaked_eq {p : Point} (h : Reachable p) :
    (∀ b bp, p.state.bps.find b = some bp → bp.totalStaked =
      (p.state.votes.sum fun _ b' v =>
        if b' = b then v.voteage.staked.amount.tdiv coreSymbolPrecision else 0) +
      (p.state.votes4ram.sum fun _ b' v =>
        if b' = b then v.voteage.staked.amount.tdiv coreSymbolPrecision else 0) +
      p.state.fixvotes.sum fun _ _ v => if v.bpname = b then
        (if v.isWithdraw then 0 else v.votepowerAge.staked.amount.tdiv coreSymbolPrecision)
        else 0) ∧
    (p.state.votes.All fun _ _ v => IsWhole v.voteage.staked.amount) ∧
    (p.state.votes4ram.All fun _ _ v => IsWhole v.voteage.staked.amount) ∧
    p.state.fixvotes.All fun _ _ v => IsWhole v.votepowerAge.staked.amount := by
  have hc := h.coins
  refine ⟨fun b bp hb => ?_, ?_, ?_, ?_⟩
  · rw [← stakeAt_of_find hb]
    exact h.stakes b
  · exact hc.votes.imp fun _ _ _ hv => ⟨hv.staked.2, hv.whole⟩
  · exact hc.votes4ram.imp fun _ _ _ hv => ⟨hv.staked.2, hv.whole⟩
  · exact hc.fixvotes.imp fun _ _ _ hv => ⟨hv.staked.2, hv.whole⟩

/-- The first account has voted two tokens for the first bp. -/
def firstVote : State :=
  { founding with
    accounts := founding.accounts.put 1 ⟨⟨480000, coreSymbol⟩⟩
    votes := founding.votes.put 1 7
      { voteage := { staked := ⟨20000, coreSymbol⟩, updateHeight := 10 } }
    bps := founding.bps.put 7 { totalStaked := 2, voteageUpdateHeight := 10 }
    gvotestat := some 4 }

theorem firstVote_reachable : Reachable ⟨firstVote, 10⟩ :=
  founding_reachable.step (a := (Env.of 1 10, .vote 1 7 ⟨20000, coreSymbol⟩))
    ⟨by decide, rfl, _, rfl⟩

/-- After the vote, bp 7 has the 2 tokens of the vote. -/
theorem totalStaked_eq_firstVote : ∃ bp, firstVote.bps.find 7 = some bp ∧ bp.totalStaked =
      (firstVote.votes.sum fun _ b' v =>
        if b' = 7 then v.voteage.staked.amount.tdiv coreSymbolPrecision else 0) +
      (firstVote.votes4ram.sum fun _ b' v =>
        if b' = 7 then v.voteage.staked.amount.tdiv coreSymbolPrecision else 0) +
      (firstVote.fixvotes.sum fun _ _ v => if v.bpname = 7 then
        (if v.isWithdraw then 0 else v.votepowerAge.staked.amount.tdiv coreSymbolPrecision)
        else 0) ∧
    bp.totalStaked = 2 ∧ firstVote.votes.All fun _ _ v => IsWhole v.voteage.staked.amount := by
  obtain ⟨hsum, hvotes, -, -⟩ := totalStaked_eq firstVote_reachable
  exact ⟨_, rfl, hsum 7 _ rfl, rfl, hvotes⟩

/-! ## Stake for a bp in the blacklist -/

/-- A stake change that is not positive adds nothing. -/
theorem stakeAt_stakeBy_le {t : Table Name BpInfo} {k : Name} {r : BpInfo}
    (h : t.find k = some r) {b : Name} (n : Nat) {x : Int} (hx : k = b → x ≤ 0) :
    stakeAt (t.put k (r.stakeBy n x)) b ≤ stakeAt t b := by
  rw [stakeAt_stakeBy h]
  split
  · rename_i e
    have h0 := whole_nonneg (x := -x) (by have := hx e; omega)
    rw [whole_neg] at h0
    omega
  · omega

/-- The actions other than `revote` check the blacklist before they add stake. -/
theorem Change.stakeAt_le (hch : Change env s a l) (hc : Coins s.ledger) {b : Name}
    (hb : isProducerInBlacklist s b = true)
    (hr : ∀ voter frombp restake, a ≠ .revote voter frombp b restake) :
    stakeAt l.bps b ≤ stakeAt s.bps b := by
  have hne : ∀ {k : Name}, isProducerInBlacklist s k = false → k ≠ b := by
    rintro k hk rfl; rw [hb] at hk; cases hk
  cases hch with
  | transfer => exact le_refl _
  | @updatebp bpname key rate url r hr =>
    simp only [stakeAt_put]
    split
    · subst_vars; exact le_refl _
    · exact le_refl _
  | @cast typ voter bpname stake act bp change v hact hbp hst hw hrow hle hblack =>
    refine stakeAt_stakeBy_le hbp _ fun e => ?_
    by_contra hpos
    exact hne (hblack (by omega)) e
  | @revote voter frombp tobp restake bpf bpt vf vt hnet hst hpos hw hbpf hbpt hvf hle hvt =>
    have ht : tobp ≠ b := by rintro rfl; exact hr _ _ _ rfl
    have h0 := whole_nonneg hst.2
    simp only [stakeAt_move hnet hbpf hbpt, ht, ↓reduceIte]
    split <;> omega
  | @unfreeze typ => cases typ <;> exact le_refl (stakeAt s.bps b)
  | @votefix voter bpname typ stake stakeTyp key d act bp accounts votes f hd hbp hact hst hpos hw
      hblack htake hkey hf =>
    simp only [stakeAt_put, hne hblack, ↓reduceIte]; exact le_refl _
  | @revotefix voter key bpname f bpf bpt hf hnet hwd hlt hblack hbpf hbpt hage =>
    have hf' : FixVoteOk f := hc.fixvotes _ _ _ hf
    have h0 := whole_nonneg hf'.staked.2
    simp only [stakeAt_move hnet hbpf hbpt, hne hblack, ↓reduceIte]
    split <;> omega
  | @outfixvote voter key f bp v hf hbp hle hwd hv =>
    have hf' : FixVoteOk f := hc.fixvotes _ _ _ hf
    have h0 := whole_nonneg hf'.staked.2
    simp only [stakeAt_add hbp, whole_neg]
    split <;> omega
  | @claim voter bpname act bp newest reward votes fixvotes hact hbp hn hrw hage h0 hle =>
    simp only [stakeAt_put]
    split
    · subst_vars; exact (stakeAt_of_find hbp).ge
    · exact le_refl _
  | bpclaim => exact le_refl _
  | other hmv hv hv4 hf hs hco => exact le_of_eq (hs b).1

/-- A `revote` adds its stake whether the bp is in the blacklist or not. -/
theorem revote_stakeAt {s s' : State} {voter frombp tobp : Name} {restake : Asset}
    (h : revote env s voter frombp tobp restake = .ok s') :
    stakeAt s.bps tobp < stakeAt s'.bps tobp := by
  have hch := revote_change h
  generalize hl : s'.ledger = l at hch
  have hbps : s'.bps = l.bps := congrArg Ledger.bps hl
  rw [hbps]
  generalize ha : Action.revote voter frombp tobp restake = a at hch
  cases hch with
  | @revote _ _ _ _ bpf bpt vf vt hne hst hpos hw hbpf hbpt hvf hle hvt =>
    cases ha
    have h0 := whole_pos hpos hw
    simp only [stakeAt_move hne hbpf hbpt, hne, ↓reduceIte]
    omega
  | @cast typ => cases typ <;> cases ha
  | @unfreeze typ => cases typ <;> cases ha
  | other hmv => subst ha; cases hmv
  | _ => cases ha

/-- From a reachable state, an action adds no stake to any bp in the blacklist exactly when it is
not a `revote` to such a bp. -/
theorem stake_grows_iff {p q : Point} {a : Env × Action} (hp : Reachable p) (hs : Step p a q) :
    (∀ b, isProducerInBlacklist p.state b = true →
      stakeAt q.state.bps b ≤ stakeAt p.state.bps b) ↔
    ∀ voter frombp tobp restake, a.2 = .revote voter frombp tobp restake →
      isProducerInBlacklist p.state tobp = false := by
  constructor
  · intro h voter frombp tobp restake ha
    obtain ⟨-, -, fx, hfx⟩ := hs
    rw [ha] at hfx
    have hlt := revote_stakeAt (silent_eq_ok.mp hfx).1
    by_contra hb
    exact absurd (h tobp ((Bool.not_eq_false _).mp hb)) (not_le.mpr hlt)
  · intro h b hb
    refine hs.change.stakeAt_le hp.coins hb fun voter frombp restake ha => ?_
    rw [h voter frombp b restake ha] at hb
    cases hb

/-- The second bp is removed after the first vote. -/
def removed : State := { firstVote with blackpro := firstVote.blackpro.put 8 false }

theorem removed_reachable : Reachable ⟨removed, 11⟩ :=
  firstVote_reachable.step (a := (Env.of systemAccount 11, .removebp 8)) ⟨by decide, rfl, _, rfl⟩

theorem stake_grows_iff_vote :
    ∃ t, exec (Env.of 1 12) removed (.vote 1 7 ⟨30000, coreSymbol⟩) = .ok (t, []) ∧
      ∀ b, isProducerInBlacklist removed b = true → stakeAt t.bps b ≤ stakeAt removed.bps b := by
  obtain ⟨t, ht⟩ : ∃ t, exec (Env.of 1 12) removed (.vote 1 7 ⟨30000, coreSymbol⟩) =
    .ok (t, []) := ⟨_, rfl⟩
  exact ⟨t, ht, (stake_grows_iff (q := ⟨t, 12⟩) removed_reachable
    (a := (Env.of 1 12, .vote 1 7 ⟨30000, coreSymbol⟩)) ⟨by decide, rfl, [], ht⟩).mpr
      fun _ _ _ _ h => by cases h⟩

/-- A `revote` to the removed bp succeeds and adds stake to it. -/
theorem stake_of_removed_grows :
    ¬∀ (p q : Point) (a : Env × Action), Reachable p → Step p a q →
      ∀ b, isProducerInBlacklist p.state b = true →
        stakeAt q.state.bps b ≤ stakeAt p.state.bps b := by
  intro h
  have hlt := h ⟨removed, 11⟩ ⟨_, 12⟩ (Env.of 1 12, .revote 1 7 8 ⟨10000, coreSymbol⟩)
    removed_reachable ⟨by decide, rfl, _, rfl⟩ 8 rfl
  exact absurd hlt (by decide)

end Eosforce.System
