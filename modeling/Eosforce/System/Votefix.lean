import Eosforce.System.Expiry
import Eosforce.System.GlobalStake

/-!
# When a fix-time vote is accepted

`votefix` takes the stake from the voter's account or from the unstaking tokens of the voter's vote
for the same bp, and adds the powered stake to the bp and to the global stake.

* `stakeSource`: the tokens that a `stake_typ` names.
* `Acceptable`: what a fix-time vote needs, the whole of the source being allowed as its stake.
* `takeStake_ok_iff`, `takeStake_source`: the part of `votefix` that takes the stake.
* `votefix_iff`: `votefix` accepts these votes, with the effects that they should have, except where
  the stake is all the unstaking tokens, the voter's table has no key left, or the row of the global
  stake does not exist yet.
-/

namespace Eosforce.System

open Fallible Keyed

variable {env : Env} {s s' t : State} {voter bpname typ : Name} {stake : Asset} {stakeTyp : Nat}

/-! ## What a fix-time vote needs -/

/-- The tokens that a `stake_typ` names: 1 for those of the account, 2 for the unstaking ones of the
vote for the bp. -/
def stakeSource (s : State) (voter bpname : Name) : Nat → Option Asset
  | 1 => (s.accounts.find voter).map AccountInfo.available
  | 2 => (s.votes.find voter bpname).map VoteInfo.unstaking
  | _ => none

/-- A fix-time vote that should be accepted. -/
structure Acceptable (env : Env) (s : State) (voter bpname typ : Name) (stake : Asset)
    (stakeTyp : Nat) : Prop where
  powered : ∃ d, getDataByTyp typ = some d ∧ Asset.InRange (stake.amount * d.power)
  core : stake.symbol = coreSymbol
  integral : 0 < stake.amount ∧ stake.amount % coreSymbolPrecision = 0
  account : (s.accounts.find voter).isSome = true
  notFrozen : env.freezed voter = false
  active : isProducerInBlacklist s bpname = false
  source : ∃ a, stakeSource s voter bpname stakeTyp = some a ∧ stake.symbol = a.symbol ∧
    stake.amount ≤ a.amount

/-- What an accepted fix-time vote should do: take the stake from its source and from nowhere else,
and add the change, in whole tokens, to the bp and to the global stake. -/
structure StakeMoved (s s' : State) (voter bpname : Name) (stake : Asset) (stakeTyp : Nat)
    (change : Int) : Prop where
  taken : ∀ v b n, stakeSource s' v b n = (stakeSource s v b n).map fun a =>
    if n = stakeTyp ∧ v = voter ∧ (n = 2 → b = bpname) then ⟨a.amount - stake.amount, a.symbol⟩
    else a
  bp : ∀ b, stakeAt s'.bps b = stakeAt s.bps b + if bpname = b then change else 0
  total : (getGlobalVotestate s').2 = (getGlobalVotestate s).2 + change

/-- `votefix` succeeds for the acceptable votes only, for all of them, and moves their stake. -/
def VotefixMeets (env : Env) (s : State) (voter bpname typ : Name) (stake : Asset)
    (stakeTyp : Nat) : Prop :=
  ((∃ s', votefix env s voter bpname typ stake stakeTyp = .ok s') ↔
      Acceptable env s voter bpname typ stake stakeTyp) ∧
    ∀ s' d, votefix env s voter bpname typ stake stakeTyp = .ok s' → getDataByTyp typ = some d →
      StakeMoved s s' voter bpname stake stakeTyp (whole (stake.amount * d.power))

/-- The stake is not all the unstaking tokens, what is left of the source can be represented, the
voter's table has a key left, and the row of the global stake exists. -/
structure Regular (s : State) (voter bpname : Name) (stake : Asset) (stakeTyp : Nat) : Prop where
  notAll : stakeTyp = 2 → ∀ v, s.votes.find voter bpname = some v →
    stake.amount ≠ v.unstaking.amount
  rest : ∀ a, stakeSource s voter bpname stakeTyp = some a →
    a.amount - stake.amount ≤ Asset.maxAmount
  key : ∃ key, availablePrimaryKey (s.fixvotes.scope voter) = .ok key
  row : s.gvotestat.isSome = true

/-! ## Taking the stake -/

/-- The stake is taken exactly if it can be subtracted from its source, and is below it if the source
is the unstaking tokens. -/
theorem takeStake_ok_iff {act : AccountInfo} (hact : s.accounts.find voter = some act) :
    (∃ t, takeStake s voter bpname act stake stakeTyp = .ok t) ↔
      ∃ a, stakeSource s voter bpname stakeTyp = some a ∧ stake.symbol = a.symbol ∧
        stake.amount ≤ a.amount ∧ (stakeTyp = 2 → stake.amount ≠ a.amount) ∧
        Asset.InRange (a.amount - stake.amount) := by
  unfold takeStake stakeSource
  split
  · simp only [hact, bind_eq_ok, check_eq_ok, pure_eq_ok, exists_const, Asset.le_eq_ok,
      Asset.sub_eq_ok, Option.map_some, Option.some.injEq, exists_eq_left']
    constructor
    · rintro ⟨t, _, ⟨hsym, rfl⟩, hle, _, ⟨-, hin, -⟩, -⟩
      exact ⟨hsym, of_decide_eq_true hle, nofun, hin⟩
    · rintro ⟨hsym, hle, -, hin⟩
      exact ⟨_, _, ⟨hsym, rfl⟩, decide_eq_true hle, _, ⟨hsym, hin, rfl⟩, rfl⟩
  · simp only [bind_eq_ok, fetch_eq_ok, check_eq_ok, pure_eq_ok, exists_const, Asset.lt_eq_ok,
      Asset.sub_eq_ok, Option.map_eq_some_iff]
    constructor
    · rintro ⟨t, v, hv, _, ⟨hsym, rfl⟩, hlt, _, ⟨-, hin, -⟩, -⟩
      have hlt := of_decide_eq_true hlt
      exact ⟨_, ⟨v, hv, rfl⟩, hsym, hlt.le, fun _ => hlt.ne, hin⟩
    · rintro ⟨_, ⟨v, hv, rfl⟩, hsym, hle, hne, hin⟩
      have hlt := lt_of_le_of_ne hle (hne trivial)
      exact ⟨_, v, hv, _, ⟨hsym, rfl⟩, decide_eq_true hlt, _, ⟨hsym, hin, rfl⟩, rfl⟩
  · simp

/-- Where nothing is taken. -/
theorem map_ite_of_not {c : Prop} [Decidable c] (h : ¬c) (f : Asset → Asset) (o : Option Asset) :
    (o.map fun a => if c then f a else a) = o := by
  simp only [if_neg h, Option.map_id']

/-- The stake is taken from its source, and nothing from any other. -/
theorem takeStake_source {act : AccountInfo} (hact : s.accounts.find voter = some act)
    (h : takeStake s voter bpname act stake stakeTyp = .ok t) (v b : Name) (n : Nat) :
    stakeSource t v b n = (stakeSource s v b n).map fun a =>
      if n = stakeTyp ∧ v = voter ∧ (n = 2 → b = bpname) then ⟨a.amount - stake.amount, a.symbol⟩
      else a := by
  unfold takeStake at h
  split at h
  · simp only [bind_eq_ok, check_eq_ok, pure_eq_ok, exists_const, Asset.le_eq_ok,
      Asset.sub_eq_ok] at h
    obtain ⟨_, -, -, _, ⟨-, -, rfl⟩, rfl⟩ := h
    unfold stakeSource
    split
    · rw [Table.find_put]
      by_cases hv : voter = v
      · subst hv; simp [hact]
      · rw [if_neg hv, map_ite_of_not fun e => hv e.2.1.symm]
    · rw [map_ite_of_not (by simp)]
    · rfl
  · simp only [bind_eq_ok, fetch_eq_ok, check_eq_ok, pure_eq_ok, exists_const, Asset.lt_eq_ok,
      Asset.sub_eq_ok] at h
    obtain ⟨r, hr, _, -, -, _, ⟨-, -, rfl⟩, rfl⟩ := h
    unfold stakeSource
    split
    · rw [map_ite_of_not (by simp)]
    · rw [Scoped.find_put]
      by_cases hv : voter = v ∧ bpname = b
      · obtain ⟨rfl, rfl⟩ := hv; simp [hr]
      · rw [if_neg hv, map_ite_of_not fun e => hv ⟨e.2.1.symm, (e.2.2 rfl).symm⟩]
    · rfl
  · cases h

/-! ## Acceptance -/

/-- What `votefix` checks. -/
theorem votefix_ok_iff {bp : BpInfo} (hauth : voter ∈ env.auths)
    (hbp : s.bps.find bpname = some bp) :
    (∃ s', votefix env s voter bpname typ stake stakeTyp = .ok s') ↔
      ∃ d act, getDataByTyp typ = some d ∧ s.accounts.find voter = some act ∧
        stake.symbol = coreSymbol ∧ (0 < stake.amount ∧ stake.amount % 10000 = 0) ∧
        env.freezed voter = false ∧
        (∃ t, takeStake s voter bpname act stake stakeTyp = .ok t) ∧
        isProducerInBlacklist s bpname = false ∧ Asset.InRange (stake.amount * d.power) ∧
        ∃ key, availablePrimaryKey (s.fixvotes.scope voter) = .ok key := by
  simp only [votefix, requireAuth, bind_eq_ok, fetch_eq_ok, check_eq_ok, exists_const,
    Asset.mul_eq_ok, onChangeTotalStaked_eq, hauth, true_and, hbp, Option.some.injEq,
    exists_eq_left', Bool.not_eq_true]
  constructor
  · rintro ⟨s', d, hd, act, hact, hsym, hst, hfr, t, ht, hb, _, ⟨hin, -⟩, key, hkey, -⟩
    obtain ⟨accounts, votes, rfl, -⟩ := takeStake_spec ht
    exact ⟨d, act, hd, hact, hsym, hst, hfr, ⟨_, ht⟩, hb, hin, key, hkey⟩
  · rintro ⟨d, act, hd, hact, hsym, hst, hfr, ⟨t, ht⟩, hb, hin, key, hkey⟩
    obtain ⟨accounts, votes, rfl, -⟩ := takeStake_spec ht
    exact ⟨_, d, hd, act, hact, hsym, hst, hfr, _, ht, hb, _, ⟨hin, rfl⟩, key, hkey, rfl⟩

/-- `votefix` accepts the acceptable votes whose source it can pay from, as long as the voter's table
has a key left. -/
theorem votefix_ok_iff_acceptable {bp : BpInfo} (hauth : voter ∈ env.auths)
    (hbp : s.bps.find bpname = some bp) :
    (∃ s', votefix env s voter bpname typ stake stakeTyp = .ok s') ↔
      Acceptable env s voter bpname typ stake stakeTyp ∧
        (stakeTyp = 2 → ∀ v, s.votes.find voter bpname = some v →
          stake.amount ≠ v.unstaking.amount) ∧
        (∀ a, stakeSource s voter bpname stakeTyp = some a →
          a.amount - stake.amount ≤ Asset.maxAmount) ∧
        ∃ key, availablePrimaryKey (s.fixvotes.scope voter) = .ok key := by
  rw [votefix_ok_iff hauth hbp]
  constructor
  · rintro ⟨d, act, hd, hact, hsym, hst, hfr, ht, hb, hin, hkey⟩
    obtain ⟨a, ha, hsa, hle, hne, hrest⟩ := (takeStake_ok_iff hact).mp ht
    refine ⟨⟨⟨d, hd, hin⟩, hsym, hst, by rw [hact]; rfl, hfr, hb, a, ha, hsa, hle⟩, ?_, ?_, hkey⟩
    · rintro rfl v hv
      have hav : a = v.unstaking := by simpa [stakeSource, hv] using ha.symm
      exact hav ▸ hne rfl
    · intro a' ha'
      cases ha.symm.trans ha'
      exact hrest.2
  · rintro ⟨⟨⟨d, hd, hin⟩, hsym, hst, hacc, hfr, hb, a, ha, hsa, hle⟩, hne, hrest, hkey⟩
    obtain ⟨act, hact⟩ := Option.isSome_iff_exists.mp hacc
    refine ⟨d, act, hd, hact, hsym, hst, hfr, (takeStake_ok_iff hact).mpr ?_, hb, hin, hkey⟩
    refine ⟨a, ha, hsa, hle, ?_, ?_, hrest a ha⟩
    · rintro rfl
      obtain ⟨v, hv, rfl⟩ := Option.map_eq_some_iff.mp ha
      exact hne rfl v hv
    · have hmax : (0 : Int) ≤ Asset.maxAmount := by decide
      omega

/-- What an accepted fix-time vote does: a row of the global stake that it makes counts the change
twice. -/
theorem votefix_moves {d : FixVoteData}
    (h : votefix env s voter bpname typ stake stakeTyp = .ok s') (hd : getDataByTyp typ = some d) :
    (∀ v b n, stakeSource s' v b n = (stakeSource s v b n).map fun a =>
      if n = stakeTyp ∧ v = voter ∧ (n = 2 → b = bpname) then ⟨a.amount - stake.amount, a.symbol⟩
      else a) ∧
    (∀ b, stakeAt s'.bps b = stakeAt s.bps b +
      if bpname = b then whole (stake.amount * d.power) else 0) ∧
    (getGlobalVotestate s').2 = (getGlobalVotestate s).2 + whole (stake.amount * d.power) +
      if s.gvotestat.isSome then 0 else whole (stake.amount * d.power) := by
  simp only [votefix, bind_eq_ok, fetch_eq_ok, check_eq_ok, exists_const, Asset.mul_eq_ok,
    onChangeTotalStaked_eq] at h
  obtain ⟨_, -, d', hd', act, hact, bp, hbp, -, -, -, t, ht, -, _, ⟨-, rfl⟩, key, -, h⟩ := h
  cases hd.symm.trans hd'
  have hsource := takeStake_source hact ht
  obtain ⟨accounts, votes, rfl, -⟩ := takeStake_spec ht
  cases h
  refine ⟨hsource, fun b => stakeAt_add hbp b _ _, ?_⟩
  have hsum := bpsStake_add hbp env.currentBlockNum (stake.amount * d.power)
  rw [getGlobalVotestate_eq, getGlobalVotestate_eq]
  unfold bpsStake at hsum
  simp only [stakeTotal, Option.getD_some]
  cases s.gvotestat with
  | none =>
    simp only [Option.getD_none, hsum, Option.isSome_none, Bool.false_eq_true, ↓reduceIte]
    rfl
  | some n =>
    simp only [Option.getD_some, Option.isSome_some, ↓reduceIte, Int.add_zero]
    rfl

/-- An acceptable vote changes the stake of its bp. -/
theorem Acceptable.change_pos (h : Acceptable env s voter bpname typ stake stakeTyp)
    {d : FixVoteData} (hd : getDataByTyp typ = some d) : 0 < whole (stake.amount * d.power) := by
  have hp : coreSymbolPrecision = 10000 := rfl
  have hdvd : coreSymbolPrecision ∣ stake.amount * d.power :=
    Dvd.dvd.mul_right (Int.dvd_of_emod_eq_zero h.integral.2) _
  have hpos : 0 < stake.amount * d.power :=
    Int.mul_pos h.integral.1 (by exact_mod_cast power_pos hd)
  obtain ⟨k, hk⟩ := hdvd
  rw [whole, hk, Int.mul_tdiv_cancel_left k (by decide)]
  rw [hk, hp] at hpos
  omega

/-- `votefix` does for a registered bp and a voter who signs what it should, exactly if the vote is
not acceptable, or is a regular one. -/
theorem votefix_iff {bp : BpInfo} (hauth : voter ∈ env.auths)
    (hbp : s.bps.find bpname = some bp) :
    VotefixMeets env s voter bpname typ stake stakeTyp ↔
      (Acceptable env s voter bpname typ stake stakeTyp →
        Regular s voter bpname stake stakeTyp) := by
  have hok : (∃ s', votefix env s voter bpname typ stake stakeTyp = .ok s') ↔ _ :=
    votefix_ok_iff_acceptable hauth hbp
  constructor
  · rintro ⟨hiff, hmoved⟩ hacc
    obtain ⟨s', hs'⟩ := hiff.mpr hacc
    obtain ⟨-, hne, hrest, hkey⟩ := hok.mp ⟨s', hs'⟩
    obtain ⟨d, hd, -⟩ := hacc.powered
    refine ⟨hne, hrest, hkey, ?_⟩
    by_contra hrow
    have htotal := (hmoved s' d hs' hd).total
    have hmade := (votefix_moves hs' hd).2.2
    rw [if_neg hrow] at hmade
    have hpos := hacc.change_pos hd
    omega
  · intro hreg
    refine ⟨⟨fun h => (hok.mp h).1, fun hacc => ?_⟩, fun s' d hs' hd => ?_⟩
    · have h := hreg hacc
      exact hok.mpr ⟨hacc, h.notAll, h.rest, h.key⟩
    · obtain ⟨htaken, hb, htotal⟩ := votefix_moves hs' hd
      have hrow := (hreg (hok.mp ⟨s', hs'⟩).1).row
      rw [if_pos hrow, Int.add_zero] at htotal
      exact ⟨htaken, hb, htotal⟩

/-! ### A vote of all the unstaking tokens -/

/-- Account 1 has voted with one token, and taken the vote back. -/
def unstaked : Point :=
  ((Point.mk founding 0).next (Env.of 1 1) (.vote 1 7 ⟨10000, coreSymbol⟩)).next (Env.of 1 2)
    (.vote 1 7 ⟨0, coreSymbol⟩)

theorem unstaked_reachable : Reachable unstaked :=
  (founding_reachable.step (Point.next_step _ (Env.of 1 1) (.vote 1 7 ⟨10000, coreSymbol⟩)
    (by decide) rfl)).step (Point.next_step _ (Env.of 1 2) (.vote 1 7 ⟨0, coreSymbol⟩)
    (by decide) rfl)

/-- A fix-time vote with a token of the account. -/
theorem votefix_iff_unstaked :
    VotefixMeets (Env.of 1 3) unstaked.state 1 7 fvoteA ⟨10000, coreSymbol⟩ 1 := by
  have hbp : unstaked.state.bps.find 7 = some ((unstaked.state.bps.find 7).getD {}) := rfl
  exact (votefix_iff (by decide) hbp).mpr fun _ =>
    { notAll := nofun
      rest := fun a ha => by cases ha; decide
      key := ⟨0, rfl⟩
      row := rfl }

/-- A fix-time vote with all the unstaking tokens should be accepted, and is not. -/
theorem votefix_all_refused : Reachable unstaked ∧
    Acceptable (Env.of 1 3) unstaked.state 1 7 fvoteA ⟨10000, coreSymbol⟩ 2 ∧
      votefix (Env.of 1 3) unstaked.state 1 7 fvoteA ⟨10000, coreSymbol⟩ 2 =
        .error "need stake quantity <= your unstaking token" := by
  refine ⟨unstaked_reachable, ?_, rfl⟩
  exact ⟨⟨_, rfl, by decide⟩, rfl, by decide, rfl, rfl, rfl, _, rfl, rfl, by decide⟩

end Eosforce.System
