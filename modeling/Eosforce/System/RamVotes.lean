import Eosforce.System.Frame
import Eosforce.System.Supply

/-!
# The sum of the RAM votes

`vote4ramsum` keeps for each voter the stake of its RAM votes, which is its RAM quota.

* `ramStake`: the stake of a voter's RAM votes on all bps.
* `RamSums`: each row of `vote4ramsum` is that stake; without a row there are no votes.
* `vote4ramsum_eq`: so it is in every state reached.
-/

namespace Eosforce.System

open Fallible Keyed Runs

variable {env : Env} {s s' : State}

/-- The stake of the voter's RAM votes. -/
def ramStake (votes4ram : Scoped Name Name VoteInfo) (voter : Name) : Int :=
  (votes4ram.scope voter).sum fun _ v => v.voteage.staked.amount

/-- Each sum is the stake of the voter's RAM votes. -/
structure RamSums (s : State) : Prop where
  row : ∀ voter r, s.vote4ramsum.find voter = some r →
    r.staked = ⟨ramStake s.votes4ram voter, coreSymbol⟩
  none : ∀ voter, s.vote4ramsum.find voter = none → ∀ b, s.votes4ram.find voter b = none

/-- A vote that is written, by what it changes of the stake. -/
theorem ramStake_put (t : Scoped Name Name VoteInfo) (voter b w : Name) (v : VoteInfo) :
    ramStake (t.put voter b v) w = ramStake t w +
      if voter = w then v.voteage.staked.amount -
        ((t.find voter b).getD {}).voteage.staked.amount else 0 := by
  unfold ramStake Scoped.put
  rw [Scoped.scope_setScope]
  by_cases hw : voter = w
  · subst hw
    rw [if_pos rfl, if_pos rfl, Table.sum_put, Table.val_eq_getD (d := {}) rfl]
    simp only [Scoped.find]
    omega
  · rw [if_neg hw, if_neg hw, Int.add_zero]

theorem ramStake_of_none {t : Scoped Name Name VoteInfo} {voter : Name}
    (h : ∀ b, t.find voter b = none) : ramStake t voter = 0 :=
  Table.sum_zero fun b v hv => by
    have hb := h b
    rw [Scoped.find, hv] at hb
    cases hb

/-- What `vote_by_typ_imp` does to the RAM votes, and the change that it returns. -/
theorem voteByTypImp_ram {voter bpname : Name} {stake : Asset} {change : Int}
    (h : voteByTypImp .votes4ram env s voter bpname stake = .ok (s', change)) :
    ∃ v, s'.votes4ram = s.votes4ram.put voter bpname v ∧ s'.vote4ramsum = s.vote4ramsum ∧
      v.voteage.staked = stake ∧ stake.symbol = coreSymbol ∧
      change = stake.amount - ((s.votes4ram.find voter bpname).getD {}).voteage.staked.amount := by
  have hsum : s'.vote4ramsum = s.vote4ramsum :=
    voteByTypImp_frame (f := State.vote4ramsum) (fun _ _ _ _ _ _ _ _ => rfl) h
  simp only [voteByTypImp, bind_eq_ok, fetch_eq_ok, check_eq_ok, pure_eq_ok, Prod.mk.injEq,
    Prod.exists, exists_const] at h
  obtain ⟨_, -, act, hact, bp, hbp, hsym, hst, -, _, v, hv, t, ht, rfl, rfl⟩ := h
  obtain ⟨hrow, -⟩ := castVote_spec hst.1 hv
  obtain ⟨rfl, -⟩ := applyChange_spec (by rw [setVotesTbl_accounts]; exact hact)
    (by rw [setVotesTbl_bps]; exact hbp) ht
  refine ⟨v, rfl, hsum, ?_, hsym, hrow.change_eq⟩
  rw [hrow.voteage]
  rfl

/-- What `vote4ram` does to the sum of the voter. -/
theorem addVote4ramsum_spec {voter : Name} {stake : Asset} {change : Int}
    (h : addVote4ramsum s voter stake change = .ok s') :
    ∃ r, s'.vote4ramsum = s.vote4ramsum.put voter r ∧ s'.votes4ram = s.votes4ram ∧
      (s.vote4ramsum.find voter = none ∧ r.staked = stake ∨
        ∃ old, s.vote4ramsum.find voter = some old ∧
          r.staked = ⟨old.staked.amount + change, old.staked.symbol⟩) := by
  unfold addVote4ramsum at h
  split at h
  · rename_i hn
    cases h
    exact ⟨_, rfl, rfl, .inl ⟨hn, rfl⟩⟩
  · rename_i old hold
    simp only [bind_eq_ok, pure_eq_ok, Asset.make_eq_ok, Asset.add_eq_ok] at h
    obtain ⟨_, ⟨-, -, rfl⟩, _, ⟨-, -, rfl⟩, rfl⟩ := h
    exact ⟨_, rfl, rfl, .inr ⟨old, hold, rfl⟩⟩

/-- A RAM vote changes the sum by what it changes of the stake. -/
theorem vote4ram_sums {voter bpname : Name} {stake : Asset} {fx : List Effect} (hs : RamSums s)
    (h : vote4ram env s voter bpname stake = .ok (s', fx)) : RamSums s' := by
  simp only [vote4ram, bind_eq_ok, pure_eq_ok, Prod.exists, Prod.mk.injEq] at h
  obtain ⟨t, change, ht, u, hu, rfl, -⟩ := h
  obtain ⟨v, hvotes, hsums, hv, hsym, hchange⟩ := voteByTypImp_ram ht
  obtain ⟨r, hr, hvotes', hrow⟩ := addVote4ramsum_spec hu
  rw [hsums] at hr hrow
  rw [hvotes] at hvotes'
  refine ⟨fun w x hx => ?_, fun w hw b => ?_⟩
  · rw [hr, Table.find_put] at hx
    rw [hvotes', ramStake_put, hv]
    by_cases hvw : voter = w
    · subst hvw
      rw [if_pos rfl] at hx ⊢
      cases hx
      rcases hrow with ⟨hnone, hr⟩ | ⟨old, hold, hr⟩
      · -- the first vote of the voter: the sum is its stake
        have hfree := hs.none voter hnone
        rw [hr, ramStake_of_none hfree, hfree bpname, ← hsym]
        simp [Asset.zero]
      · rw [hr, hs.row voter old hold, hchange]
    · rw [if_neg hvw] at hx ⊢
      rw [hs.row w x hx, Int.add_zero]
  · rw [hr, Table.find_put] at hw
    split at hw
    · cases hw
    · rename_i hvw
      rw [hvotes', Scoped.find_put_scope _ _ hvw]
      exact hs.none w hw b

/-- The other actions that write RAM votes keep their stakes. -/
theorem unfreezeram_sums {voter bpname : Name} (hs : RamSums s)
    (h : unfreezeram env s voter bpname = .ok s') : RamSums s' := by
  have hsum : s'.vote4ramsum = s.vote4ramsum :=
    unfreezeByTypImp_frame (f := State.vote4ramsum) (fun _ _ _ _ _ _ _ _ => rfl) h
  simp only [unfreezeram, unfreezeByTypImp, bind_eq_ok, fetch_eq_ok, pure_eq_ok] at h
  obtain ⟨_, -, _, -, v, hv, _, -, _, -, _, -, rfl⟩ := h
  have hv : s.votes4ram.find voter bpname = some v := hv
  refine ⟨fun w x hx => ?_, fun w hw b => ?_⟩
  · rw [hsum] at hx
    refine (hs.row w x hx).trans (congrArg (Asset.mk · coreSymbol) ?_)
    show _ = ramStake (s.votes4ram.put voter bpname _) w
    rw [ramStake_put, hv, Option.getD_some, Int.sub_self, ite_self, Int.add_zero]
  · rw [hsum] at hw
    have hfree := hs.none w hw
    show (s.votes4ram.put voter bpname _).find w b = none
    rw [Scoped.find_put_ne]
    · exact hfree b
    · rintro ⟨rfl, rfl⟩
      rw [hfree] at hv
      cases hv

/-- No other action writes a RAM vote. -/
theorem Change.votes4ram {a : Action} {l : Ledger} (h : Change env s a l)
    (hvote : ∀ voter b x, a ≠ .vote4ram voter b x) (hun : ∀ voter b, a ≠ .unfreezeram voter b) :
    l.votes4ram = s.votes4ram := by
  cases h with
  | @cast typ voter b x =>
    cases typ with
    | votes => rfl
    | votes4ram => exact absurd rfl (hvote voter b x)
  | @unfreeze typ voter b =>
    cases typ with
    | votes => rfl
    | votes4ram => exact absurd rfl (hun voter b)
  | other hm hv hv4 => exact hv4
  | _ => rfl

/-- **Step lemma.** -/
theorem exec_ramSums {a : Action} {fx : List Effect} (hs : RamSums s)
    (h : exec env s a = .ok (s', fx)) : RamSums s' := by
  by_cases hvote : ∃ voter b x, a = .vote4ram voter b x
  · obtain ⟨voter, b, x, rfl⟩ := hvote
    exact vote4ram_sums hs h
  have hvote : ∀ voter b x, a ≠ .vote4ram voter b x := fun voter b x e => hvote ⟨voter, b, x, e⟩
  by_cases hun : ∃ voter b, a = .unfreezeram voter b
  · obtain ⟨voter, b, rfl⟩ := hun
    simp only [exec, silent_eq_ok] at h
    exact unfreezeram_sums hs h.1
  have hun : ∀ voter b, a ≠ .unfreezeram voter b := fun voter b e => hun ⟨voter, b, e⟩
  have hsum := exec_vote4ramsum hvote h
  have hvotes : s'.votes4ram = s.votes4ram := (exec_change h).votes4ram hvote hun
  refine ⟨fun w x hx => ?_, fun w hw => ?_⟩
  · rw [hvotes]
    exact hs.row w x (hsum ▸ hx)
  · rw [hvotes]
    exact hs.none w (hsum ▸ hw)

/-! ## Runs -/

/-- In every state that is reached, the row of a voter in `vote4ramsum` is the sum of the stakes of
its RAM votes on all bps; a voter without a row has no RAM vote. -/
theorem vote4ramsum_eq {p : Point} (h : Reachable p) (voter : Name) :
    (∀ r, p.state.vote4ramsum.find voter = some r →
      r.staked = ⟨(p.state.votes4ram.scope voter).sum fun _ v => v.voteage.staked.amount,
        coreSymbol⟩) ∧
    (p.state.vote4ramsum.find voter = none → ∀ b, p.state.votes4ram.find voter b = none) := by
  have hs : RamSums p.state := by
    refine h.inv (I := fun p => RamSums p.state) (fun s hg => ⟨fun w x hx => ?_, fun w _ b => ?_⟩)
      fun _ _ _ hs hst => ?_
    · rw [hg.vote4ramsum] at hx
      cases hx
    · rw [hg.votes4ram]
      rfl
    · obtain ⟨-, -, fx, hx⟩ := hst
      exact exec_ramSums hs hx
  exact ⟨hs.row voter, hs.none voter⟩

/-- Account 1 votes for RAM with nothing. -/
def ramVoted : Point := Point.next ⟨founding, 0⟩ (.of 1 1) (.vote4ram 1 7 ⟨0, coreSymbol⟩)

/-- Then with four tokens, on two bps, of which it takes two back. -/
def ramLowered : Point :=
  ((ramVoted.next (.of 1 2) (.vote4ram 1 7 ⟨40000, coreSymbol⟩)).next (.of 1 3)
    (.vote4ram 1 8 ⟨40000, coreSymbol⟩)).next (.of 1 4) (.vote4ram 1 7 ⟨20000, coreSymbol⟩)

theorem ramLowered_reachable : Reachable ramLowered :=
  (((founding_reachable.step (Point.next_step _ _ _ (by decide) rfl)).step
    (Point.next_step _ _ _ (by decide) rfl)).step (Point.next_step _ _ _ (by decide) rfl)).step
    (Point.next_step _ _ _ (by decide) rfl)

/-- Its sum is six tokens. -/
theorem vote4ramsum_eq_lowered : ∃ r, ramLowered.state.vote4ramsum.find 1 = some r ∧
    r.staked = ⟨60000, coreSymbol⟩ :=
  ⟨_, rfl, (vote4ramsum_eq ramLowered_reachable 1).1 _ rfl⟩

end Eosforce.System
