import Eosforce.Lib.Interleave
import Eosforce.System.Change

/-!
# The order of staking actions

The actions that vote, take votes back or unfreeze them write rows of their account, and of bps only
the stakes.

* `Staking`, `exec_staking`: what such an action writes, which depends only on the rows of its
  account, on which bps there are and which are banned.
* `Staking.apply_comm`: what actions of two accounts write at one block, in either order.
* `staking_order`: the staking actions of a block lead to the same state in every order that keeps
  the order of each account's actions.
-/

namespace Eosforce.System

open Fallible Keyed Runs Lanes

variable {env : Env} {s s' t : State} {v w : Name} {n : Nat}

/-! ## What staking actions write -/

/-- The account that stakes with an action. -/
def Action.staker : Action → Option Name
  | .vote voter _ _ | .vote4ram voter _ _ | .revote voter _ _ _ => some voter
  | .unfreeze voter _ | .unfreezeram voter _ => some voter
  | .votefix voter _ _ _ _ | .revotefix voter _ _ | .outfixvote voter _ => some voter
  | _ => none

/-- What a staking action writes: rows of its account, and changes of the stakes of bps, which are
`total` together. -/
structure Staking where
  account : Option AccountInfo := none
  votes : Option (Table Name VoteInfo) := none
  votes4ram : Option (Table Name VoteInfo) := none
  vote4ramsum : Option Vote4ramInfo := none
  fixvotes : Option (Table Nat FixTimeVoteInfo) := none
  stakes : List (Name × Int) := []
  total : Int := 0

/-- A change of the stake of a bp. -/
def stakeBp (n : Nat) (bps : Table Name BpInfo) (c : Name × Int) : Table Name BpInfo :=
  bps.update c.1 ((bps.find c.1).map fun b => b.addTotalStaked n c.2)

namespace Staking

/-- The state with what an action of an account writes at block `n`. -/
def apply (x : Staking) (n : Nat) (v : Name) (s : State) : State :=
  { s with
    accounts := s.accounts.update v x.account
    votes := s.votes.update v x.votes
    votes4ram := s.votes4ram.update v x.votes4ram
    vote4ramsum := s.vote4ramsum.update v x.vote4ramsum
    fixvotes := s.fixvotes.update v x.fixvotes
    bps := x.stakes.foldl (stakeBp n) s.bps
    gvotestat := s.gvotestat.map (· + x.total.tdiv coreSymbolPrecision) }

/-- The table of a kind of votes. -/
def ofVotes (typ : VoteTyp) (tbl : Table Name VoteInfo) : Staking :=
  match typ with
  | .votes => { votes := some tbl }
  | .votes4ram => { votes4ram := some tbl }

end Staking

/-- What a staking action of an account reads is the same in two states. -/
structure Alike (v : Name) (s t : State) : Prop where
  account : t.accounts.find v = s.accounts.find v
  votes : ∀ typ, (t.votesTbl typ).scope v = (s.votesTbl typ).scope v
  vote4ramsum : t.vote4ramsum.find v = s.vote4ramsum.find v
  fixvotes : t.fixvotes.scope v = s.fixvotes.scope v
  bps : ∀ b, (t.bps.find b).isSome = (s.bps.find b).isSome
  blackpro : t.blackpro = s.blackpro
  counted : t.gvotestat.isSome = true

/-! ## Two accounts -/

theorem addTotalStaked_comm (b : BpInfo) (n : Nat) (x y : Int) :
    (b.addTotalStaked n x).addTotalStaked n y = (b.addTotalStaked n y).addTotalStaked n x := by
  simp only [BpInfo.addTotalStaked, u32sub_self, Nat.cast_zero, Int.mul_zero, Int.add_zero,
    Int.add_right_comm]

theorem stakeBp_comm (n : Nat) (bps : Table Name BpInfo) (c d : Name × Int) :
    stakeBp n (stakeBp n bps c) d = stakeBp n (stakeBp n bps d) c := by
  unfold stakeBp
  by_cases hk : c.1 = d.1
  · rw [hk]
    cases hb : bps.find d.1 with
    | none => simp only [Option.map_none, Table.update, hb]
    | some b =>
      simp only [Option.map_some, Table.update, Table.find_put_self, Table.put_put,
        addTotalStaked_comm]
  · rw [Table.find_update_ne _ _ hk, Table.find_update_ne _ _ (Ne.symm hk), Table.update_comm _ _ _ hk]

theorem stakeBps_comm (n : Nat) (bps : Table Name BpInfo) (l m : List (Name × Int)) :
    m.foldl (stakeBp n) (l.foldl (stakeBp n) bps) = l.foldl (stakeBp n) (m.foldl (stakeBp n) bps) := by
  rw [← List.foldl_append, ← List.foldl_append]
  exact List.Perm.foldl_eq' List.perm_append_comm (fun c _ d _ t => stakeBp_comm n t c d) bps

theorem isSome_stakeBp (n : Nat) (bps : Table Name BpInfo) (c : Name × Int) (b : Name) :
    ((stakeBp n bps c).find b).isSome = (bps.find b).isSome := by
  unfold stakeBp
  by_cases hk : c.1 = b
  · subst hk
    cases hb : bps.find c.1 with
    | none => simp [Table.update, hb]
    | some r => simp [Table.update]
  · rw [Table.find_update_ne _ _ hk]

theorem isSome_stakeBps (n : Nat) (l : List (Name × Int)) (bps : Table Name BpInfo) (b : Name) :
    ((l.foldl (stakeBp n) bps).find b).isSome = (bps.find b).isSome := by
  induction l generalizing bps with
  | nil => rfl
  | cons c l ih => rw [List.foldl_cons, ih, isSome_stakeBp]

/-- What two accounts write at one block, in either order. -/
theorem Staking.apply_comm (x y : Staking) (n : Nat) (s : State) (h : v ≠ w) :
    y.apply n w (x.apply n v s) = x.apply n v (y.apply n w s) := by
  simp only [Staking.apply, Table.update_comm _ _ _ h, Scoped.update_comm _ _ _ h,
    stakeBps_comm n s.bps x.stakes, Option.map_map]
  congr 1
  cases s.gvotestat with
  | none => rfl
  | some g => exact congrArg some (Int.add_right_comm _ _ _)

/-- What an account reads is the same after an action of another. -/
theorem Staking.alike (x : Staking) (n : Nat) (h : v ≠ w) (hs : s.gvotestat.isSome = true) :
    Alike w s (x.apply n v s) where
  account := Table.find_update_ne _ _ h
  votes := fun typ => by cases typ <;> exact Scoped.scope_update_ne _ _ h
  vote4ramsum := Table.find_update_ne _ _ h
  fixvotes := Scoped.scope_update_ne _ _ h
  bps := isSome_stakeBps n x.stakes s.bps
  blackpro := rfl
  counted := by rw [Staking.apply, Option.isSome_map, hs]

theorem Alike.refl (hs : s.gvotestat.isSome = true) : Alike v s s :=
  ⟨rfl, fun _ => rfl, rfl, rfl, fun _ => rfl, rfl, hs⟩

theorem Alike.symm (h : Alike v s t) (hs : s.gvotestat.isSome = true) : Alike v t s :=
  ⟨h.account.symm, fun typ => (h.votes typ).symm, h.vote4ramsum.symm, h.fixvotes.symm,
    fun b => (h.bps b).symm, h.blackpro.symm, hs⟩

/-! ## The actions -/

theorem total_zero (g : Option Int) : (g.map (· + (0 : Int).tdiv coreSymbolPrecision)) = g := by
  cases g with
  | none => rfl
  | some g => exact congrArg some (Int.add_zero g)

theorem stakeTotal_of_counted {g : Option Int} (hg : g.isSome = true) (bps : Table Name BpInfo)
    (d : Int) : stakeTotal g bps d = g.map (· + d.tdiv coreSymbolPrecision) := by
  cases g with
  | none => cases hg
  | some g => rfl

theorem put_stake {bps : Table Name BpInfo} {b : Name} {r : BpInfo} (h : bps.find b = some r)
    (d : Int) : bps.put b (r.addTotalStaked n d) = stakeBp n bps (b, d) := by
  rw [stakeBp, h]
  rfl

theorem put_two_stakes {bps : Table Name BpInfo} {b c : Name} {r q : BpInfo} (hne : b ≠ c)
    (hb : bps.find b = some r) (hc : bps.find c = some q) (d e : Int) :
    (bps.put b (r.addTotalStaked n d)).put c (q.addTotalStaked n e) =
      [(b, d), (c, e)].foldl (stakeBp n) bps := by
  rw [put_stake ((Table.find_put_ne _ _ hne).trans hc), put_stake hb]
  rfl

/-- The bps and the account after a vote. -/
theorem applyChange_staking {typ : VoteTyp} {bpname : Name} {act : AccountInfo} {bp : BpInfo}
    {tbl₀ : Scoped Name Name VoteInfo} {change : Int} {u : State} (tbl : Table Name VoteInfo)
    (h : applyChange n (s.setVotesTbl typ tbl₀) v bpname act bp change = .ok u) :
    ∃ x : Staking, x.vote4ramsum = none ∧ ∀ t bp', t.bps.find bpname = some bp' →
      t.blackpro = s.blackpro → t.gvotestat.isSome = true →
      applyChange n (t.setVotesTbl typ ((t.votesTbl typ).update v (some tbl))) v bpname act bp'
        change = .ok (x.apply n v t) := by
  by_cases h0 : change = 0
  · refine ⟨.ofVotes typ tbl, by cases typ <;> rfl, fun t bp' _ _ _ => ?_⟩
    rw [applyChange, if_pos h0]
    cases typ <;> exact congrArg Except.ok (by simp only [Staking.apply, Staking.ofVotes, total_zero]; rfl)
  rw [applyChange, if_neg h0] at h
  obtain ⟨d, hd, -⟩ := bind_eq_ok.mp h
  by_cases hpos : change > 0
  · rw [debitStake, if_pos hpos] at hd
    obtain ⟨_, hb, -⟩ := bind_eq_ok.mp hd
    have hblack : ¬isProducerInBlacklist s bpname := by
      intro e
      refine check_eq_ok.mp hb ?_
      rw [isProducerInBlacklist_congr (show (s.setVotesTbl typ tbl₀).blackpro = s.blackpro by
        cases typ <;> rfl)]
      exact e
    refine ⟨{ Staking.ofVotes typ tbl with
      account := some { act with available :=
        { act.available with amount := act.available.amount - change } }
      stakes := [(bpname, change)], total := change }, by cases typ <;> rfl, ?_⟩
    intro t bp' hbp hpro hg
    have hblack' : ¬isProducerInBlacklist
        (t.setVotesTbl typ ((t.votesTbl typ).update v (some tbl))) bpname := by
      intro e
      refine hblack ?_
      rw [isProducerInBlacklist_congr (show _ = t.blackpro by cases typ <;> rfl),
        isProducerInBlacklist_congr hpro] at e
      exact e
    rw [applyChange, if_neg h0, debitStake, if_pos hpos]
    refine bind_eq_ok.mpr ⟨_, bind_eq_ok.mpr ⟨(), check_eq_ok.mpr hblack', rfl⟩, ?_⟩
    rw [onChangeTotalStaked_eq]
    refine congrArg Except.ok ?_
    cases typ <;>
      simp only [Staking.apply, Staking.ofVotes, State.setVotesTbl, stakeTotal_of_counted hg,
        put_stake hbp] <;>
      rfl
  · refine ⟨{ Staking.ofVotes typ tbl with stakes := [(bpname, change)], total := change },
      by cases typ <;> rfl, ?_⟩
    intro t bp' hbp hpro hg
    rw [applyChange, if_neg h0, debitStake, if_neg hpos]
    refine bind_eq_ok.mpr ⟨_, rfl, ?_⟩
    rw [onChangeTotalStaked_eq]
    refine congrArg Except.ok ?_
    cases typ <;>
      simp only [Staking.apply, Staking.ofVotes, State.setVotesTbl, stakeTotal_of_counted hg,
        put_stake hbp] <;>
      rfl

theorem Alike.exists_bp (h : Alike v s t) {b : Name} {r : BpInfo} (hb : s.bps.find b = some r) :
    ∃ r', t.bps.find b = some r' :=
  Option.isSome_iff_exists.mp ((h.bps b).trans (hb ▸ rfl))

theorem voteByTypImp_staking {typ : VoteTyp} {bpname : Name} {stake : Asset} {change : Int}
    (h : voteByTypImp typ env s v bpname stake = .ok (s', change)) :
    ∃ x : Staking, x.vote4ramsum = none ∧ ∀ t, Alike v s t →
      voteByTypImp typ env t v bpname stake = .ok (x.apply env.currentBlockNum v t, change) := by
  simp only [voteByTypImp, bind_eq_ok, pure_eq_ok, Prod.mk.injEq, Prod.exists] at h
  obtain ⟨u₁, hauth, act, hact, bp, hbp, u₂, hsym, u₃, hst, u₄, hfree, c, r, hcast, u, happly, rfl,
    rfl⟩ := h
  obtain ⟨x, hx, hstep⟩ := applyChange_staking (((s.votesTbl typ).scope v).put bpname r) happly
  refine ⟨x, hx, fun t ht => ?_⟩
  obtain ⟨bp', hbp'⟩ := ht.exists_bp (fetch_eq_ok.mp hbp)
  simp only [voteByTypImp, bind_eq_ok, pure_eq_ok, Prod.mk.injEq, Prod.exists]
  refine ⟨u₁, hauth, act, by rw [ht.account]; exact hact, bp', fetch_eq_ok.mpr hbp', u₂, hsym, u₃, hst,
    u₄, hfree, c, r, ?_, _, ?_, rfl, rfl⟩
  · rw [Scoped.find, ht.votes]
    exact hcast
  · have := hstep t bp' hbp' ht.blackpro ht.counted
    rw [← ht.votes typ] at this
    exact this

theorem Alike.find (h : Alike v s t) (typ : VoteTyp) (b : Name) :
    (t.votesTbl typ).find v b = (s.votesTbl typ).find v b :=
  congrArg (fun tbl => Table.find tbl b) (h.votes typ)

theorem vote4ram_staking {bpname : Name} {stake : Asset} {fx : List Effect}
    (hs : s.gvotestat.isSome = true) (h : vote4ram env s v bpname stake = .ok (s', fx)) :
    ∃ x : Staking, ∀ t, Alike v s t →
      vote4ram env t v bpname stake = .ok (x.apply env.currentBlockNum v t, fx) := by
  simp only [vote4ram, bind_eq_ok, pure_eq_ok, Prod.mk.injEq, Prod.exists] at h
  obtain ⟨u, change, hu, z, hz, rfl, rfl⟩ := h
  obtain ⟨x, hx, hvote⟩ := voteByTypImp_staking hu
  have hus : u = x.apply env.currentBlockNum v s :=
    congrArg Prod.fst (Except.ok.inj (hu.symm.trans (hvote s (.refl hs))))
  have hsum : ∀ t, (x.apply env.currentBlockNum v t).vote4ramsum = t.vote4ramsum := fun t => by
    rw [Staking.apply, hx]
    rfl
  suffices hrow : ∃ r, ∀ t, Alike v s t →
      addVote4ramsum (x.apply env.currentBlockNum v t) v stake change =
        .ok ({ x with vote4ramsum := some r }.apply env.currentBlockNum v t) by
    obtain ⟨r, hrow⟩ := hrow
    refine ⟨{ x with vote4ramsum := some r }, fun t ht => ?_⟩
    simp only [vote4ram, bind_eq_ok, pure_eq_ok, Prod.mk.injEq, Prod.exists]
    exact ⟨_, _, hvote t ht, _, hrow t ht, rfl, trivial⟩
  rw [addVote4ramsum, hus, hsum] at hz
  cases hfind : s.vote4ramsum.find v with
  | none =>
    refine ⟨{ staked := stake }, fun t ht => ?_⟩
    rw [addVote4ramsum, hsum, ht.vote4ramsum, hfind]
    rfl
  | some r =>
    rw [hfind] at hz
    simp only [bind_eq_ok] at hz
    obtain ⟨delta, hdelta, staked, hadd, -⟩ := hz
    refine ⟨{ r with staked }, fun t ht => ?_⟩
    rw [addVote4ramsum, hsum, ht.vote4ramsum, hfind]
    simp only [bind_eq_ok]
    exact ⟨delta, hdelta, staked, hadd, rfl⟩

theorem unfreezeByTypImp_staking {typ : VoteTyp} {bpname : Name}
    (h : unfreezeByTypImp typ env s v bpname = .ok s') :
    ∃ x : Staking, ∀ t, Alike v s t →
      unfreezeByTypImp typ env t v bpname = .ok (x.apply env.currentBlockNum v t) := by
  simp only [unfreezeByTypImp, bind_eq_ok] at h
  obtain ⟨u₁, hauth, act, hact, vts, hvts, u₂, hdelay, u₃, hpos, available, hadd, -⟩ := h
  refine ⟨{ Staking.ofVotes typ (((s.votesTbl typ).scope v).put bpname
    { vts with unstaking := { vts.unstaking with amount := 0 } }) with
      account := some { act with available } }, fun t ht => ?_⟩
  simp only [unfreezeByTypImp, bind_eq_ok, pure_eq_ok]
  refine ⟨u₁, hauth, act, by rw [ht.account]; exact hact, vts, by rw [ht.find]; exact hvts, u₂, hdelay,
    u₃, hpos, available, hadd, ?_⟩
  rw [← ht.votes]
  cases typ <;> simp only [Staking.apply, Staking.ofVotes, total_zero] <;> rfl

theorem revote_staking {frombp tobp : Name} {restake : Asset}
    (h : revote env s v frombp tobp restake = .ok s') :
    ∃ x : Staking, ∀ t, Alike v s t →
      revote env t v frombp tobp restake = .ok (x.apply env.currentBlockNum v t) := by
  simp only [revote, bind_eq_ok] at h
  obtain ⟨u₁, hauth, u₂, hne, u₃, hsym, u₄, hst, u₅, hfree, bpf, hbpf, bpt, hbpt, vtsf, hvtsf, e,
    hle, u₆, he, voteagef, hminus, vtst, hto, -⟩ := h
  have hne' : frombp ≠ tobp := check_eq_ok.mp hne
  let votes := ((s.votes.scope v).put frombp { vtsf with voteage := voteagef }).put tobp vtst
  refine ⟨{
    votes := some votes
    stakes := [(frombp, restake.neg.amount), (tobp, restake.amount)] }, fun t ht => ?_⟩
  obtain ⟨bpf', hbpf'⟩ := ht.exists_bp (fetch_eq_ok.mp hbpf)
  obtain ⟨bpt', hbpt'⟩ := ht.exists_bp (fetch_eq_ok.mp hbpt)
  simp only [revote, bind_eq_ok, pure_eq_ok]
  refine ⟨u₁, hauth, u₂, hne, u₃, hsym, u₄, hst, u₅, hfree, bpf', fetch_eq_ok.mpr hbpf', bpt',
    fetch_eq_ok.mpr hbpt', vtsf, ?_, e, hle, u₆, he, voteagef, hminus, vtst, ?_, ?_⟩
  · rw [show t.votes.find v frombp = s.votes.find v frombp from ht.find .votes frombp]
    exact hvtsf
  · have hnot : ¬(v = v ∧ frombp = tobp) := fun e => hne' e.2
    rw [Scoped.find_put_ne _ _ hnot] at hto ⊢
    rw [show t.votes.find v tobp = s.votes.find v tobp from ht.find .votes tobp]
    exact hto
  · rw [put_two_stakes hne' hbpf' hbpt', Scoped.put_put_update,
      show t.votes.scope v = s.votes.scope v from ht.votes .votes]
    simp only [Staking.apply, total_zero]
    rfl

theorem takeStake_staking {bpname : Name} {act : AccountInfo} {stake : Asset} {stakeTyp : Nat}
    (h : takeStake s v bpname act stake stakeTyp = .ok s') :
    ∃ (account : Option AccountInfo) (votes : Option (Table Name VoteInfo)), ∀ t, Alike v s t →
      takeStake t v bpname act stake stakeTyp = .ok { t with
        accounts := t.accounts.update v account
        votes := t.votes.update v votes } := by
  unfold takeStake at h
  split at h
  · simp only [bind_eq_ok] at h
    obtain ⟨enough, hle, u, hok, available, hsub, -⟩ := h
    refine ⟨some { act with available }, none, fun t _ => ?_⟩
    simp only [takeStake, bind_eq_ok]
    exact ⟨enough, hle, u, hok, available, hsub, rfl⟩
  · simp only [bind_eq_ok] at h
    obtain ⟨vts, hvts, enough, hlt, u, hok, unstaking, hsub, -⟩ := h
    refine ⟨none, some ((s.votes.scope v).put bpname { vts with unstaking }), fun t ht => ?_⟩
    simp only [takeStake, bind_eq_ok]
    refine ⟨vts, ?_, enough, hlt, u, hok, unstaking, hsub, ?_⟩
    · rw [show t.votes.find v bpname = s.votes.find v bpname from ht.find .votes bpname]
      exact hvts
    · rw [← show t.votes.scope v = s.votes.scope v from ht.votes .votes]
      rfl
  · cases h

theorem votefix_staking {bpname typ : Name} {stake : Asset} {stakeTyp : Nat}
    (h : votefix env s v bpname typ stake stakeTyp = .ok s') :
    ∃ x : Staking, ∀ t, Alike v s t →
      votefix env t v bpname typ stake stakeTyp = .ok (x.apply env.currentBlockNum v t) := by
  simp only [votefix, bind_eq_ok] at h
  obtain ⟨u₁, hauth, d, hd, act, hact, bp, hbp, u₂, hsym, u₃, hst, u₄, hfree, s₁, htake, u₅, hblack,
    power, hpower, key, hkey, -⟩ := h
  obtain ⟨account, votes, htake'⟩ := takeStake_staking htake
  obtain ⟨_, _, rfl, -⟩ := takeStake_spec htake
  let fvi : FixTimeVoteInfo :=
    { bpname
      fvoteTyp := typ
      startBlockNum := env.currentBlockNum
      withdrawBlockNum := u32 (env.currentBlockNum + u32 (d.days * blockNumPerDay))
      vote := stake
      votepowerAge := { staked := power, updateHeight := env.currentBlockNum } }
  refine ⟨{
    account, votes
    fixvotes := some ((s.fixvotes.scope v).put key fvi)
    stakes := [(bpname, power.amount)]
    total := power.amount }, fun t ht => ?_⟩
  obtain ⟨bp', hbp'⟩ := ht.exists_bp (fetch_eq_ok.mp hbp)
  simp only [votefix, bind_eq_ok]
  refine ⟨u₁, hauth, d, hd, act, by rw [ht.account]; exact hact, bp', fetch_eq_ok.mpr hbp', u₂, hsym,
    u₃, hst, u₄, hfree, _, htake' t ht, u₅, ?_, power, hpower, key, ?_, ?_⟩
  · have hpro : isProducerInBlacklist { t with
        accounts := t.accounts.update v account
        votes := t.votes.update v votes } bpname = isProducerInBlacklist s bpname :=
      isProducerInBlacklist_congr ht.blackpro bpname
    rw [hpro]
    exact hblack
  · rw [← ht.fixvotes] at hkey
    exact hkey
  · rw [onChangeTotalStaked_eq, put_stake hbp', stakeTotal_of_counted ht.counted, ← ht.fixvotes]
    rfl

theorem revotefix_staking {key : Nat} {bpname : Name} (h : revotefix env s v key bpname = .ok s') :
    ∃ x : Staking, ∀ t, Alike v s t →
      revotefix env t v key bpname = .ok (x.apply env.currentBlockNum v t) := by
  simp only [revotefix, bind_eq_ok] at h
  obtain ⟨u₁, hauth, fitr, hfitr, u₂, hne, u₃, hout, u₄, htime, u₅, hfree, u₆, hblack, bpf, hbpf, bpt,
    hbpt, u₇, hage, -⟩ := h
  have hne' : fitr.bpname ≠ bpname := check_eq_ok.mp hne
  let fvi := { fitr with bpname }.cleanAge env.currentBlockNum
  refine ⟨{
    fixvotes := some ((s.fixvotes.scope v).put key fvi)
    stakes := [(fitr.bpname, fvi.votepowerAge.staked.neg.amount),
      (bpname, fvi.votepowerAge.staked.amount)] }, fun t ht => ?_⟩
  obtain ⟨bpf', hbpf'⟩ := ht.exists_bp (fetch_eq_ok.mp hbpf)
  obtain ⟨bpt', hbpt'⟩ := ht.exists_bp (fetch_eq_ok.mp hbpt)
  simp only [revotefix, bind_eq_ok, pure_eq_ok]
  refine ⟨u₁, hauth, fitr, ?_, u₂, hne, u₃, hout, u₄, htime, u₅, hfree, u₆, ?_, bpf',
    fetch_eq_ok.mpr hbpf', bpt', fetch_eq_ok.mpr hbpt', u₇, hage, ?_⟩
  · rw [Scoped.find, ht.fixvotes]
    exact hfitr
  · rw [isProducerInBlacklist_congr ht.blackpro]
    exact hblack
  · rw [put_two_stakes hne' hbpf' hbpt', ← ht.fixvotes]
    simp only [Staking.apply, total_zero]
    rfl

theorem outfixvote_staking {key : Nat} (h : outfixvote env s v key = .ok s') :
    ∃ x : Staking, ∀ t, Alike v s t →
      outfixvote env t v key = .ok (x.apply env.currentBlockNum v t) := by
  simp only [outfixvote, bind_eq_ok] at h
  obtain ⟨u₁, hauth, fitr, hfitr, act, hact, bp, hbp, u₂, htime, u₃, hout, unstaking, hadd, -⟩ := h
  let vts := (s.votes.find v fitr.bpname).getD {}
  refine ⟨{
    votes := some ((s.votes.scope v).put fitr.bpname
      { vts with unstaking, unstakeHeight := env.currentBlockNum })
    fixvotes := some ((s.fixvotes.scope v).put key
      { fitr with vote := Asset.zero, isWithdraw := true })
    stakes := [(fitr.bpname, -fitr.votepowerAge.staked.amount)]
    total := -fitr.votepowerAge.staked.amount }, fun t ht => ?_⟩
  obtain ⟨bp', hbp'⟩ := ht.exists_bp (fetch_eq_ok.mp hbp)
  have hvotes : t.votes.find v fitr.bpname = s.votes.find v fitr.bpname :=
    ht.find .votes fitr.bpname
  simp only [outfixvote, bind_eq_ok]
  refine ⟨u₁, hauth, fitr, ?_, act, by rw [ht.account]; exact hact, bp', fetch_eq_ok.mpr hbp', u₂,
    htime, u₃, hout, unstaking, by rw [hvotes]; exact hadd, ?_⟩
  · rw [Scoped.find, ht.fixvotes]
    exact hfitr
  · rw [onChangeTotalStaked_eq, put_stake hbp', stakeTotal_of_counted ht.counted, ← ht.fixvotes,
      ← show t.votes.scope v = s.votes.scope v from ht.votes .votes, hvotes]
    rfl

/-- A staking action that succeeds does the same in every state that is alike for its account. -/
theorem exec_alike {a : Action} {fx : List Effect} (hs : s.gvotestat.isSome = true)
    (ha : a.staker = some v) (h : exec env s a = .ok (s', fx)) :
    ∃ x : Staking, ∀ t, Alike v s t →
      exec env t a = .ok (x.apply env.currentBlockNum v t, fx) := by
  cases a <;> cases ha <;> simp only [exec, silent_eq_ok] at h ⊢
  case vote bpname stake =>
    simp only [vote, bind_eq_ok, pure_eq_ok, Prod.exists] at h
    obtain ⟨⟨u, change, hu, rfl⟩, rfl⟩ := h
    obtain ⟨x, -, hx⟩ := voteByTypImp_staking hu
    refine ⟨x, fun t ht => ?_⟩
    simp only [vote, bind_eq_ok, pure_eq_ok, Prod.exists]
    exact ⟨⟨_, _, hx t ht, rfl⟩, trivial⟩
  case vote4ram => exact vote4ram_staking hs h
  case revote =>
    obtain ⟨x, hx⟩ := revote_staking h.1
    exact ⟨x, fun t ht => ⟨hx t ht, h.2⟩⟩
  case unfreeze =>
    obtain ⟨x, hx⟩ := unfreezeByTypImp_staking h.1
    exact ⟨x, fun t ht => ⟨hx t ht, h.2⟩⟩
  case unfreezeram =>
    obtain ⟨x, hx⟩ := unfreezeByTypImp_staking h.1
    exact ⟨x, fun t ht => ⟨hx t ht, h.2⟩⟩
  case votefix =>
    obtain ⟨x, hx⟩ := votefix_staking h.1
    exact ⟨x, fun t ht => ⟨hx t ht, h.2⟩⟩
  case revotefix =>
    obtain ⟨x, hx⟩ := revotefix_staking h.1
    exact ⟨x, fun t ht => ⟨hx t ht, h.2⟩⟩
  case outfixvote =>
    obtain ⟨x, hx⟩ := outfixvote_staking h.1
    exact ⟨x, fun t ht => ⟨hx t ht, h.2⟩⟩

/-- **Footprint.** What a staking action writes. -/
theorem exec_staking {a : Action} {fx : List Effect} (hs : s.gvotestat.isSome = true)
    (ha : a.staker = some v) (h : exec env s a = .ok (s', fx)) :
    ∃ x : Staking, s' = x.apply env.currentBlockNum v s ∧
      ∀ t, Alike v s t → exec env t a = .ok (x.apply env.currentBlockNum v t, fx) := by
  obtain ⟨x, hx⟩ := exec_alike hs ha h
  exact ⟨x, congrArg Prod.fst (Except.ok.inj (h.symm.trans (hx s (.refl hs)))), hx⟩

/-! ## Blocks -/

/-- The account that a call stakes for. -/
def stakerOf (x : Env × Action) : Option Name := x.2.staker

/-- A staking action at block `n`. -/
def StakingStep (n : Nat) (p : Point) (x : Env × Action) (q : Point) : Prop :=
  Step p x q ∧ x.1.currentBlockNum = n ∧ (stakerOf x).isSome = true

theorem StakingStep.counted {p q : Point} {x : Env × Action} (h : StakingStep n p x q)
    (hp : p.state.gvotestat.isSome = true) : q.state.gvotestat.isSome = true := by
  obtain ⟨⟨-, -, fx, hx⟩, -, hstaker⟩ := h
  obtain ⟨v, hv⟩ := Option.isSome_iff_exists.mp hstaker
  obtain ⟨x, hq, -⟩ := exec_staking hp hv hx
  rw [hq, Staking.apply, Option.isSome_map, hp]

/-- Staking actions of two accounts at one block can change places. -/
theorem staking_swaps (n : Nat) :
    Swaps (StakingStep n) stakerOf fun p => p.state.gvotestat.isSome = true := by
  intro p x q y u hp hne hx hy
  have hq := hx.counted hp
  obtain ⟨⟨hle, hheight, fx, hexec⟩, rfl, hstaker⟩ := hx
  obtain ⟨⟨-, hheight', fy, hexec'⟩, hn, hstaker'⟩ := hy
  obtain ⟨v, hv⟩ := Option.isSome_iff_exists.mp hstaker
  obtain ⟨w, hw⟩ := Option.isSome_iff_exists.mp hstaker'
  have hvw : v ≠ w := fun e => hne (hv.trans (e ▸ hw.symm))
  obtain ⟨X, hqs, hX⟩ := exec_staking hp hv hexec
  obtain ⟨Y, hus, hY⟩ := exec_staking hq hw hexec'
  rw [hn] at hus hY
  refine ⟨⟨Y.apply x.1.currentBlockNum w p.state, x.1.currentBlockNum⟩,
    ⟨⟨hn ▸ hle, hn.symm, fy, ?_⟩, hn, hstaker'⟩, ⟨⟨le_refl _, hheight'.trans hn, fx, ?_⟩, rfl, hstaker⟩⟩
  · exact hY _ (hqs ▸ (X.alike _ hvw hp).symm hp)
  · rw [hus, hqs, Staking.apply_comm X Y _ _ hvw]
    exact hX _ (Y.alike _ (Ne.symm hvw) hp)

/-- **Order within a block.** Where the global stake is counted, the staking actions of a block lead to
the same state in every order that keeps the order of each account's actions, and all of them succeed
in every such order. -/
theorem staking_order {p q : Point} {tr : List (Point × (Env × Action) × Point)}
    (hp : p.state.gvotestat.isSome = true) (h : Run Step p tr q)
    (hs : ∀ x ∈ labels tr, x.1.currentBlockNum = n ∧ (stakerOf x).isSome = true)
    {l : List (Env × Action)} (hl : ∀ v, lane stakerOf v l = lane stakerOf v (labels tr)) :
    ∃ tr', Run Step p tr' q ∧ labels tr' = l := by
  have hr := h.restrict (C := fun e => e.2.1.1.currentBlockNum = n ∧ (stakerOf e.2.1).isSome = true)
    fun e he => hs _ (List.mem_map_of_mem he)
  obtain ⟨tr', hr', hlabels⟩ := Run.interleave (staking_swaps n) (fun _ _ _ ht hst => hst.counted ht)
    hp hr hl
  exact ⟨tr', hr'.mono fun _ _ _ hst => hst.1, hlabels⟩

/-- Two accounts with tokens, and two bps. -/
def twoVoters : Point where
  state :=
    { accounts := ((∅ : Table Name AccountInfo).put 1 ⟨⟨500000, coreSymbol⟩⟩).put 2
        ⟨⟨300000, coreSymbol⟩⟩
      bps := ((∅ : Table Name BpInfo).put 7 {}).put 8 {}
      gvotestat := some 0 }
  height := 9

def firstCall : Env × Action := (Env.of 1 10, .vote 1 7 ⟨20000, coreSymbol⟩)

def secondCall : Env × Action := (Env.of 1 10, .revote 1 7 8 ⟨10000, coreSymbol⟩)

def otherCall : Env × Action := (Env.of 2 10, .votefix 2 8 fvoteA ⟨30000, coreSymbol⟩ 1)

def afterFirst : Point := twoVoters.next firstCall.1 firstCall.2

def afterOther : Point := afterFirst.next otherCall.1 otherCall.2

def afterSecond : Point := afterOther.next secondCall.1 secondCall.2

theorem staking_order_swapped : ∃ tr', Run Step twoVoters tr' afterSecond ∧
    labels tr' = [otherCall, firstCall, secondCall] := by
  have hfirst : Step twoVoters firstCall afterFirst :=
    Point.next_step _ _ _ (by decide) (by decide +kernel)
  have hother : Step afterFirst otherCall afterOther :=
    Point.next_step _ _ _ (by decide) (by decide +kernel)
  have hsecond : Step afterOther secondCall afterSecond :=
    Point.next_step _ _ _ (by decide) (by decide +kernel)
  refine staking_order (n := 10) rfl (((Run.nil.snoc hfirst).snoc hother).snoc hsecond)
    (fun x hx => ?_) fun v => ?_
  · simp only [labels, List.nil_append, List.cons_append, List.map_cons, List.map_nil, List.mem_cons,
      List.not_mem_nil, or_false] at hx
    rcases hx with rfl | rfl | rfl <;> exact ⟨rfl, rfl⟩
  · show lane stakerOf v _ = lane stakerOf v [firstCall, otherCall, secondCall]
    by_cases h1 : stakerOf firstCall = v
    · subst h1
      rfl
    · simp [lane, List.filter_cons, h1]

end Eosforce.System
