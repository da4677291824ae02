import Eosforce.Pledge.History

/-!
# How deductions grow

* `Limited`: the rows are of their types' tokens, and those of one type have a limit on what is
  deducted. An action that `eosio.pledge` does not sign raises the limit by what it deducts
  (`exec_limited`).
* `deduction_succeeds`: a deduction from a row succeeds while the amounts stay in the range of an
  asset.
-/

namespace Eosforce.Pledge

open Fallible Keyed

variable {env : Env} {p p' : State} {n : Name} {D : Int}

/-! ## The limit -/

/-- A row of type `m`. Where that is `n`, at most `D` is deducted. -/
structure RowLimited (types : Table Name PledgeType) (n : Name) (D : Int) (m : Name)
    (b : PledgeInfo) : Prop where
  typed : ∃ t, types.find m = some t ∧ t.pledge.symbol = b.pledge.symbol
  deducted : m = n → b.deduction.amount ≤ D

/-- The rows are of their types' tokens, and at most `D` is deducted in one of type `n`. -/
def Limited (n : Name) (D : Int) (p : State) : Prop :=
  p.pledge.All fun _ m b => RowLimited p.pledgetype n D m b

theorem Limited.mono {D' : Int} (h : Limited n D p) (hle : D ≤ D') : Limited n D' p :=
  Scoped.All.imp h fun _ _ _ hb => ⟨hb.typed, fun e => (hb.deducted e).trans hle⟩

theorem Limited.put {w m : Name} {b : PledgeInfo} (h : Limited n D p)
    (hb : RowLimited p.pledgetype n D m b) :
    Limited n D { p with pledge := p.pledge.put w m b } := Scoped.All.put h hb

/-- Tables with the same types and pledges. -/
theorem Limited.congr (h : Limited n D p) (ht : p'.pledgetype = p.pledgetype)
    (hp : p'.pledge = p.pledge) : Limited n D p' := by
  unfold Limited
  rw [ht, hp]
  exact h

theorem checkPledgeTyp_symbol {m d : Name} {sym : Symbol} (h : checkPledgeTyp p m sym = .ok d) :
    ∃ t, p.pledgetype.find m = some t ∧ t.pledge.symbol = sym := by
  simp only [checkPledgeTyp, bind_eq_ok, fetch_eq_ok, check_eq_ok] at h
  obtain ⟨t, ht, _, hsym, -⟩ := h
  exact ⟨t, ht, hsym.symm⟩

theorem rewardAssign_types {rewarder : Name} {q : Asset} (h : rewardAssign p rewarder q = .ok p') :
    p'.pledgetype = p.pledgetype := by
  unfold rewardAssign at h
  split at h
  · cases h
    rfl
  · simp only [bind_eq_ok, pure_eq_ok] at h
    obtain ⟨_, -, rfl⟩ := h
    rfl

theorem rewardAssign_limited {rewarder : Name} {q : Asset} (hp : Limited n D p)
    (h : rewardAssign p rewarder q = .ok p') : Limited n D p' :=
  hp.congr (rewardAssign_types h) (rewardAssign_pledge h)

/-! ## Actions -/

theorem addtype_limited {m d ramPayer : Name} {q : Asset} {memo : String} (hp : Limited n D p)
    (h : addtype env p m d ramPayer q memo = .ok p') : Limited n D p' := by
  simp only [addtype, bind_eq_ok, check_eq_ok, pure_eq_ok] at h
  obtain ⟨_, -, _, hnone, rfl⟩ := h
  intro w k b hb
  obtain ⟨⟨t, ht, hsym⟩, hded⟩ := hp w k b hb
  refine ⟨⟨t, ?_, hsym⟩, hded⟩
  rw [Table.find_put_ne _ _ fun e => ?_, ht]
  rw [← e, hnone] at ht
  cases ht

theorem addpledge_limited {src dst : Name} {q : Asset} {memo : String} (hD : 0 ≤ D)
    (hp : Limited n D p) (h : addpledge env p src dst q memo = .ok p') : Limited n D p' := by
  unfold addpledge at h
  split at h
  · cases h
    exact hp
  · simp only [bind_eq_ok, pure_eq_ok] at h
    obtain ⟨_, -, m, -, _, hd, b, hb, rfl⟩ := h
    refine hp.put ?_
    cases hf : p.pledge.find src m with
    | none =>
      rw [hf] at hb
      simp only [addQuantity, bind_eq_ok, pure_eq_ok, Asset.make_eq_ok] at hb
      obtain ⟨_, ⟨-, -, rfl⟩, rfl⟩ := hb
      exact ⟨checkPledgeTyp_symbol hd, fun _ => hD⟩
    | some b₀ =>
      rw [hf] at hb
      simp only [addQuantity, bind_eq_ok, pure_eq_ok, Asset.add_eq_ok] at hb
      obtain ⟨_, ⟨-, -, rfl⟩, rfl⟩ := hb
      exact ⟨(hp _ _ _ hf).typed, (hp _ _ _ hf).deducted⟩

/-- A deduction raises the limit of its type. -/
theorem deduction_limited {m debitee : Name} {q : Asset} {memo : String} (hD : 0 ≤ D)
    (hp : Limited n D p) (h : deduction env p m debitee q memo = .ok p') :
    Limited n (D + if m = n then q.amount else 0) p' := by
  simp only [deduction, bind_eq_ok, check_eq_ok, pure_eq_ok] at h
  obtain ⟨_, hd, _, -, _, hpos, b, hb, rfl⟩ := h
  have hmono : Limited n (D + if m = n then q.amount else 0) p := by
    refine hp.mono ?_
    split <;> omega
  refine hmono.put ?_
  cases hf : p.pledge.find debitee m with
  | none =>
    rw [hf] at hb
    cases hb
    refine ⟨checkPledgeTyp_symbol hd, fun e => ?_⟩
    rw [if_pos e]
    simp only
    omega
  | some b₀ =>
    rw [hf] at hb
    simp only [deductQuantity, bind_eq_ok, pure_eq_ok, Asset.sub_eq_ok, Asset.add_eq_ok] at hb
    obtain ⟨_, ⟨-, -, rfl⟩, _, ⟨-, -, rfl⟩, rfl⟩ := hb
    refine ⟨(hp _ _ _ hf).typed, fun e => ?_⟩
    have hle := (hp _ _ _ hf).deducted e
    rw [if_pos e]
    simp only
    omega

theorem withdraw_limited {m pledger : Name} {q : Asset} {memo : String} {fx : List Effect}
    (hp : Limited n D p) (h : withdraw env p m pledger q memo = .ok (p', fx)) : Limited n D p' := by
  simp only [withdraw, bind_eq_ok, fetch_eq_ok, pure_eq_ok, Prod.mk.injEq, Asset.sub_eq_ok] at h
  obtain ⟨_, -, _, -, b, hb, _, -, _, -, _, -, _, -, _, -, _, ⟨-, -, rfl⟩, rfl, -⟩ := h
  exact hp.put ⟨(hp _ _ _ hb).typed, (hp _ _ _ hb).deducted⟩

/-- A payment out of the deductions of a row. -/
theorem Limited.payOut {w m : Name} {b : PledgeInfo} {q d : Asset} (hp : Limited n D p)
    (hb : p.pledge.find w m = some b) (h0 : 0 < q.amount) (hd : b.deduction.sub q = .ok d) :
    Limited n D { p with pledge := p.pledge.put w m { b with deduction := d } } := by
  obtain ⟨-, -, rfl⟩ := Asset.sub_eq_ok.mp hd
  refine hp.put ⟨(hp _ _ _ hb).typed, fun e => ?_⟩
  have hle := (hp _ _ _ hb).deducted e
  simp only
  omega

theorem allotreward_limited {m pledger rewarder : Name} {q : Asset} {memo : String}
    (hp : Limited n D p) (h : allotreward env p m pledger rewarder q memo = .ok p') :
    Limited n D p' := by
  simp only [allotreward, bind_eq_ok, fetch_eq_ok, check_eq_ok] at h
  obtain ⟨_, -, _, -, b, hb, pre, -, _, hpos, _, -, _, -, d, hd, h⟩ := h
  exact rewardAssign_limited (hp.payOut hb hpos hd) h

theorem dealreward_limited {m pledger : Name} {rewarder : List Name} {memo : String}
    (hp : Limited n D p) (h : dealreward env p m pledger rewarder memo = .ok p') :
    Limited n D p' := by
  cases rewarder with
  | nil =>
    simp only [dealreward, bind_eq_ok, fetch_eq_ok] at h
    obtain ⟨_, -, h⟩ := h
    cases h
  | cons reporter approvers =>
    simp only [dealreward, bind_eq_ok, fetch_eq_ok, check_eq_ok] at h
    obtain ⟨t, -, _, -, b, hb, pre, -, _, hpos, d, hd, _, -, _, -, _, -, u, hu, h⟩ := h
    exact foldlM_inv (P := Limited n D) (rewardAssign_limited (hp.payOut hb hpos hd) hu)
      (fun _ _ _ _ hI hs => rewardAssign_limited hI hs) h

theorem open_limited {m payer : Name} {memo : String} (hD : 0 ≤ D) (hp : Limited n D p)
    (h : «open» env p m payer memo = .ok p') : Limited n D p' := by
  simp only [«open», bind_eq_ok, fetch_eq_ok] at h
  obtain ⟨_, -, t, ht, h⟩ := h
  split at h
  · cases h
    exact hp
  · simp only [bind_eq_ok, pure_eq_ok, Asset.make_eq_ok] at h
    obtain ⟨_, ⟨-, -, rfl⟩, rfl⟩ := h
    exact hp.put ⟨⟨t, ht, rfl⟩, fun _ => hD⟩

/-- What an action deducts from a pledge of a type. -/
def Action.deducts (n : Name) : Action → Int
  | .deduction m _ q _ => if m = n then q.amount else 0
  | _ => 0

/-- **Step lemma.** An action that `eosio.pledge` does not sign raises the limit by what it deducts. -/
theorem exec_limited {a : Action} {fx : List Effect} (hself : pledgeAccount ∉ env.auths)
    (hD : 0 ≤ D) (hp : Limited n D p) (h : exec env p a = .ok (p', fx)) :
    Limited n (D + a.deducts n) p' := by
  have quiet (hq : Limited n D p') (ha : a.deducts n = 0) : Limited n (D + a.deducts n) p' := by
    rwa [ha, Int.add_zero]
  cases a <;> simp only [exec, silent_eq_ok] at h
  case addtype => exact quiet (addtype_limited hp h.1) rfl
  case deduction => exact deduction_limited hD hp h.1
  case withdraw => exact quiet (withdraw_limited hp h) rfl
  case getreward =>
    simp only [getreward, bind_eq_ok, pure_eq_ok, Prod.mk.injEq] at h
    obtain ⟨_, -, r, -, _, -, rest, -, rfl, -⟩ := h
    exact quiet (hp.congr rfl rfl) rfl
  case allotreward => exact quiet (allotreward_limited hp h.1) rfl
  case «open» => exact quiet (open_limited hD hp h.1) rfl
  case close =>
    simp only [close, bind_eq_ok, pure_eq_ok] at h
    obtain ⟨⟨_, -, t, -, b, -, _, -, _, -, _, -, _, -, _, -, rfl⟩, -⟩ := h
    exact quiet (Scoped.All.setScope hp ((Scoped.All.scope hp _).erase _)) rfl
  case amendpledge =>
    simp only [amendpledge, bind_eq_ok] at h
    obtain ⟨⟨_, hauth, -⟩, -⟩ := h
    exact absurd (check_eq_ok.mp hauth) hself
  case dealreward => exact quiet (dealreward_limited hp h.1) rfl

/-! ## Deductions that succeed -/

/-- A deduction from a row succeeds while the amounts stay in the range of an asset. -/
theorem deduction_succeeds {m debitee : Name} {q : Asset} {memo : String} {t : PledgeType}
    {b : PledgeInfo} (ht : p.pledgetype.find m = some t) (hauth : t.deductionAccount ∈ env.auths)
    (htsym : t.pledge.symbol = q.symbol) (hbsym : b.pledge.symbol = q.symbol)
    (hpos : 0 < q.amount) (hb : p.pledge.find debitee m = some b) (hok : RowOk b)
    (hmax : b.backing ≤ Asset.maxAmount)
    (hroom : b.deduction.amount + q.amount ≤ Asset.maxAmount) :
    ∃ b', deduction env p m debitee q memo = .ok
      { p with pledge := p.pledge.put debitee m b' } := by
  have hbacked := hok.backed
  have hded := hok.deduction
  unfold PledgeInfo.backing at hbacked hmax
  have htyp : checkPledgeTyp p m q.symbol = .ok t.deductionAccount :=
    bind_eq_ok.mpr ⟨t, fetch_eq_ok.mpr ht, bind_eq_ok.mpr ⟨(), check_eq_ok.mpr htsym.symm, rfl⟩⟩
  have hsub : b.pledge.sub q = .ok ⟨b.pledge.amount - q.amount, b.pledge.symbol⟩ :=
    Asset.sub_eq_ok.mpr ⟨hbsym.symm, ⟨by omega, by omega⟩, rfl⟩
  have hadd : b.deduction.add q = .ok ⟨b.deduction.amount + q.amount, b.deduction.symbol⟩ :=
    Asset.add_eq_ok.mpr ⟨(hok.symbol.trans hbsym).symm, ⟨by omega, hroom⟩, rfl⟩
  have hrow : deductQuantity (p.pledge.find debitee m) q =
      .ok ⟨⟨b.pledge.amount - q.amount, b.pledge.symbol⟩,
        ⟨b.deduction.amount + q.amount, b.deduction.symbol⟩⟩ := by
    rw [hb]
    exact bind_eq_ok.mpr ⟨_, hsub, bind_eq_ok.mpr ⟨_, hadd, rfl⟩⟩
  exact ⟨_, bind_eq_ok.mpr ⟨_, htyp, bind_eq_ok.mpr ⟨(), check_eq_ok.mpr hauth,
    bind_eq_ok.mpr ⟨(), check_eq_ok.mpr hpos, bind_eq_ok.mpr ⟨_, hrow, rfl⟩⟩⟩⟩⟩

end Eosforce.Pledge
