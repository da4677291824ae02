import Eosforce.Pledge.Chain
import Eosforce.System.Ledger

/-!
# Solvency of the pledge contract

* `RowOk`, `Ok`: what holds of the rows. Deductions may exceed a pledge, but then only the part that
  the pledge covered is ever paid out.
* `backing`: what the contract owes, the sum of the pledges, the deductions and the rewards.
* `exec_owes`: an action lowers what is owed by at least what it pays.
* `pledge_solvent`: the contract holds what it owes, so each payment is covered.
-/

namespace Eosforce.Pledge

open Fallible Keyed Runs
open Eosforce.System (IsCoin)

variable {env : Env} {p p' : State}

/-! ## Rows -/

/-- What a row stands for: the pledge that is left and the deductions not yet paid out. -/
def PledgeInfo.backing (b : PledgeInfo) : Int := b.pledge.amount + b.deduction.amount

/-- A row of another token than the core token has nothing behind it: it can only be deducted
from. -/
structure RowOk (b : PledgeInfo) : Prop where
  symbol : b.deduction.symbol = b.pledge.symbol
  deduction : 0 ≤ b.deduction.amount
  backed : 0 ≤ b.backing
  foreign : b.pledge.symbol ≠ coreSymbol → b.backing = 0

/-- What holds of the tables. -/
structure Ok (p : State) : Prop where
  rows : p.pledge.All fun _ _ b => RowOk b
  rewards : p.reward.All fun _ _ r => IsCoin r

/-- What the contract owes. -/
def backing (p : State) : Int :=
  (p.pledge.sum fun _ _ b => b.backing) + p.reward.sum fun _ _ r => r.amount

/-- A row written over an old one or in a free place. -/
theorem backing_put (p : State) (pledger n : Name) (b : PledgeInfo) :
    backing { p with pledge := p.pledge.put pledger n b } =
      backing p - ((p.pledge.find pledger n).elim 0 PledgeInfo.backing) + b.backing := by
  have hv : (p.pledge.val (fun _ _ b => b.backing) pledger n) =
      (p.pledge.find pledger n).elim 0 PledgeInfo.backing := by
    cases hf : p.pledge.find pledger n with
    | none => exact Scoped.val_of_none hf
    | some b => exact Scoped.val_of_find hf
  simp only [Pledge.backing, Scoped.sum_put, hv]
  omega

theorem Ok.put (hp : Ok p) {pledger n : Name} {b : PledgeInfo} (hb : RowOk b) :
    Ok { p with pledge := p.pledge.put pledger n b } :=
  ⟨hp.rows.put hb, hp.rewards⟩

theorem rowOk_zero {s : Symbol} : RowOk ⟨⟨0, s⟩, ⟨0, s⟩⟩ :=
  ⟨rfl, le_refl _, le_refl _, fun _ => rfl⟩

/-! ## Pledges and deductions -/

theorem addQuantity_spec {old : Option PledgeInfo} {q : Asset} {b : PledgeInfo}
    (hold : ∀ b, old = some b → RowOk b) (hq : IsCoin q) (h : addQuantity old q = .ok b) :
    RowOk b ∧ b.backing = old.elim 0 PledgeInfo.backing + q.amount := by
  have h0 := hq.2
  cases old with
  | none =>
    simp only [addQuantity, bind_eq_ok, pure_eq_ok, Asset.make_eq_ok] at h
    obtain ⟨_, ⟨-, -, rfl⟩, rfl⟩ := h
    refine ⟨⟨rfl, le_refl _, ?_, fun hne => absurd hq.1 hne⟩, ?_⟩
    · simp only [PledgeInfo.backing]; omega
    · simp only [PledgeInfo.backing, Option.elim_none]; omega
  | some b₀ =>
    have hb := hold b₀ rfl
    simp only [addQuantity, bind_eq_ok, pure_eq_ok, Asset.add_eq_ok] at h
    obtain ⟨_, ⟨hs, -, rfl⟩, rfl⟩ := h
    have hbacked := hb.backed
    refine ⟨⟨hb.symbol, hb.deduction, ?_, fun hne => absurd (hs.symm.trans hq.1) hne⟩, ?_⟩
    · simp only [PledgeInfo.backing] at hbacked ⊢; omega
    · simp only [PledgeInfo.backing, Option.elim_some]; omega

theorem deductQuantity_spec {old : Option PledgeInfo} {q : Asset} {b : PledgeInfo}
    (hold : ∀ b, old = some b → RowOk b) (hq : 0 < q.amount) (h : deductQuantity old q = .ok b) :
    RowOk b ∧ b.backing = old.elim 0 PledgeInfo.backing := by
  cases old with
  | none =>
    simp only [deductQuantity, pure_eq_ok] at h
    subst h
    have hz : PledgeInfo.backing ⟨q.neg, q⟩ = 0 := by
      simp only [PledgeInfo.backing, Asset.neg_amount]; omega
    exact ⟨⟨rfl, le_of_lt hq, le_of_eq hz.symm, fun _ => hz⟩, hz⟩
  | some b₀ =>
    have hb := hold b₀ rfl
    simp only [deductQuantity, bind_eq_ok, pure_eq_ok, Asset.add_eq_ok, Asset.sub_eq_ok] at h
    obtain ⟨_, ⟨-, -, rfl⟩, _, ⟨-, -, rfl⟩, rfl⟩ := h
    have he : PledgeInfo.backing ⟨⟨b₀.pledge.amount - q.amount, b₀.pledge.symbol⟩,
        ⟨b₀.deduction.amount + q.amount, b₀.deduction.symbol⟩⟩ = b₀.backing := by
      simp only [PledgeInfo.backing]; omega
    have hd := hb.deduction
    exact ⟨⟨hb.symbol, by simp only; omega, he ▸ hb.backed, fun hne => he.trans (hb.foreign hne)⟩,
      he⟩

/-! ## Rewards -/

/-- What can be paid out is covered by the deductions and by the row. -/
theorem preAllot_spec {b : PledgeInfo} {pre : Asset} (hb : RowOk b) (h : preAllot b = .ok pre) :
    pre.symbol = b.pledge.symbol ∧ pre.amount ≤ b.deduction.amount ∧ pre.amount ≤ b.backing := by
  simp only [preAllot, bind_eq_ok, Asset.make_eq_ok, Asset.lt_eq_ok] at h
  obtain ⟨_, ⟨-, -, rfl⟩, _, ⟨-, rfl⟩, h⟩ := h
  unfold PledgeInfo.backing
  split at h
  · rename_i hlt
    rw [decide_eq_true_eq] at hlt
    obtain ⟨-, -, rfl⟩ := Asset.add_eq_ok.mp h
    exact ⟨hb.symbol, by simp only at hlt ⊢; omega, by simp only; omega⟩
  · rename_i hlt
    rw [decide_eq_true_eq] at hlt
    cases h
    exact ⟨hb.symbol, le_refl _, by simp only at hlt; omega⟩

/-- A payment out of the deductions of a row. -/
theorem payOut_spec {b : PledgeInfo} {pre q d : Asset} (hb : RowOk b) (h : preAllot b = .ok pre)
    (h0 : 0 < q.amount) (hq : q.amount ≤ pre.amount) (hd : b.deduction.sub q = .ok d) :
    RowOk { b with deduction := d } ∧ IsCoin q ∧
      PledgeInfo.backing { b with deduction := d } = b.backing - q.amount := by
  obtain ⟨hsym, hle, hle'⟩ := preAllot_spec hb h
  obtain ⟨hs, -, rfl⟩ := Asset.sub_eq_ok.mp hd
  have hcore : b.pledge.symbol = coreSymbol := by
    by_contra hne
    have := hb.foreign hne
    omega
  have hbk : PledgeInfo.backing { b with
      deduction := ⟨b.deduction.amount - q.amount, b.deduction.symbol⟩ } =
      b.backing - q.amount := by
    simp only [PledgeInfo.backing]; omega
  refine ⟨⟨hb.symbol, by simp only; omega, by omega, fun hne => absurd hcore hne⟩,
    ⟨(hs.trans hb.symbol).trans hcore, le_of_lt h0⟩, hbk⟩

theorem rewardAssign_spec {rewarder : Name} {q : Asset} (hp : Ok p) (hq : IsCoin q)
    (h : rewardAssign p rewarder q = .ok p') : Ok p' ∧ backing p' = backing p + q.amount := by
  unfold rewardAssign at h
  split at h
  · rename_i hf
    cases h
    refine ⟨⟨hp.rows, hp.rewards.put hq⟩, ?_⟩
    simp only [backing, Scoped.sum_put, Scoped.val_of_none hf]
    omega
  · rename_i old hf
    simp only [bind_eq_ok, pure_eq_ok, Asset.add_eq_ok] at h
    obtain ⟨_, ⟨hs, -, rfl⟩, rfl⟩ := h
    have ho : IsCoin old := hp.rewards _ _ _ hf
    refine ⟨⟨hp.rows, hp.rewards.put ⟨ho.1, Int.add_nonneg ho.2 hq.2⟩⟩, ?_⟩
    simp only [backing, Scoped.sum_put, Scoped.val_of_find hf]
    omega

/-- The same reward for each of a list of rewarders. -/
theorem rewardAll_spec {l : List Name} {q : Asset} (hp : Ok p) (hq : IsCoin q)
    (h : l.foldlM (fun s reward => rewardAssign s reward q) p = .ok p') :
    Ok p' ∧ backing p' = backing p + l.length * q.amount := by
  have hI := foldlM_rest (I := fun rest t => Ok t ∧
      backing t + rest.length * q.amount = backing p + l.length * q.amount)
    ⟨hp, rfl⟩ (fun n rest t t' hI ht => by
      obtain ⟨hok, hb⟩ := rewardAssign_spec hI.1 hq ht
      refine ⟨hok, ?_⟩
      have := hI.2
      rw [List.length_cons, Nat.cast_succ, Int.add_mul, Int.one_mul] at this
      omega) h
  obtain ⟨hok, hb⟩ := hI
  simp only [List.length_nil, Nat.cast_zero, Int.zero_mul] at hb
  exact ⟨hok, by omega⟩

/-- The shares of a report and of the approvals stay within what is dealt. -/
theorem shares_le {pre : Int} {k : Nat} (h0 : 0 < pre) (hk : 0 < k) :
    0 ≤ pre.tdiv (2 * k : Nat) ∧ pre.tdiv (2 * k : Nat) ≤ pre.tdiv 2 ∧
      pre.tdiv 2 - pre.tdiv (2 * k : Nat) + (k + 1) * pre.tdiv (2 * k : Nat) ≤ pre := by
  rw [Int.tdiv_eq_ediv_of_nonneg (le_of_lt h0), Int.tdiv_eq_ediv_of_nonneg (le_of_lt h0)]
  have hpos : (0 : Int) < (2 * k : Nat) := by omega
  have hA := Int.ediv_mul_le pre (ne_of_gt hpos)
  have hA0 : 0 ≤ pre / (2 * k : Nat) := Int.ediv_nonneg (le_of_lt h0) (le_of_lt hpos)
  generalize pre / ((2 * k : Nat) : Int) = A at hA hA0
  have hAk : A * 1 ≤ A * k := Int.mul_le_mul_of_nonneg_left (by omega) hA0
  have he : A * ((2 * k : Nat) : Int) = 2 * (A * k) := by push_cast; ring
  rw [he] at hA
  refine ⟨hA0, by omega, ?_⟩
  rw [Int.add_mul, Int.mul_comm (k : Int) A, Int.one_mul]
  omega

/-! ## Actions -/

/-- What an action sends pays `n` core tokens out of the account of the contract. The memo is no
name, so the contract would refuse the transfer as a pledge of its own. -/
inductive Payout : List Effect → Int → Prop
  | none : Payout [] 0
  | pay {dst : Name} {x : Asset} {memo : String} (hcore : x.symbol = coreSymbol) (h0 : 0 < x.amount)
    (hlen : memo.utf8ByteSize ≠ 0) (hmemo : (Name.ofString memo).isOk = false) :
    Payout [.transfer pledgeAccount dst x memo] x.amount

theorem addpledge_spec {src dst : Name} {q : Asset} {memo : String} (hp : Ok p) (hq : IsCoin q)
    (h : addpledge env p src dst q memo = .ok p') :
    Ok p' ∧ backing p' ≤ backing p + q.amount := by
  have h0 := hq.2
  unfold addpledge at h
  split at h
  · cases h; exact ⟨hp, by omega⟩
  · simp only [bind_eq_ok, pure_eq_ok] at h
    obtain ⟨_, -, n, -, _, -, b, hb, rfl⟩ := h
    obtain ⟨hok, hbk⟩ := addQuantity_spec (hp.rows src n) hq hb
    refine ⟨hp.put hok, ?_⟩
    rw [backing_put, hbk]; omega

theorem deduction_owes {n debitee : Name} {q : Asset} {memo : String} (hp : Ok p)
    (h : deduction env p n debitee q memo = .ok p') : Ok p' ∧ backing p' = backing p := by
  simp only [deduction, bind_eq_ok, check_eq_ok, pure_eq_ok] at h
  obtain ⟨_, -, _, -, _, hpos, b, hb, rfl⟩ := h
  obtain ⟨hok, hbk⟩ := deductQuantity_spec (hp.rows debitee n) hpos hb
  exact ⟨hp.put hok, by rw [backing_put, hbk]; omega⟩

theorem withdraw_owes {n pledger : Name} {q : Asset} {memo : String} {fx : List Effect}
    (hp : Ok p) (h : withdraw env p n pledger q memo = .ok (p', fx)) :
    Ok p' ∧ Payout fx q.amount ∧ backing p' + q.amount = backing p := by
  simp only [withdraw, bind_eq_ok, fetch_eq_ok, check_eq_ok, pure_eq_ok, exists_const,
    Asset.lt_eq_ok, Asset.make_eq_ok, Asset.sub_eq_ok, Prod.mk.injEq] at h
  obtain ⟨_, -, _, -, b, hb, _, ⟨hsym, rfl⟩, hlt, _, ⟨-, -, rfl⟩, _, ⟨-, rfl⟩, hpos, _,
    ⟨-, -, rfl⟩, rfl, rfl⟩ := h
  rw [decide_eq_true_eq] at hlt hpos
  have hbok : RowOk b := hp.rows _ _ _ hb
  have hd := hbok.deduction
  -- a pledge above zero is one of the core token
  have hcore : b.pledge.symbol = coreSymbol := by
    by_contra hne
    have h0 := hbok.foreign hne
    unfold PledgeInfo.backing at h0
    simp only at hpos
    omega
  refine ⟨hp.put ⟨hbok.symbol, hd, ?_, fun hne => absurd hcore hne⟩, .pay (hsym.trans hcore) hpos
    (by decide) (by decide), ?_⟩
  · simp only [PledgeInfo.backing]; omega
  · rw [backing_put, hb]
    simp only [Option.elim_some, PledgeInfo.backing]
    omega

theorem getreward_owes {rewarder : Name} {q : Asset} {memo : String} {fx : List Effect}
    (hp : Ok p) (h : getreward env p rewarder q memo = .ok (p', fx)) :
    Ok p' ∧ ∃ n, Payout fx n ∧ backing p' + n = backing p := by
  simp only [getreward, bind_eq_ok, fetch_eq_ok, check_eq_ok, pure_eq_ok, exists_const,
    Asset.sub_eq_ok, Prod.mk.injEq] at h
  obtain ⟨_, -, r, hr, hpos, _, ⟨-, -, rfl⟩, rfl, rfl⟩ := h
  have hrok : IsCoin r := hp.rewards _ _ _ hr
  refine ⟨⟨hp.rows, hp.rewards.put ⟨hrok.1, by simp⟩⟩, r.amount,
    .pay hrok.1 hpos (by decide) (by decide), ?_⟩
  simp only [backing, Scoped.sum_put, Scoped.val_of_find hr]
  omega

theorem allotreward_owes {n pledger rewarder : Name} {q : Asset} {memo : String} (hp : Ok p)
    (h : allotreward env p n pledger rewarder q memo = .ok p') :
    Ok p' ∧ backing p' = backing p := by
  simp only [allotreward, bind_eq_ok, fetch_eq_ok, check_eq_ok, exists_const, Asset.le_eq_ok] at h
  obtain ⟨_, -, _, -, b, hb, pre, hpre, hpos, _, ⟨-, rfl⟩, hle, d, hd, h⟩ := h
  rw [decide_eq_true_eq] at hle
  obtain ⟨hok, hcoin, hbk⟩ := payOut_spec (hp.rows _ _ _ hb) hpre hpos hle hd
  obtain ⟨hok', hbk'⟩ := rewardAssign_spec (hp.put hok) hcoin h
  refine ⟨hok', ?_⟩
  rw [hbk', backing_put, hb, hbk, Option.elim_some]
  omega

theorem open_owes {n payer : Name} {memo : String} (hp : Ok p)
    (h : «open» env p n payer memo = .ok p') : Ok p' ∧ backing p' = backing p := by
  simp only [«open», bind_eq_ok, fetch_eq_ok] at h
  obtain ⟨_, -, type, -, h⟩ := h
  split at h
  · cases h; exact ⟨hp, rfl⟩
  · rename_i hf
    simp only [bind_eq_ok, pure_eq_ok, Asset.make_eq_ok] at h
    obtain ⟨_, ⟨-, -, rfl⟩, rfl⟩ := h
    refine ⟨hp.put rowOk_zero, ?_⟩
    rw [backing_put, hf]
    simp only [Option.elim_none, PledgeInfo.backing]
    omega

theorem close_owes {n payer : Name} {memo : String} (hp : Ok p)
    (h : close env p n payer memo = .ok p') : Ok p' ∧ backing p' = backing p := by
  simp only [close, bind_eq_ok, fetch_eq_ok, check_eq_ok, pure_eq_ok, exists_const,
    Asset.make_eq_ok, Asset.eq_eq_ok] at h
  obtain ⟨_, -, type, -, b, hb, _, ⟨-, -, rfl⟩, _, ⟨-, rfl⟩, hpl, _, ⟨-, rfl⟩, hd, rfl⟩ := h
  rw [decide_eq_true_eq] at hpl hd
  refine ⟨⟨fun s k r hr => ?_, hp.rewards⟩, ?_⟩
  · rw [Scoped.find_erase] at hr
    split at hr
    · cases hr
    · exact hp.rows s k r hr
  · simp only [backing, Scoped.sum_erase, Scoped.val_of_find hb, PledgeInfo.backing, hpl, hd]
    omega

theorem dealreward_owes {n pledger : Name} {rewarder : List Name} {memo : String} (hp : Ok p)
    (h : dealreward env p n pledger rewarder memo = .ok p') : Ok p' ∧ backing p' ≤ backing p := by
  cases rewarder with
  | nil =>
    simp only [dealreward, bind_eq_ok, fetch_eq_ok] at h
    obtain ⟨_, -, h⟩ := h
    cases h
  | cons reporter approvers =>
    simp only [dealreward, bind_eq_ok, fetch_eq_ok, check_eq_ok, exists_const, Asset.div_eq_ok,
      List.length_cons, Nat.add_sub_cancel] at h
    obtain ⟨_, -, _, -, b, hb, pre, hpre, hpos, d, hd, report, ⟨-, -, rfl⟩, approve,
      ⟨hk, -, rfl⟩, extra, hextra, t, ht, h⟩ := h
    obtain ⟨hok, hcoin, hbk⟩ := payOut_spec (hp.rows _ _ _ hb) hpre hpos (le_refl _) hd
    obtain ⟨hA0, hAR, hsum⟩ := shares_le hpos (k := approvers.length) (by omega)
    obtain ⟨-, -, rfl⟩ := Asset.sub_eq_ok.mp hextra
    have hy : IsCoin ⟨pre.amount.tdiv (2 * approvers.length : Nat), pre.symbol⟩ := ⟨hcoin.1, hA0⟩
    have hx : IsCoin ⟨pre.amount.tdiv 2 - pre.amount.tdiv (2 * approvers.length : Nat), pre.symbol⟩ :=
      ⟨hcoin.1, Int.sub_nonneg_of_le hAR⟩
    obtain ⟨hok', hbk'⟩ := rewardAssign_spec (hp.put hok) hx ht
    obtain ⟨hok'', hbk''⟩ := rewardAll_spec hok' hy h
    refine ⟨hok'', ?_⟩
    rw [hbk'', hbk', backing_put, hb, hbk, Option.elim_some]
    simp only [List.length_cons, Nat.cast_succ]
    omega

/-- An action lowers what is owed by at least what it pays. -/
theorem exec_owes {a : Action} {fx : List Effect} (hp : Ok p) (ha : (ChainAction.pledge a).Covered)
    (h : exec env p a = .ok (p', fx)) :
    Ok p' ∧ ∃ n, Payout fx n ∧ backing p' + n ≤ backing p := by
  have quiet : Ok p' ∧ backing p' ≤ backing p → fx = [] →
      Ok p' ∧ ∃ n, Payout fx n ∧ backing p' + n ≤ backing p := by
    rintro ⟨hok, hle⟩ rfl
    exact ⟨hok, 0, .none, by omega⟩
  cases a <;> simp only [exec, silent_eq_ok] at h
  case addtype =>
    simp only [addtype, bind_eq_ok, pure_eq_ok] at h
    obtain ⟨⟨_, -, _, -, rfl⟩, rfl⟩ := h
    exact ⟨⟨hp.rows, hp.rewards⟩, 0, .none, le_of_eq (Int.add_zero _)⟩
  case deduction => exact quiet ((deduction_owes hp h.1).imp_right le_of_eq) h.2
  case withdraw =>
    obtain ⟨hok, hpay, hle⟩ := withdraw_owes hp h
    exact ⟨hok, _, hpay, le_of_eq hle⟩
  case getreward =>
    obtain ⟨hok, n, hpay, hle⟩ := getreward_owes hp h
    exact ⟨hok, n, hpay, le_of_eq hle⟩
  case allotreward => exact quiet ((allotreward_owes hp h.1).imp_right le_of_eq) h.2
  case «open» => exact quiet ((open_owes hp h.1).imp_right le_of_eq) h.2
  case close => exact quiet ((close_owes hp h.1).imp_right le_of_eq) h.2
  case amendpledge => exact ha.elim
  case dealreward => exact quiet (dealreward_owes hp h.1) h.2

theorem transfer_spec {s s' : System.State} {src dst : Name} {q : Asset} {memo : String}
    {fx : List Effect} (h : System.transfer env s src dst q memo = .ok (s', fx)) :
    IsCoin q ∧ fx = [.requireRecipient src, .requireRecipient dst] ∧
      ∀ k, balance s' k = balance s k - (if src = k then q.amount else 0) +
        if dst = k then q.amount else 0 := by
  simp only [System.transfer, System.moveTokens, bind_eq_ok, fetch_eq_ok, check_eq_ok, pure_eq_ok,
    exists_const, Asset.add_eq_ok, Asset.sub_eq_ok, Prod.mk.injEq] at h
  obtain ⟨_, -, a, ha, _, -, hsym, hq, -, -, _, ⟨_, ha', _, ⟨-, -, rfl⟩, b, hb, _,
    ⟨-, -, rfl⟩, rfl⟩, rfl, rfl⟩ := h
  rw [ha] at ha'
  cases ha'
  refine ⟨⟨hsym, hq.1⟩, rfl, fun k => ?_⟩
  unfold balance
  simp only [Table.find_put] at hb ⊢
  by_cases hd : dst = k
  · subst hd
    by_cases hs : src = dst
    · subst hs
      simp only [↓reduceIte, Option.some.injEq] at hb
      subst hb
      simp only [↓reduceIte, Option.elim_some, ha]
    · simp only [hs, ↓reduceIte] at hb
      simp only [↓reduceIte, Option.elim_some, hb, hs]
      omega
  · by_cases hs : src = k
    · subst hs
      simp only [hd, ↓reduceIte, Option.elim_some, ha]
      omega
    · simp only [hd, hs, ↓reduceIte]
      omega

/-- A transfer that another account signs brings at least what the contract then owes more. -/
theorem runTransfer_in {w w' : Chain} {src dst : Name} {q : Asset} {memo : String}
    (hp : Ok w.pledge) (hsrc : src ≠ pledgeAccount)
    (h : runTransfer env w src dst q memo = .ok w') :
    Ok w'.pledge ∧ backing w'.pledge - balance w'.system pledgeAccount ≤
      backing w.pledge - balance w.system pledgeAccount := by
  simp only [runTransfer, bind_eq_ok, Prod.exists] at h
  obtain ⟨s', fx, ht, h⟩ := h
  obtain ⟨hq, rfl, hbal⟩ := transfer_spec ht
  have hb := hbal pledgeAccount
  rw [if_neg hsrc] at hb
  split at h
  · simp only [bind_eq_ok, pure_eq_ok] at h
    obtain ⟨p, hadd, rfl⟩ := h
    by_cases hdst : dst = pledgeAccount
    · obtain ⟨hok, hle⟩ := addpledge_spec hp hq hadd
      rw [if_pos hdst] at hb
      exact ⟨hok, by simp only; omega⟩
    · rw [addpledge, if_pos (.inl hdst)] at hadd
      cases hadd
      rw [if_neg hdst] at hb
      exact ⟨hp, by simp only; omega⟩
  · cases h
    refine ⟨hp, ?_⟩
    have := hq.2
    simp only
    split at hb <;> omega

/-- The contract does not take its own transfer to another account as a pledge. -/
theorem runTransfer_pays_iff {w w' : Chain} {dst : Name} {q : Asset} {memo : String}
    (hdst : dst ≠ pledgeAccount) :
    runTransfer env w pledgeAccount dst q memo = .ok w' ↔
      ∃ s' fx, System.transfer env w.system pledgeAccount dst q memo = .ok (s', fx) ∧
        w' = { w with system := s' } := by
  have hown : ∀ p, addpledge env p pledgeAccount dst q memo = .ok p := fun p => if_pos (.inl hdst)
  simp only [runTransfer, bind_eq_ok, Prod.exists]
  constructor
  · rintro ⟨s', fx, ht, h⟩
    obtain ⟨-, rfl, -⟩ := transfer_spec ht
    rw [if_pos List.mem_cons_self, hown] at h
    cases h
    exact ⟨s', _, ht, rfl⟩
  · rintro ⟨s', fx, ht, rfl⟩
    obtain ⟨-, rfl, -⟩ := transfer_spec ht
    refine ⟨s', _, ht, ?_⟩
    rw [if_pos List.mem_cons_self, hown]
    rfl

/-- A payment of the contract: one to itself fails as a pledge. -/
theorem runTransfer_out {w w' : Chain} {dst : Name} {q : Asset} {memo : String}
    (hlen : memo.utf8ByteSize ≠ 0) (hmemo : (Name.ofString memo).isOk = false)
    (h : runTransfer env w pledgeAccount dst q memo = .ok w') :
    w'.pledge = w.pledge ∧
      balance w'.system pledgeAccount = balance w.system pledgeAccount - q.amount := by
  by_cases hdst : dst = pledgeAccount
  · subst hdst
    simp only [runTransfer, bind_eq_ok, Prod.exists] at h
    obtain ⟨s', fx, ht, h⟩ := h
    obtain ⟨-, rfl, -⟩ := transfer_spec ht
    rw [if_pos List.mem_cons_self] at h
    simp only [addpledge, ne_eq, not_true_eq_false, hlen, or_self, ↓reduceIte, bind_eq_ok] at h
    obtain ⟨p, ⟨_, -, n, hn, -⟩, -⟩ := h
    rw [hn] at hmemo
    cases hmemo
  · obtain ⟨s', fx, ht, rfl⟩ := (runTransfer_pays_iff hdst).mp h
    obtain ⟨-, -, hbal⟩ := transfer_spec ht
    refine ⟨rfl, ?_⟩
    rw [hbal, if_pos rfl, if_neg hdst, Int.add_zero]

/-! ## Runs -/

/-- The rows are sound, and the contract holds what it owes. -/
structure Solvent (w : Chain) : Prop where
  ok : Ok w.pledge
  backed : backing w.pledge ≤ balance w.system pledgeAccount

theorem Genesis.solvent {w : Chain} (h : Genesis w) : Solvent w := by
  refine ⟨⟨fun s k b hb => ?_, fun s k r hr => ?_⟩, ?_⟩
  · rw [h.pledge] at hb; cases hb
  · rw [h.reward] at hr; cases hr
  · rw [backing, h.pledge, h.reward]
    exact h.balance

/-- **Step lemma.** -/
theorem Step.solvent {w w' : Chain} {a : Env × ChainAction} (hw : Solvent w) (h : Step w a w') :
    Solvent w' := by
  obtain ⟨env, a⟩ := a
  obtain ⟨ha, h⟩ := h
  have hbacked := hw.backed
  cases a with
  | transfer src dst q memo =>
    obtain ⟨hok, hle⟩ := runTransfer_in hw.ok ha h
    exact ⟨hok, by omega⟩
  | pledge a =>
    simp only [Chain.exec, bind_eq_ok, Prod.exists] at h
    obtain ⟨p, fx, hx, h⟩ := h
    obtain ⟨hok, n, hpay, hle⟩ := exec_owes hw.ok ha hx
    cases hpay with
    | none =>
      cases h
      exact ⟨hok, by simp only; omega⟩
    | pay hcore h0 hlen hmemo =>
      simp only [runInline, List.foldlM_cons, List.foldlM_nil, runEffect, bind_eq_ok,
        pure_eq_ok] at h
      obtain ⟨_, ht, rfl⟩ := h
      obtain ⟨hpl, hbal⟩ := runTransfer_out hlen hmemo ht
      simp only at hpl hbal
      rw [← hpl] at hok hle
      exact ⟨hok, by omega⟩

theorem Reachable.solvent {w : Chain} (h : Reachable w) : Solvent w := by
  obtain ⟨w₀, tr, hg, hr⟩ := h
  exact (hr.inv hg.solvent fun _ _ _ => Step.solvent).1

/-- The state after an action that succeeds. -/
def Chain.next (w : Chain) (env : Env) (a : ChainAction) : Chain :=
  match w.exec env a with
  | .ok w' => w'
  | .error _ => w

theorem Chain.next_step (w : Chain) (env : Env) (a : ChainAction) (ha : a.Covered)
    (h : (w.exec env a).isOk = true) : Step w (env, a) (w.next env a) := by
  refine ⟨ha, ?_⟩
  unfold Chain.next
  cases hx : w.exec env a with
  | ok w' => rfl
  | error e => rw [hx] at h; cases h

/-- Account 1 has 100 tokens, the pledge contract none. -/
def funded : Chain :=
  { system := { accounts := ((∅ : Table Name System.AccountInfo).put 1
      { available := ⟨1000000, coreSymbol⟩ }).put pledgeAccount {} }
    pledge := {} }

/-- The pledge type `block.out` is made. -/
def typed : Chain :=
  funded.next (Env.of systemAccount 1)
    (.pledge (.addtype blockOutPledge systemAccount systemAccount Asset.zero ""))

/-- Account 1 pledges 50 tokens. -/
def pledged : Chain :=
  typed.next (Env.of 1 2) (.transfer 1 pledgeAccount ⟨500000, coreSymbol⟩ "block.out")

/-- 80 tokens are deducted. -/
def deducted : Chain :=
  pledged.next (Env.of systemAccount 3)
    (.pledge (.deduction blockOutPledge 1 ⟨800000, coreSymbol⟩ ""))

end Eosforce.Pledge
