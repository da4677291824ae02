import Eosforce.Pledge.Solvency

/-!
# Authority in the pledge contract

* `Held D v p p'`: what account `v` keeps when it does not sign and only the accounts of `D` may
  deduct: its rewards do not fall, and its pledges of the types of other deduction accounts are the
  same rows. Types are for ever.
* `exec_held`, `addpledge_held`: an action or a notification that `v` does not sign keeps this.
-/

namespace Eosforce.Pledge

open Fallible Keyed

variable {env : Env} {p p' : State} {D : Name → Prop} {v : Name}

/-- What the contract keeps for an account that does not sign. -/
structure Held (D : Name → Prop) (v : Name) (p p' : State) : Prop where
  types : ∀ n t, p.pledgetype.find n = some t → p'.pledgetype.find n = some t
  rewards : ∀ c r, p.reward.find v c = some r →
    ∃ r', p'.reward.find v c = some r' ∧ r.amount ≤ r'.amount
  pledges : ∀ n t, p.pledgetype.find n = some t → ¬D t.deductionAccount →
    p'.pledge.find v n = p.pledge.find v n

theorem Held.refl (D : Name → Prop) (v : Name) (p : State) : Held D v p p :=
  ⟨fun _ _ ht => ht, fun _ r hr => ⟨r, hr, le_refl _⟩, fun _ _ _ _ => rfl⟩

theorem Held.trans {p'' : State} (h : Held D v p p') (h' : Held D v p' p'') : Held D v p p'' where
  types := fun n t ht => h'.types n t (h.types n t ht)
  rewards := by
    intro c r hr
    obtain ⟨r', hr', hle⟩ := h.rewards c r hr
    obtain ⟨r'', hr'', hle'⟩ := h'.rewards c r' hr'
    exact ⟨r'', hr'', hle.trans hle'⟩
  pledges := fun n t ht hD =>
    (h'.pledges n t (h.types n t ht) hD).trans (h.pledges n t ht hD)

/-- The pledge row of another account is written. -/
theorem Held.of_other {w n : Name} {b : PledgeInfo} (hw : w ≠ v) :
    Held D v p { p with pledge := p.pledge.put w n b } :=
  ⟨fun _ _ ht => ht, fun _ r hr => ⟨r, hr, le_refl _⟩,
    fun _ _ _ _ => Scoped.find_put_scope _ _ hw⟩

/-- A deduction account writes a row of its type. -/
theorem Held.of_deductor {w n : Name} {b : PledgeInfo} {t : PledgeType}
    (ht : p.pledgetype.find n = some t) (hD : D t.deductionAccount) :
    Held D v p { p with pledge := p.pledge.put w n b } where
  types := fun _ _ ht => ht
  rewards := fun _ r hr => ⟨r, hr, le_refl _⟩
  pledges := by
    intro m u hu hnot
    refine Scoped.find_put_ne _ _ ?_
    rintro ⟨-, rfl⟩
    rw [ht] at hu
    cases hu
    exact hnot hD

theorem checkPledgeTyp_ok {n d : Name} {sym : Symbol} (h : checkPledgeTyp p n sym = .ok d) :
    ∃ t, p.pledgetype.find n = some t ∧ d = t.deductionAccount := by
  simp only [checkPledgeTyp, bind_eq_ok, fetch_eq_ok, pure_eq_ok] at h
  obtain ⟨t, ht, _, -, rfl⟩ := h
  exact ⟨t, ht, rfl⟩

theorem requireAuth_ok {account : Name} {u : Unit} (h : requireAuth env account = .ok u) :
    account ∈ env.auths :=
  check_eq_ok.mp h

/-! ## Rewards -/

/-- A reward that is not negative is assigned. -/
theorem rewardAssign_held {rewarder : Name} {q : Asset} (hq : 0 ≤ q.amount)
    (h : rewardAssign p rewarder q = .ok p') : Held D v p p' ∧ p'.pledge = p.pledge := by
  unfold rewardAssign at h
  split at h
  · rename_i hnone
    cases h
    refine ⟨⟨fun _ _ ht => ht, fun c r hr => ⟨r, ?_, le_refl _⟩, fun _ _ _ _ => rfl⟩, rfl⟩
    refine (Scoped.find_put_ne _ _ ?_).trans hr
    rintro ⟨rfl, rfl⟩
    rw [hnone] at hr
    cases hr
  · rename_i old hold
    simp only [bind_eq_ok, pure_eq_ok, Asset.add_eq_ok] at h
    obtain ⟨_, ⟨-, -, rfl⟩, rfl⟩ := h
    refine ⟨⟨fun _ _ ht => ht, fun c r hr => ?_, fun _ _ _ _ => rfl⟩, rfl⟩
    by_cases hk : rewarder = v ∧ q.symbol.code = c
    · obtain ⟨rfl, rfl⟩ := hk
      obtain rfl := Option.some.inj (hold.symm.trans hr)
      exact ⟨_, Scoped.find_put_self _ _ _ _, by simp only; omega⟩
    · exact ⟨r, (Scoped.find_put_ne _ _ hk).trans hr, le_refl _⟩

/-- The rewards of the approvers. -/
theorem rewardAll_held {rewarders : List Name} {q : Asset} (hq : 0 ≤ q.amount)
    (h : rewarders.foldlM (fun s r => rewardAssign s r q) p = .ok p') : Held D v p p' :=
  foldlM_inv (P := fun t => Held D v p t) (.refl _ _ _)
    (fun _ _ _ _ hI hs => hI.trans (rewardAssign_held hq hs).1) h

/-! ## Actions -/

/-- The notification of a transfer that `v` does not sign. -/
theorem addpledge_held {src dst : Name} {q : Asset} {memo : String} (hv : v ∉ env.auths)
    (h : addpledge env p src dst q memo = .ok p') : Held D v p p' := by
  unfold addpledge at h
  split at h
  · cases h
    exact .refl _ _ _
  · simp only [bind_eq_ok, pure_eq_ok] at h
    obtain ⟨_, hauth, _, -, _, -, b, -, rfl⟩ := h
    refine .of_other ?_
    rintro rfl
    exact hv (requireAuth_ok hauth)

theorem deduction_held {n debitee : Name} {q : Asset} {memo : String}
    (hD : ∀ a ∈ env.auths, D a) (h : deduction env p n debitee q memo = .ok p') :
    Held D v p p' := by
  simp only [deduction, bind_eq_ok, pure_eq_ok] at h
  obtain ⟨d, hd, _, hauth, _, -, b, -, rfl⟩ := h
  obtain ⟨t, ht, rfl⟩ := checkPledgeTyp_ok hd
  exact .of_deductor ht (hD _ (requireAuth_ok hauth))

theorem dealreward_held {n pledger : Name} {rewarder : List Name} {memo : String}
    (hD : ∀ a ∈ env.auths, D a) (h : dealreward env p n pledger rewarder memo = .ok p') :
    Held D v p p' := by
  cases rewarder with
  | nil =>
    simp only [dealreward, bind_eq_ok, fetch_eq_ok] at h
    obtain ⟨_, -, h⟩ := h
    cases h
  | cons reporter approvers =>
    simp only [dealreward, bind_eq_ok, fetch_eq_ok, check_eq_ok, exists_const, Asset.div_eq_ok,
      Asset.sub_eq_ok, List.length_cons, Nat.add_sub_cancel] at h
    obtain ⟨t, ht, _, hauth, b, -, pre, -, hpos, _, -, _, ⟨-, -, rfl⟩, _, ⟨hk, -, rfl⟩, _,
      ⟨-, -, rfl⟩, u, hu, h⟩ := h
    obtain ⟨hA0, hAR, -⟩ := shares_le hpos (k := approvers.length) (by omega)
    have hfirst := (rewardAssign_held (D := D) (v := v) (Int.sub_nonneg_of_le hAR) hu).1
    exact ((Held.of_deductor ht (hD _ (requireAuth_ok hauth))).trans hfirst).trans
      (rewardAll_held hA0 h)

end Eosforce.Pledge
