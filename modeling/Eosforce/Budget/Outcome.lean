import Eosforce.Budget.Votes

/-!
# The outcome of a vote

A ballot records the votes of the calls, and the section of a motion or a request is what its ballot
says at any time.

* `Standing`, `Turn`: a section with its ballot, and what a call does to them.
* `Poll.turn`, `CoinCall.turn`: what calls do to a motion and to a request.
* `run_tallied`: the ballot after a run.
* `outcome_of_votes`: a vote is decided as soon as the votes decide it.
* `passable_iff`: the motions that can still pass.
-/

namespace Eosforce.Budget

open Fallible Keyed Runs

/-! ## Standings -/

namespace Ballot

variable {b : Ballot} {approver : Name}

/-- The section that the votes call for. -/
def outcome (b : Ballot) : Nat := if b.Passed then 1 else if b.Refused then 2 else 0

theorem agree_refused_iff (h : approver ∈ b.requested) :
    (b.agree approver).Refused ↔ b.Refused := by
  unfold Refused
  rw [(grows_agree h).size]
  rfl

theorem refuse_passed_iff (h : approver ∈ b.requested) :
    (b.refuse approver).Passed ↔ b.Passed := by
  unfold Passed
  rw [(grows_refuse h).size]
  rfl

theorem outcome_eq_zero : b.outcome = 0 ↔ ¬b.Passed ∧ ¬b.Refused := by
  unfold outcome
  split
  · rename_i hp
    simp [hp]
  · rename_i hp
    split <;> simp_all

theorem outcome_of_refused (h : b.Refused) : b.outcome = 2 := by
  have hp : ¬b.Passed := fun hp => not_refused_of_passed hp h
  rw [outcome, if_neg hp, if_pos h]

theorem outcome_made (c : List Name) : ({ requested := c } : Ballot).outcome = 0 := by
  refine outcome_eq_zero.mpr ⟨?_, ?_⟩ <;> simp [Passed, Refused]

end Ballot

/-- The section of a motion or of a request, with its ballot. -/
structure Standing where
  «section» : Nat
  ballot : Ballot

/-- What a call means for a vote. -/
inductive VoteEvent where
  | idle
  | agree (approver : Name)
  | refuse (approver : Name)
  | turndown

namespace VoteEvent

/-- The approver that votes for. -/
def agreed : VoteEvent → Option Name
  | .agree approver => some approver
  | _ => none

/-- The approver that votes against. -/
def refused : VoteEvent → Option Name
  | .refuse approver => some approver
  | _ => none

end VoteEvent

/-- What an event does to a standing: a vote for it is cast under review only. -/
inductive Turn : VoteEvent → Standing → Standing → Prop
  | idle (s : Standing) : Turn .idle s s
  | agree {approver : Name} {x : Ballot} (hr : approver ∈ x.requested) :
    Turn (.agree approver) ⟨0, x⟩
      ⟨if (x.agree approver).Passed then 1 else 0, x.agree approver⟩
  | refuse {approver : Name} {n : Nat} {x : Ballot} (hr : approver ∈ x.requested) :
    Turn (.refuse approver) ⟨n, x⟩
      ⟨if (x.refuse approver).Refused then 2 else n, x.refuse approver⟩
  | turndown {n : Nat} {x : Ballot} : Turn .turndown ⟨n, x⟩ ⟨3, x⟩

/-- The section is the outcome of the ballot. -/
def Standing.Counted (s : Standing) : Prop := s.section = s.ballot.outcome

section Turn

variable {e : VoteEvent} {s t : Standing}

theorem Turn.counted (h : Turn e s t) (hs : s.Counted) (he : e ≠ .turndown) : t.Counted := by
  unfold Standing.Counted at *
  cases h with
  | idle => exact hs
  | @agree approver x hr =>
    obtain ⟨-, hno⟩ := Ballot.outcome_eq_zero.mp hs.symm
    simp only [Ballot.outcome, if_neg ((Ballot.agree_refused_iff hr).not.mpr hno)]
  | @refuse approver n x hr =>
    simp only at hs ⊢
    by_cases href : (x.refuse approver).Refused
    · rw [if_pos href, Ballot.outcome_of_refused href]
    · have hno : ¬x.Refused := fun h => href ((Ballot.grows_refuse hr).refused h)
      rw [if_neg href, hs]
      simp only [Ballot.outcome, Ballot.refuse_passed_iff hr, if_neg href, if_neg hno]
  | turndown => exact absurd rfl he

theorem Turn.settled (h : Turn e s t) (hs : s.section = 3 ∨ s.Counted) :
    t.section = 3 ∨ t.Counted := by
  cases h with
  | turndown => exact .inl rfl
  | idle => exact hs
  | agree hr =>
    exact .inr ((Turn.agree hr).counted (hs.resolve_left fun e => by cases e) (fun e => by cases e))
  | @refuse approver n x hr =>
    rcases hs with h3 | hs
    · by_cases href : (x.refuse approver).Refused
      · exact .inr (by rw [Standing.Counted, if_pos href, Ballot.outcome_of_refused href])
      · exact .inl (by rw [if_neg href]; exact h3)
    · exact .inr ((Turn.refuse hr).counted hs (fun e => by cases e))

theorem Turn.voters (h : Turn e s t) : t.ballot.voters = s.ballot.voters := by
  cases h with
  | idle | turndown => rfl
  | agree hr => exact Ballot.voters_agree hr
  | refuse hr => exact Ballot.voters_refuse hr

theorem Turn.approved (h : Turn e s t) :
    t.ballot.approved = s.ballot.approved ++ e.agreed.toList := by
  cases h <;> simp [VoteEvent.agreed, Ballot.agree, Ballot.refuse]

theorem Turn.unapproved (h : Turn e s t) :
    t.ballot.unapproved = s.ballot.unapproved ++ e.refused.toList := by
  cases h <;> simp [VoteEvent.refused, Ballot.agree, Ballot.refuse]

end Turn

/-! ## Motions -/

/-- What an action means for motion `id`. -/
def Action.motionEvent (id : Nat) : Action → VoteEvent
  | .approve approver i _ => if i = id then .agree approver else .idle
  | .unapprove approver i _ => if i = id then .refuse approver else .idle
  | .turndown i _ => if i = id then .turndown else .idle
  | _ => .idle

/-- The standing of motion `id`. -/
def motionStanding (id : Nat) (b : State) : Option Standing :=
  (b.motions.find id).bind fun m =>
    (b.approvers.find m.proposer id).map fun x => ⟨m.section, x⟩

section Motions

variable {b : State} {a : Action} {motions : Table Nat MotionInfo}
  {approvers : Scoped Name Nat Ballot} {id : Nat} {m : MotionInfo} {x : Ballot}

/-- A vote about another motion. -/
theorem turn_ne (hm : b.motions.find id = some m) (hx : b.approvers.find m.proposer id = some x)
    {i : Nat} (hi : i ≠ id) {n : MotionInfo} {p : Name} {y : Ballot} {c : Prop} [Decidable c] :
    ∃ m' x', (if c then b.motions.put i n else b.motions).find id = some m' ∧
      (b.approvers.put p i y).find m'.proposer id = some x' ∧
      m'.approveEndBlockNum = m.approveEndBlockNum ∧
      Turn .idle ⟨m.section, x⟩ ⟨m'.section, x'⟩ := by
  refine ⟨m, x, ?_, ?_, rfl, .idle _⟩
  · split
    · rw [Table.find_put_ne _ _ hi]
      exact hm
    · exact hm
  · rw [Scoped.find_put_ne _ _ fun e => hi e.2]
    exact hx

/-- What an action does to a motion that it does not close. -/
theorem Poll.turn (h : Poll b a motions approvers) (hm : b.motions.find id = some m)
    (hx : b.approvers.find m.proposer id = some x) (hopen : ¬a.ClosesMotion id) :
    ∃ m' x', motions.find id = some m' ∧ approvers.find m'.proposer id = some x' ∧
      m'.approveEndBlockNum = m.approveEndBlockNum ∧
      Turn (a.motionEvent id) ⟨m.section, x⟩ ⟨m'.section, x'⟩ := by
  cases h with
  | handover | takecoin | agreecoin | unagreecoin | closecoin | updateconfig =>
    exact ⟨m, x, hm, hx, rfl, .idle _⟩
  | @propose proposer _ _ _ i n c hid =>
    have hne : i ≠ id := (lt_availablePrimaryKey hid hm).ne'
    refine ⟨m, x, ?_, ?_, rfl, .idle _⟩
    · rw [Table.find_put_ne _ _ hne]
      exact hm
    · rw [Scoped.find_put_ne _ _ fun e => hne e.2]
      exact hx
  | @approve approver i memo n y hn h0 hy hr =>
    by_cases hi : i = id
    · subst hi
      obtain rfl := Option.some.inj (hm.symm.trans hn)
      obtain rfl := Option.some.inj (hx.symm.trans hy)
      have hturn := Turn.agree hr
      rw [← h0] at hturn
      simp only [Action.motionEvent, if_true]
      by_cases hpass : (x.agree approver).Passed
      · rw [if_pos hpass] at hturn ⊢
        exact ⟨_, _, Table.find_put_self _ _ _, Scoped.find_put_self _ _ _ _, rfl, hturn⟩
      · rw [if_neg hpass] at hturn ⊢
        exact ⟨m, _, hm, Scoped.find_put_self _ _ _ _, rfl, hturn⟩
    · simp only [Action.motionEvent, if_neg hi]
      exact turn_ne hm hx hi
  | @unapprove approver i memo n y hn hy hr =>
    by_cases hi : i = id
    · subst hi
      obtain rfl := Option.some.inj (hm.symm.trans hn)
      obtain rfl := Option.some.inj (hx.symm.trans hy)
      have hturn := Turn.refuse (n := m.section) hr
      simp only [Action.motionEvent, if_true]
      by_cases href : (x.refuse approver).Refused
      · rw [if_pos href] at hturn ⊢
        exact ⟨_, _, Table.find_put_self _ _ _, Scoped.find_put_self _ _ _ _, rfl, hturn⟩
      · rw [if_neg href] at hturn ⊢
        exact ⟨m, _, hm, Scoped.find_put_self _ _ _ _, rfl, hturn⟩
    · simp only [Action.motionEvent, if_neg hi]
      exact turn_ne hm hx hi
  | @pay approver proposer k i memo n quantity hn =>
    by_cases hi : i = id
    · subst hi
      obtain rfl := Option.some.inj (hm.symm.trans hn)
      exact ⟨_, x, Table.find_put_self _ _ _, hx, rfl, .idle _⟩
    · exact ⟨m, x, by rw [Table.find_put_ne _ _ hi]; exact hm, hx, rfl, .idle _⟩
  | @turndown i memo n hn =>
    by_cases hi : i = id
    · subst hi
      obtain rfl := Option.some.inj (hm.symm.trans hn)
      simp only [Action.motionEvent, if_true]
      exact ⟨_, x, Table.find_put_self _ _ _, hx, rfl, .turndown⟩
    · simp only [Action.motionEvent, if_neg hi]
      exact ⟨m, x, by rw [Table.find_put_ne _ _ hi]; exact hm, hx, rfl, .idle _⟩
  | @closemotion i memo n hn =>
    have hi : i ≠ id := fun e => hopen ⟨memo, by rw [e]⟩
    refine ⟨m, x, ?_, ?_, rfl, .idle _⟩
    · rw [Table.find_erase_ne _ hi]
      exact hm
    · rw [Scoped.find_erase_ne _ fun e => hi e.2]
      exact hx

/-- A motion that an action makes is under review, and its ballot has no vote. -/
theorem Poll.made (h : Poll b a motions approvers) (hnone : b.motions.find id = none)
    (hm : motions.find id = some m) (hx : approvers.find m.proposer id = some x) :
    m.section = 0 ∧ ∃ c, b.committee = some c ∧ x = { requested := c } := by
  have hput : ∀ {i : Nat} {n n' : MotionInfo}, b.motions.find i = some n' →
      (b.motions.put i n).find id = some m → False := by
    intro i n n' hn hfind
    rw [Table.find_put] at hfind
    split at hfind
    · rename_i hi
      subst hi
      cases hnone.symm.trans hn
    · cases hnone.symm.trans hfind
  cases h with
  | handover | takecoin | agreecoin | unagreecoin | closecoin | updateconfig =>
    cases hnone.symm.trans hm
  | @propose proposer _ _ _ i n c hid hp h0 _ hc =>
    rw [Table.find_put] at hm
    split at hm
    · rename_i hi
      subst hi
      cases hm
      rw [hp, Scoped.find_put_self] at hx
      cases hx
      exact ⟨h0, c, hc, rfl⟩
    · cases hnone.symm.trans hm
  | approve hn | unapprove hn =>
    split at hm
    · exact (hput hn hm).elim
    · cases hnone.symm.trans hm
  | pay hn | turndown hn => exact (hput hn hm).elim
  | closemotion hn =>
    rw [Table.find_erase] at hm
    split at hm
    · cases hm
    · cases hnone.symm.trans hm

end Motions

/-! ## Requests -/

/-- What an action means for request `k` of a proposer. -/
def Action.coinEvent (proposer : Name) (k : Nat) : Action → VoteEvent
  | .agreecoin approver p i _ => if p = proposer ∧ i = k then .agree approver else .idle
  | .unagreecoin approver p i _ => if p = proposer ∧ i = k then .refuse approver else .idle
  | _ => .idle

/-- The standing of request `k` of a proposer. -/
def coinStanding (proposer : Name) (k : Nat) (b : State) : Option Standing :=
  (b.takecoins.find proposer k).map fun t => ⟨t.section, t.ballot⟩

/-- What an action does to the requests and their votes. -/
inductive CoinCall (b : State) : Action → Scoped Name Nat TakecoinInfo → Prop
  | still {a : Action} (ha : ∀ p k, a.coinEvent p k = .idle) : CoinCall b a b.takecoins
  | takecoin {a : Action} {proposer : Name} {k : Nat} {t : TakecoinInfo} {c : List Name}
    (ha : ∀ p k, a.coinEvent p k = .idle) (hk : b.takecoins.find proposer k = none)
    (h0 : t.section = 0) (hb : t.ballot = { requested := c }) :
    CoinCall b a (b.takecoins.put proposer k t)
  | vote {a : Action} {proposer : Name} {k : Nat} {t t' : TakecoinInfo}
    (ha : ∀ p i, ¬(proposer = p ∧ k = i) → a.coinEvent p i = .idle)
    (ht : b.takecoins.find proposer k = some t)
    (h : Turn (a.coinEvent proposer k) ⟨t.section, t.ballot⟩ ⟨t'.section, t'.ballot⟩) :
    CoinCall b a (b.takecoins.put proposer k t')
  | closecoin {proposer : Name} {k : Nat} {memo : String} :
    CoinCall b (.closecoin proposer k memo) (b.takecoins.erase proposer k)

section Requests

variable {env : Env} {b b' : State} {a : Action} {takecoins : Scoped Name Nat TakecoinInfo}
  {p : Name} {k : Nat} {t : TakecoinInfo}

theorem agreecoin_call {approver proposer : Name} {i : Nat} {memo : String} {fx : List Effect}
    (h : agreecoin env b approver proposer i memo = .ok (b', fx)) :
    CoinCall b (.agreecoin approver proposer i memo) b'.takecoins := by
  have hother : ∀ q j, ¬(proposer = q ∧ i = j) →
      (Action.agreecoin approver proposer i memo).coinEvent q j = .idle := fun q j hne =>
    if_neg hne
  have hself : (Action.agreecoin approver proposer i memo).coinEvent proposer i =
      .agree approver := if_pos ⟨rfl, rfl⟩
  simp only [agreecoin, bind_eq_ok] at h
  obtain ⟨_, -, t, ht, h⟩ := h
  obtain ⟨ht, h0, hr⟩ := takecoinUnderVote_requested ht
  have hturn := Turn.agree hr
  split at h
  · rename_i hpass
    simp only [payTakecoin, bind_eq_ok, pure_eq_ok, Prod.mk.injEq, Scoped.put_put] at h
    obtain ⟨m, -, _, -, _, -, _, -, _, -, rfl, -⟩ := h
    rw [if_pos hpass, ← h0, ← hself] at hturn
    exact .vote hother ht hturn
  · rename_i hpass
    cases h
    rw [if_neg hpass, ← h0, ← hself] at hturn
    exact .vote hother ht hturn

theorem unagreecoin_call {approver proposer : Name} {i : Nat} {memo : String}
    (h : unagreecoin env b approver proposer i memo = .ok b') :
    CoinCall b (.unagreecoin approver proposer i memo) b'.takecoins := by
  have hother : ∀ q j, ¬(proposer = q ∧ i = j) →
      (Action.unagreecoin approver proposer i memo).coinEvent q j = .idle := fun q j hne =>
    if_neg hne
  have hself : (Action.unagreecoin approver proposer i memo).coinEvent proposer i =
      .refuse approver := if_pos ⟨rfl, rfl⟩
  simp only [unagreecoin, bind_eq_ok, pure_eq_ok] at h
  obtain ⟨_, -, t, ht, rfl⟩ := h
  obtain ⟨ht, h0, hr⟩ := takecoinUnderVote_requested ht
  have hturn := Turn.refuse (n := t.section) hr
  split
  · rename_i href
    rw [if_pos href, ← hself] at hturn
    exact .vote hother ht hturn
  · rename_i href
    rw [if_neg href, ← hself] at hturn
    exact .vote hother ht hturn

/-- What a successful action does. -/
theorem exec_coinCall {fx : List Effect} (h : exec env b a = .ok (b', fx)) :
    CoinCall b a b'.takecoins := by
  cases a <;> simp only [exec, silent_eq_ok] at h
  case agreecoin => exact agreecoin_call h
  all_goals obtain ⟨h, -⟩ := h
  case unagreecoin => exact unagreecoin_call h
  case takecoin =>
    simp only [takecoin, bind_eq_ok, fetch_eq_ok, pure_eq_ok, emplace_eq_ok] at h
    obtain ⟨_, -, _, -, _, -, _, -, _, -, _, -, _, -, _, -, _, -, c, hc, k, -, _, ⟨hk, rfl⟩,
      rfl⟩ := h
    exact .takecoin (fun _ _ => rfl) hk rfl rfl
  case closecoin =>
    simp only [closecoin, bind_eq_ok, pure_eq_ok] at h
    obtain ⟨_, -, _, -, rfl⟩ := h
    exact .closecoin
  case handover =>
    simp only [handover, bind_eq_ok, pure_eq_ok] at h
    obtain ⟨_, -, rfl⟩ := h
    exact .still fun _ _ => rfl
  case updateconfig =>
    simp only [updateconfig, bind_eq_ok, pure_eq_ok] at h
    obtain ⟨_, -, rfl⟩ := h
    exact .still fun _ _ => rfl
  case propose =>
    simp only [propose, bind_eq_ok, pure_eq_ok] at h
    obtain ⟨_, -, _, -, _, -, _, -, _, -, _, -, rfl⟩ := h
    exact .still fun _ _ => rfl
  case approve =>
    simp only [approve, bind_eq_ok, pure_eq_ok] at h
    obtain ⟨_, -, _, -, _, -, _, -, rfl⟩ := h
    rw [decideMotion_takecoins]
    exact .still fun _ _ => rfl
  case unapprove =>
    simp only [unapprove, bind_eq_ok, pure_eq_ok] at h
    obtain ⟨_, -, _, -, _, -, rfl⟩ := h
    rw [decideMotion_takecoins]
    exact .still fun _ _ => rfl
  case turndown =>
    simp only [turndown, bind_eq_ok, pure_eq_ok] at h
    obtain ⟨_, -, _, -, rfl⟩ := h
    exact .still fun _ _ => rfl
  case closemotion =>
    simp only [closemotion, bind_eq_ok, pure_eq_ok] at h
    obtain ⟨_, -, _, -, _, -, rfl⟩ := h
    exact .still fun _ _ => rfl

/-- What an action does to a request that it does not close. -/
theorem CoinCall.turn (h : CoinCall b a takecoins) (ht : b.takecoins.find p k = some t)
    (hopen : ¬a.ClosesCoin p k) : ∃ t', takecoins.find p k = some t' ∧
      Turn (a.coinEvent p k) ⟨t.section, t.ballot⟩ ⟨t'.section, t'.ballot⟩ := by
  cases h with
  | still ha => exact ⟨t, ht, ha p k ▸ .idle _⟩
  | @takecoin _ proposer i n c ha hk =>
    have hne : ¬(proposer = p ∧ i = k) := by
      rintro ⟨rfl, rfl⟩
      cases hk.symm.trans ht
    exact ⟨t, by rw [Scoped.find_put_ne _ _ hne]; exact ht, ha p k ▸ .idle _⟩
  | @vote _ proposer i n n' ha hn hturn =>
    by_cases hi : proposer = p ∧ i = k
    · obtain ⟨rfl, rfl⟩ := hi
      obtain rfl := Option.some.inj (ht.symm.trans hn)
      exact ⟨n', Scoped.find_put_self _ _ _ _, hturn⟩
    · exact ⟨t, by rw [Scoped.find_put_ne _ _ hi]; exact ht, ha p k hi ▸ .idle _⟩
  | @closecoin proposer i memo =>
    have hi : ¬(proposer = p ∧ i = k) := fun e => hopen ⟨memo, by rw [e.1, e.2]⟩
    exact ⟨t, by rw [Scoped.find_erase_ne _ hi]; exact ht, .idle _⟩

/-- A request that an action makes is under review, and its ballot has no vote. -/
theorem CoinCall.made (h : CoinCall b a takecoins) (hnone : b.takecoins.find p k = none)
    (ht : takecoins.find p k = some t) : t.section = 0 ∧ ∃ c, t.ballot = { requested := c } := by
  cases h with
  | still => cases hnone.symm.trans ht
  | @takecoin _ proposer i n c ha hk h0 hb =>
    rw [Scoped.find_put] at ht
    split at ht
    · cases ht
      exact ⟨h0, c, hb⟩
    · cases hnone.symm.trans ht
  | @vote _ proposer i n n' ha hn hturn =>
    rw [Scoped.find_put] at ht
    split at ht
    · rename_i hi
      obtain ⟨rfl, rfl⟩ := hi
      cases hnone.symm.trans hn
    · cases hnone.symm.trans ht
  | closecoin =>
    rw [Scoped.find_erase] at ht
    split at ht
    · cases ht
    · cases hnone.symm.trans ht

end Requests

/-! ## Runs -/

section Runs

variable {b b' b₀ : State} {tr tr₀ : List (State × Call × State)}

/-- The ballot after a run has the votes that the calls of the run cast, in their order. -/
structure Tallied (event : Action → VoteEvent) (tr : List (State × Call × State))
    (s s' : Standing) : Prop where
  voters : s'.ballot.voters = s.ballot.voters
  approved : s'.ballot.approved =
    s.ballot.approved ++ tr.filterMap fun e => (event e.2.1.action).agreed
  unapproved : s'.ballot.unapproved =
    s.ballot.unapproved ++ tr.filterMap fun e => (event e.2.1.action).refused

theorem Tallied.nil (event : Action → VoteEvent) (s : Standing) : Tallied event [] s s :=
  ⟨rfl, (List.append_nil _).symm, (List.append_nil _).symm⟩

theorem Tallied.snoc {event : Action → VoteEvent} {s t u : Standing}
    {e : State × Call × State} (h : Tallied event tr s t) (ht : Turn (event e.2.1.action) t u) :
    Tallied event (tr ++ [e]) s u where
  voters := ht.voters.trans h.voters
  approved := by
    rw [ht.approved, h.approved, List.filterMap_append, List.append_assoc]
    congr 2
  unapproved := by
    rw [ht.unapproved, h.unapproved, List.filterMap_append, List.append_assoc]
    congr 2

/-- **Run lemma.** Where each call turns a standing, a run tallies its votes. -/
theorem run_tallied {event : Action → VoteEvent} {look : State → Option Standing}
    {I : State → Prop} {C : Action → Prop}
    (hturn : ∀ t c u s, I t → Step t c u → C c.action → look t = some s →
      ∃ s', look u = some s' ∧ Turn (event c.action) s s')
    (hI : ∀ t c u, I t → Step t c u → I u) {s : Standing} (hb : I b) (hs : look b = some s)
    (h : Run Step b tr b') (hC : ∀ e ∈ tr, C e.2.1.action) :
    ∃ s', look b' = some s' ∧ Tallied event tr s s' ∧
      (s.Counted → (∀ e ∈ tr, event e.2.1.action ≠ .turndown) → s'.Counted) := by
  refine ((h.restrict (C := fun e => C e.2.1.action) hC).history
    (I := fun tr b' => I b' ∧ ∃ s', look b' = some s' ∧ Tallied event tr s s' ∧
      (s.Counted → (∀ e ∈ tr, event e.2.1.action ≠ .turndown) → s'.Counted))
    ⟨hb, s, hs, .nil event s, fun hc _ => hc⟩ ?_).2
  rintro tr t c u ⟨ht, s₁, hs₁, htally, hcount⟩ ⟨hst, hCc⟩
  obtain ⟨s₂, hs₂, h₂⟩ := hturn t c u s₁ ht hst hCc hs₁
  refine ⟨hI t c u ht hst, s₂, hs₂, htally.snoc h₂, fun hc hno => ?_⟩
  exact h₂.counted (hcount hc fun e he => hno e (List.mem_append_left _ he))
    (hno (t, c, u) (by simp))

/-- A motion says what its ballot says, or is turned down; a request says what its ballot says. -/
structure Settled (b : State) : Prop where
  paired : Paired b.motions b.approvers
  motions : ∀ id s, motionStanding id b = some s → s.section = 3 ∨ s.Counted
  coins : ∀ p k s, coinStanding p k b = some s → s.Counted

theorem motionStanding_eq_some {id : Nat} {s : Standing} : motionStanding id b = some s ↔
    ∃ m x, b.motions.find id = some m ∧ b.approvers.find m.proposer id = some x ∧
      s = ⟨m.section, x⟩ := by
  simp only [motionStanding, Option.bind_eq_some_iff, Option.map_eq_some_iff]
  constructor
  · rintro ⟨m, hm, x, hx, rfl⟩
    exact ⟨m, x, hm, hx, rfl⟩
  · rintro ⟨m, x, hm, hx, rfl⟩
    exact ⟨m, hm, x, hx, rfl⟩

theorem coinStanding_eq_some {p : Name} {k : Nat} {s : Standing} : coinStanding p k b = some s ↔
    ∃ t, b.takecoins.find p k = some t ∧ ⟨t.section, t.ballot⟩ = s :=
  Option.map_eq_some_iff

theorem coinEvent_ne_turndown (a : Action) (p : Name) (k : Nat) :
    a.coinEvent p k ≠ .turndown := by
  intro h
  cases a <;> simp only [Action.coinEvent] at h <;> first | cases h | (split at h <;> cases h)

theorem Poll.closes {id : Nat} {memo : String} {motions : Table Nat MotionInfo}
    {approvers : Scoped Name Nat Ballot} (h : Poll b (.closemotion id memo) motions approvers) :
    motions.find id = none := by
  cases h with
  | closemotion hm => exact Table.find_erase_self _ _

/-- A motion says what its ballot says, or is turned down, after an action too. -/
theorem Poll.settled {a : Action} {id : Nat} {s : Standing} (hb : Settled b)
    (h : Poll b a b'.motions b'.approvers) (hs : motionStanding id b' = some s) :
    s.section = 3 ∨ s.Counted := by
  obtain ⟨m', x', hm', hx', rfl⟩ := motionStanding_eq_some.mp hs
  cases hm : b.motions.find id with
  | none =>
    obtain ⟨h0, cs, -, rfl⟩ := h.made hm hm' hx'
    exact .inr (h0.trans (Ballot.outcome_made cs).symm)
  | some m =>
    obtain ⟨x, hx⟩ := hb.paired.find hm
    have hopen : ¬a.ClosesMotion id := by
      rintro ⟨memo, rfl⟩
      cases h.closes.symm.trans hm'
    obtain ⟨m'', x'', hm'', hx'', -, hturn⟩ := h.turn hm hx hopen
    obtain rfl := Option.some.inj (hm''.symm.trans hm')
    obtain rfl := Option.some.inj (hx''.symm.trans hx')
    exact hturn.settled (hb.motions id _ (motionStanding_eq_some.mpr ⟨m, x, hm, hx, rfl⟩))

/-- So does a request, which is not turned down. -/
theorem CoinCall.settled {a : Action} {p : Name} {k : Nat} {s : Standing} (hb : Settled b)
    (h : CoinCall b a b'.takecoins) (hs : coinStanding p k b' = some s) : s.Counted := by
  obtain ⟨t', ht', rfl⟩ := coinStanding_eq_some.mp hs
  have hold : ∀ t, b.takecoins.find p k = some t →
      (⟨t.section, t.ballot⟩ : Standing).Counted := fun t ht =>
    hb.coins p k _ (coinStanding_eq_some.mpr ⟨t, ht, rfl⟩)
  generalize b'.takecoins = takecoins at h ht'
  cases h with
  | still => exact hold t' ht'
  | @takecoin _ proposer i n cs ha hk h0 hballot =>
    rw [Scoped.find_put] at ht'
    split at ht'
    · cases ht'
      rw [h0, hballot]
      exact (Ballot.outcome_made cs).symm
    · exact hold t' ht'
  | @vote _ proposer i n n' ha hn hturn =>
    rw [Scoped.find_put] at ht'
    split at ht'
    · rename_i hi
      obtain ⟨rfl, rfl⟩ := hi
      cases ht'
      exact hturn.counted (hold n hn) (coinEvent_ne_turndown _ _ _)
    · exact hold t' ht'
  | closecoin =>
    rw [Scoped.find_erase] at ht'
    split at ht'
    · cases ht'
    · exact hold t' ht'

/-- **Step lemma.** -/
theorem Settled.step {c : Call} (hb : Settled b) (h : Step b c b') : Settled b' where
  paired := (exec_poll h.1).paired hb.paired
  motions := fun _ _ hs => (exec_poll h.1).settled hb hs
  coins := fun _ _ _ hs => (exec_coinCall h.1).settled hb hs

theorem Deployed.settled (hb : Deployed b₀) (h : Run Step b₀ tr₀ b) : Settled b := by
  refine (h.inv (I := Settled) ⟨?_, ?_, ?_⟩ fun _ _ _ hI hst => hI.step hst).1
  · intro p i
    simp [hb.motions, hb.approvers]
  · intro id s hs
    rw [motionStanding, hb.motions] at hs
    cases hs
  · intro p k s hs
    rw [coinStanding, hb.takecoins, Scoped.find_empty] at hs
    cases hs

/-- The votes on a motion until it is closed. -/
theorem motion_tallied {id : Nat} {s : Standing} (hb : Settled b)
    (hs : motionStanding id b = some s) (h : Run Step b tr b')
    (hopen : ∀ e ∈ tr, ¬e.2.1.action.ClosesMotion id) :
    ∃ s', motionStanding id b' = some s' ∧ Tallied (Action.motionEvent id) tr s s' ∧
      (s.Counted → (∀ e ∈ tr, e.2.1.action.motionEvent id ≠ .turndown) → s'.Counted) := by
  refine run_tallied (I := Settled) (C := fun a => ¬a.ClosesMotion id)
    (fun t c u s ht hst hno hs => ?_) (fun t c u ht hst => ht.step hst) hb hs h hopen
  obtain ⟨m, x, hm, hx, rfl⟩ := motionStanding_eq_some.mp hs
  obtain ⟨m', x', hm', hx', -, hturn⟩ := (exec_poll hst.1).turn hm hx hno
  exact ⟨_, motionStanding_eq_some.mpr ⟨m', x', hm', hx', rfl⟩, hturn⟩

/-- The committee has four members, and account 1 proposes to spend 10 tokens. -/
def board : State := { committee := some [3, 4, 5, 6] }

def tabled : State := board.next (pledgedEnv 1 1) (.propose 1 "" "" ⟨100000, coreSymbol⟩)

/-- Account 3 approves, and account 4 does not. -/
def supported : State := tabled.next (pledgedEnv 3 2) (.approve 3 0 "")

def disputed : State := supported.next (pledgedEnv 4 5) (.unapprove 4 0 "")

/-- The others approve. -/
def seconded : State := disputed.next (pledgedEnv 5 7) (.approve 5 0 "")

def carried : State := seconded.next (pledgedEnv 6 9) (.approve 6 0 "")

/-- Account 1 requests 6 tokens; account 4 does not agree, and account 3 does. -/
def asked : State := carried.next (pledgedEnv 1 403202) (.takecoin 1 0 "" ⟨60000, coreSymbol⟩)

theorem board_deployed : Deployed board := ⟨⟨rfl, rfl⟩, rfl⟩

theorem tabled_run : Run Step board
    [(board, ⟨pledgedEnv 1 1, .propose 1 "" "" ⟨100000, coreSymbol⟩, []⟩, tabled)] tabled :=
  .snoc .nil (State.next_step _ _ _ rfl (accepted_nil _))

/-- The votes up to the refusal. -/
def disputedTrace : List (State × Call × State) :=
  [(tabled, ⟨pledgedEnv 3 2, .approve 3 0 "", []⟩, supported),
    (supported, ⟨pledgedEnv 4 5, .unapprove 4 0 "", []⟩, disputed)]

theorem disputed_run : Run Step tabled disputedTrace disputed :=
  (Run.nil.snoc (State.next_step _ _ _ rfl (accepted_nil _))).snoc
    (State.next_step _ _ _ rfl (accepted_nil _))

variable {id : Nat} {memo : String} {m : MotionInfo} {x : Ballot}

/-- The approval of a motion by an approver. -/
def approveCall (id : Nat) (memo : String) (v : Env × Name) : Call := ⟨v.1, .approve v.2 id memo, []⟩

/-- An approver that has not voted can approve a motion under review. -/
theorem approve_step (memo : String) {v : Env × Name} (hb : Settled b)
    (hm : b.motions.find id = some m) (hx : b.approvers.find m.proposer id = some x) (h0 : m.section = 0)
    (hauth : v.2 ∈ v.1.auths) (hn : v.1.currentBlockNum < m.approveEndBlockNum)
    (ha : v.2 ∈ x.requested) :
    ∃ b' m', Step b (approveCall id memo v) b' ∧ Settled b' ∧
      b'.motions.find id = some m' ∧ b'.approvers.find m'.proposer id = some (x.agree v.2) ∧
      m'.approveEndBlockNum = m.approveEndBlockNum ∧
      m'.section = if (x.agree v.2).Passed then 1 else 0 := by
  have hexec : ∃ b', exec v.1 b (.approve v.2 id memo) = .ok (b', []) := by
    refine ⟨_, silent_eq_ok.mpr ⟨bind_eq_ok.mpr ⟨(), check_eq_ok.mpr hauth,
      bind_eq_ok.mpr ⟨m, bind_eq_ok.mpr ⟨m, fetch_eq_ok.mpr hm, bind_eq_ok.mpr ⟨(),
        check_eq_ok.mpr hn, rfl⟩⟩,
      bind_eq_ok.mpr ⟨(), check_eq_ok.mpr h0, bind_eq_ok.mpr ⟨x, ?_, rfl⟩⟩⟩⟩, rfl⟩⟩
    exact bind_eq_ok.mpr ⟨x, fetch_eq_ok.mpr hx, bind_eq_ok.mpr ⟨(), check_eq_ok.mpr ha, rfl⟩⟩
  obtain ⟨b', hexec⟩ := hexec
  have hstep : Step b (approveCall id memo v) b' := ⟨hexec, accepted_nil _⟩
  obtain ⟨m', x', hm', hx', hend, hturn⟩ := (exec_poll hexec).turn hm hx fun h => by
    obtain ⟨memo, h⟩ := h
    cases h
  rw [show (Action.approve v.2 id memo).motionEvent id = .agree v.2 from if_pos rfl, h0] at hturn
  generalize hsec : m'.section = k at hturn
  cases hturn
  exact ⟨b', m', hstep, hb.step hstep, hm', hx', hend, hsec⟩

/-- If enough approvers are left, their approvals pass a motion, in whatever order they come. -/
theorem passes_of_enough (votes : List (Env × Name)) :
    ∀ {b : State} {m : MotionInfo} {x : Ballot}, Settled b →
    b.motions.find id = some m → b.approvers.find m.proposer id = some x → m.section = 0 →
    (votes.map Prod.snd).Perm x.requested →
    (∀ v ∈ votes, v.2 ∈ v.1.auths ∧ v.1.currentBlockNum < m.approveEndBlockNum) →
    2 * x.size < 3 * (x.approved.length + x.requested.length) →
    ∃ tr b' m' rest, Run Step b tr b' ∧ votes.map (approveCall id memo) = labels tr ++ rest ∧
      b'.motions.find id = some m' ∧ m'.section = 1 := by
  induction votes with
  | nil =>
    intro b m x hb hm hx h0 hperm _ hmany
    -- no approver is left, so the motion has passed already
    have hcount := (hb.motions id _ (motionStanding_eq_some.mpr ⟨m, x, hm, hx, rfl⟩)).resolve_left
      fun e => by cases h0.symm.trans e
    obtain ⟨hno, -⟩ := Ballot.outcome_eq_zero.mp (hcount.symm.trans h0)
    rw [← hperm.length_eq, List.map_nil, List.length_nil, Nat.add_zero] at hmany
    exact absurd ((Ballot.passed_iff rfl).mpr hmany) hno
  | cons v votes ih =>
    intro b m x hb hm hx h0 hperm hvotes hmany
    have ha : v.2 ∈ x.requested := hperm.subset List.mem_cons_self
    obtain ⟨hauth, hn⟩ := hvotes v List.mem_cons_self
    obtain ⟨b', m', hstep, hb', hm', hx', hend, hsec⟩ :=
      approve_step memo hb hm hx h0 hauth hn ha
    by_cases hpass : (x.agree v.2).Passed
    · rw [if_pos hpass] at hsec
      exact ⟨_, b', m', votes.map (approveCall id memo), Run.nil.snoc hstep, rfl, hm', hsec⟩
    · rw [if_neg hpass] at hsec
      have hperm' : (votes.map Prod.snd).Perm (x.agree v.2).requested :=
        (hperm.trans (List.perm_cons_erase ha)).cons_inv
      have hlen : (x.agree v.2).requested.length + 1 = x.requested.length :=
        List.length_erase_add_one ha
      have hmany' : 2 * (x.agree v.2).size <
          3 * ((x.agree v.2).approved.length + (x.agree v.2).requested.length) := by
        rw [(Ballot.grows_agree ha).size]
        simp only [Ballot.agree, List.length_append, List.length_singleton] at hlen ⊢
        omega
      have hvotes' : ∀ w ∈ votes, w.2 ∈ w.1.auths ∧ w.1.currentBlockNum < m'.approveEndBlockNum := by
        rw [hend]
        exact fun w hw => hvotes w (List.mem_cons_of_mem v hw)
      obtain ⟨tr, b'', m'', rest, hrun, hlabels, hm'', h1⟩ :=
        ih hb' hm' hx' hsec hperm' hvotes' hmany'
      refine ⟨_, b'', m'', rest, (Run.nil.snoc hstep).append hrun, ?_, hm'', h1⟩
      rw [List.map_cons, hlabels, labels_append]
      rfl

/-- **What can still pass.** A motion under review can still pass exactly if its approvals, with one
of each approver that has not voted, are more than two thirds: then these approvers pass it, in any
order and each at any block before its deadline, and else no run passes it before it is closed. The
votes that come after it has passed are not made. -/
theorem passable_iff (hb : Deployed b₀) (h₀ : Run Step b₀ tr₀ b)
    (hm : b.motions.find id = some m) (hx : b.approvers.find m.proposer id = some x)
    (h0 : m.section = 0) :
    (2 * x.size < 3 * (x.approved.length + x.requested.length) →
      ∀ (memo : String) (votes : List (Env × Name)), (votes.map Prod.snd).Perm x.requested →
        (∀ v ∈ votes, v.2 ∈ v.1.auths ∧ v.1.currentBlockNum < m.approveEndBlockNum) →
        ∃ tr b' m' rest, Run Step b tr b' ∧ votes.map (approveCall id memo) = labels tr ++ rest ∧
          b'.motions.find id = some m' ∧ m'.section = 1) ∧
    ((∃ tr b' m', Run Step b tr b' ∧ (∀ e ∈ tr, ¬e.2.1.action.ClosesMotion id) ∧
      b'.motions.find id = some m' ∧ m'.section = 1) →
      2 * x.size < 3 * (x.approved.length + x.requested.length)) := by
  have hsettled := hb.settled h₀
  refine ⟨fun hmany memo votes hperm hvotes =>
    passes_of_enough votes hsettled hm hx h0 hperm hvotes hmany, ?_⟩
  rintro ⟨tr, b', m', h, hopen, hm', h1⟩
  obtain ⟨s', hs', htally, -⟩ := motion_tallied hsettled
    (motionStanding_eq_some.mpr ⟨m, x, hm, hx, rfl⟩) h hopen
  have hsettled' := hb.settled (h₀.append h)
  have hcount := hsettled'.motions id s' hs'
  obtain ⟨m'', y, hm'', -, rfl⟩ := motionStanding_eq_some.mp hs'
  obtain rfl := Option.some.inj (hm'.symm.trans hm'')
  have hpass : y.Passed := by
    have hone := hcount.resolve_left fun e => by cases h1.symm.trans e
    by_contra hno
    rw [Standing.Counted, h1, Ballot.outcome, if_neg hno] at hone
    split at hone <;> cases hone
  have hsize : y.size = x.size := by
    rw [← Ballot.card_voters, ← Ballot.card_voters, htally.voters]
  have hagainst : x.unapproved.length ≤ y.unapproved.length := by
    rw [htally.unapproved, List.length_append]
    exact Nat.le_add_right _ _
  have hmore := (Ballot.passed_iff hsize).mp hpass
  unfold Ballot.size at hsize hmore ⊢
  omega

end Runs

/-- After one approval and one refusal, accounts 6 and 5 pass the motion, in this order. -/
theorem passable_iff_disputed : ∃ tr b' m' rest, Run Step disputed tr b' ∧
    [(pledgedEnv 6 7, 6), (pledgedEnv 5 9, 5)].map (approveCall 0 "") = labels tr ++ rest ∧
    b'.motions.find 0 = some m' ∧ m'.section = 1 := by
  have hm : disputed.motions.find 0 = some
      { title := "", content := "", quantity := ⟨100000, coreSymbol⟩, proposer := 1,
        approveEndBlockNum := 403201 } := rfl
  exact (passable_iff board_deployed (tabled_run.append disputed_run) hm rfl rfl).1 (by decide) ""
    [(pledgedEnv 6 7, 6), (pledgedEnv 5 9, 5)] (by decide) (by decide)

end Eosforce.Budget
