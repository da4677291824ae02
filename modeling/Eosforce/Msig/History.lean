import Eosforce.Msig.Run

/-!
# Proposals and their histories

What the tables hold of a proposal is what the actions since it was made say.

* `approvalTimes`, `unapprovals`, `invalidationTimes`: what a history says. `standing`: the approvals
  of a level that are left when each `unapprove` takes back the first one.
* `Register.Life`: the ballot is that of the actions since the proposal. `Register.Step.life` is its
  step lemma, `life_of_run` the run.
* `approvals_history`: the approvals of a proposal.
* `exec_history`: an executed proposal, from the actions before it.
-/

namespace Eosforce.Msig

open Fallible Keyed Lanes Runs PackedTransaction

variable {τ η : Type}

/-! ## What a history says -/

/-- When a level approves a proposal. -/
def approvalTimes (k : Key) (level : PermissionLevel) (calls : List (Call τ η)) : List Nat :=
  calls.filterMap fun c => match c.act with
    | .approve p n l _ => if (p, n) = k ∧ l = level then some c.ctx.currentTimePoint else none
    | _ => none

/-- How often a level takes back an approval of a proposal. -/
def unapprovals (k : Key) (level : PermissionLevel) (calls : List (Call τ η)) : Nat :=
  calls.countP fun c => match c.act with
    | .unapprove p n l => (p, n) = k ∧ l = level
    | _ => false

/-- The times of the approvals of a level that it has not taken back. -/
def standing (k : Key) (level : PermissionLevel) (calls : List (Call τ η)) : List Nat :=
  (approvalTimes k level calls).drop (unapprovals k level calls)

/-- When an account invalidates its approvals. -/
def invalidationTimes (account : Name) (calls : List (Call τ η)) : List Nat :=
  calls.filterMap fun c => match c.act with
    | .invalidate a => if a = account then some c.ctx.currentTimePoint else none
    | _ => none

/-- The change of the votes by an action. -/
def Call.votes (k : Key) (c : Call τ η) : List (Op PermissionLevel Vote) :=
  match c.act with
  | .approve p n level _ =>
    if (p, n) = k then [.push ⟨level, some c.ctx.currentTimePoint⟩] else []
  | .unapprove p n level => if (p, n) = k then [.pop level] else []
  | _ => []

theorem pushed_votes (k : Key) (level : PermissionLevel) (calls : List (Call τ η)) :
    pushed Vote.level level (calls.flatMap (Call.votes k)) =
      (approvalTimes k level calls).map fun t => ⟨level, some t⟩ := by
  induction calls with
  | nil => rfl
  | cons c calls ih =>
    have hcons : pushed Vote.level level ((c :: calls).flatMap (Call.votes k)) =
        pushed Vote.level level (c.votes k) ++
          pushed Vote.level level (calls.flatMap (Call.votes k)) := by
      simp [pushed]
    rw [hcons, ih]
    unfold approvalTimes Call.votes
    rw [List.filterMap_cons]
    cases hact : c.act with
    | approve p n l hash =>
      by_cases hk : (p, n) = k
      · by_cases hl : l = level
        · simp [hk, hl, pushed, lane_singleton]
        · simp [hk, hl, pushed, lane_singleton]
      · simp [hk, pushed]
    | unapprove p n l =>
      by_cases hk : (p, n) = k <;> simp [hk, pushed]
    | _ => simp [pushed]

theorem popped_votes (k : Key) (level : PermissionLevel) (calls : List (Call τ η)) :
    popped level (calls.flatMap (Call.votes k)) = unapprovals k level calls := by
  induction calls with
  | nil => rfl
  | cons c calls ih =>
    have hcons : popped level ((c :: calls).flatMap (Call.votes k)) =
        popped level (c.votes k) + popped level (calls.flatMap (Call.votes k)) := by
      simp [popped]
    rw [hcons, ih]
    unfold unapprovals Call.votes
    rw [List.countP_cons]
    cases hact : c.act with
    | approve p n l hash => by_cases hk : (p, n) = k <;> simp [hk, popped]
    | unapprove p n l =>
      by_cases hk : (p, n) = k
      · by_cases hl : l = level <;> simp [hk, hl, popped, Nat.add_comm]
      · simp [hk, popped]
    | _ => simp [popped]

/-- An action that is not about a proposal changes no votes of it. -/
theorem votes_of_key_ne {k : Key} {c : Call τ η} (hk : c.act.key ≠ some k) : c.votes k = [] := by
  unfold Call.votes
  cases hact : c.act <;> rw [hact] at hk
  case approve p n level hash => exact if_neg fun e => hk (congrArg some e)
  case unapprove p n level => exact if_neg fun e => hk (congrArg some e)

/-! ## The life of a proposal -/

variable [PackedTransaction τ η] [DecidableEq η]

/-- The ballot of a proposal, after the actions `calls` since it was made with the requested
levels. -/
structure Register.Life (k : Key) (requested : List PermissionLevel) (trx : τ)
    (calls : List (Call τ η)) (b : Ballot τ) : Prop where
  same : b.trx = trx
  timed : b.timed = true
  /-- The votes were given and taken back one after the other. -/
  served : Served Vote.level [] (calls.flatMap (Call.votes k)) b.provided
  /-- Each requested level has voted or has not. -/
  levels : (b.requested ++ b.provided.map (·.level)).Perm requested
  /-- Each approval is signed by its level, and agrees to the transaction. -/
  approved : ∀ c ∈ calls, ∀ level hash, c.act = .approve k.1 k.2 level hash →
    level ∈ c.ctx.auths ∧ ∀ h ∈ hash, PackedTransaction.sha256 trx = h
  /-- Each level takes back its own approvals. -/
  unapproved : ∀ c ∈ calls, ∀ level, c.act = .unapprove k.1 k.2 level → level ∈ c.ctx.auths

omit [DecidableEq η] in
/-- The life of a proposal goes on with an action that changes its votes by a known operation. -/
theorem Register.Life.snoc {k : Key} {requested : List PermissionLevel} {trx : τ}
    {calls : List (Call τ η)} {b b' : Ballot τ} {c : Call τ η}
    (h : Register.Life k requested trx calls b) (htrx : b'.trx = b.trx) (htimed : b'.timed = b.timed)
    (hserved : Served Vote.level [] (calls.flatMap (Call.votes k) ++ c.votes k) b'.provided)
    (hlevels : (b'.requested ++ b'.provided.map (·.level)).Perm
      (b.requested ++ b.provided.map (·.level)))
    (happ : ∀ level hash, c.act = .approve k.1 k.2 level hash →
      level ∈ c.ctx.auths ∧ ∀ h ∈ hash, PackedTransaction.sha256 trx = h)
    (hun : ∀ level, c.act = .unapprove k.1 k.2 level → level ∈ c.ctx.auths) :
    Register.Life k requested trx (calls ++ [c]) b' where
  same := htrx.trans h.same
  timed := htimed.trans h.timed
  served := by
    rw [List.flatMap_append, List.flatMap_singleton]
    exact hserved
  levels := hlevels.trans h.levels
  approved := fun c' hc' => by
    rcases List.mem_append.mp hc' with hc' | hc'
    · exact h.approved c' hc'
    · rw [List.mem_singleton.mp hc']
      exact happ
  unapproved := fun c' hc' => by
    rcases List.mem_append.mp hc' with hc' | hc'
    · exact h.unapproved c' hc'
    · rw [List.mem_singleton.mp hc']
      exact hun

/-- **Step lemma.** The life of a proposal that does not end goes on. -/
theorem Register.Step.life {r r' : Register τ} {c : Call τ η} {k : Key}
    {requested : List PermissionLevel} {trx : τ} {calls : List (Call τ η)} {b b' : Ballot τ}
    (h : Register.Step r c r') (hb : r.ballots k = some b) (hb' : r'.ballots k = some b')
    (hl : Register.Life k requested trx calls b) :
    Register.Life k requested trx (calls ++ [c]) b' := by
  obtain ⟨p, n⟩ := k
  by_cases hk : c.act.key = some (p, n)
  · obtain ⟨ctx, act, sent⟩ := c
    have hc := h.change
    cases hc with
    | propose _ _ _ hnone _ =>
      obtain ⟨rfl, rfl⟩ := Prod.mk.inj (Option.some.inj hk)
      rw [hnone] at hb
      cases hb
    | @approve p' n' level hash b₀ hauth hb₀ hhash hreq =>
      obtain ⟨rfl, rfl⟩ := Prod.mk.inj (Option.some.inj hk)
      obtain rfl := Option.some.inj (hb₀.symm.trans hb)
      rw [Register.set_self] at hb'
      obtain rfl := Option.some.inj hb'
      refine hl.snoc rfl rfl ?_ ?_ ?_ (fun _ e => by cases e)
      · have hpush := hl.served.push ⟨level, some ctx.currentTimePoint⟩
        simpa [Call.votes, Ballot.vote, hl.timed] using hpush
      · have hperm := (List.perm_cons_erase hreq).symm
        simp only [Ballot.vote, List.map_append, List.map_cons, List.map_nil]
        rw [← List.append_assoc]
        refine List.perm_append_comm.trans ?_
        rw [List.singleton_append, ← List.cons_append]
        exact hperm.append_right _
      · rintro _ _ e
        cases e
        rw [← hl.same]
        exact ⟨hauth, hhash⟩
    | @unapprove p' n' level b₀ hauth hb₀ hprov =>
      obtain ⟨rfl, rfl⟩ := Prod.mk.inj (Option.some.inj hk)
      obtain rfl := Option.some.inj (hb₀.symm.trans hb)
      rw [Register.set_self] at hb'
      obtain rfl := Option.some.inj hb'
      refine hl.snoc rfl rfl ?_ ?_ (fun _ _ e => by cases e) ?_
      · have hpop := hl.served.pop hprov
        simpa [Call.votes, Ballot.unvote] using hpop
      · simp only [Ballot.unvote]
        rw [List.append_assoc, List.singleton_append]
        exact (perm_pop hprov).symm.append_left _
      · rintro _ e
        cases e
        exact hauth
    | cancel _ _ _ =>
      obtain ⟨rfl, rfl⟩ := Prod.mk.inj (Option.some.inj hk)
      rw [Register.set_self] at hb'
      cases hb'
    | exec _ _ _ _ _ _ =>
      obtain ⟨rfl, rfl⟩ := Prod.mk.inj (Option.some.inj hk)
      rw [Register.set_self] at hb'
      cases hb'
    | invalidate _ => cases hk
  · rw [h.frame hk] at hb'
    obtain rfl := Option.some.inj (hb.symm.trans hb')
    refine hl.snoc rfl rfl ?_ (List.Perm.refl _) (fun _ _ e => ?_) (fun _ e => ?_)
    · rw [votes_of_key_ne hk, List.append_nil]
      exact hl.served
    · exact absurd (by rw [e]; rfl) hk
    · exact absurd (by rw [e]; rfl) hk

/-- A proposal that an action makes has a signed `propose`, and its life begins. -/
theorem Register.Step.born {r r' : Register τ} {c : Call τ η} {p n : Name} {b : Ballot τ}
    (h : Register.Step r c r') (h0 : r.ballots (p, n) = none) (hb : r'.ballots (p, n) = some b) :
    ∃ requested trx, c.act = .propose p n requested trx ∧
      (∃ level ∈ c.ctx.auths, level.actor = p) ∧
      Register.Life (p, n) requested trx ([] : List (Call τ η)) b := by
  by_cases hk : c.act.key = some (p, n)
  · obtain ⟨ctx, act, sent⟩ := c
    have hc := h.change
    cases hc with
    | @propose p' n' requested trx e hauth _ _ _ _ =>
      obtain ⟨rfl, rfl⟩ := Prod.mk.inj (Option.some.inj hk)
      rw [Register.set_self] at hb
      obtain rfl := Option.some.inj hb
      refine ⟨requested, trx, rfl, hauth, rfl, rfl, .nil, ?_, by simp, by simp⟩
      simp
    | approve _ hb₀ _ _ =>
      obtain ⟨rfl, rfl⟩ := Prod.mk.inj (Option.some.inj hk)
      rw [h0] at hb₀
      cases hb₀
    | unapprove _ hb₀ _ =>
      obtain ⟨rfl, rfl⟩ := Prod.mk.inj (Option.some.inj hk)
      rw [h0] at hb₀
      cases hb₀
    | cancel _ hb₀ _ =>
      obtain ⟨rfl, rfl⟩ := Prod.mk.inj (Option.some.inj hk)
      rw [h0] at hb₀
      cases hb₀
    | exec _ hb₀ _ _ _ _ =>
      obtain ⟨rfl, rfl⟩ := Prod.mk.inj (Option.some.inj hk)
      rw [h0] at hb₀
      cases hb₀
    | invalidate _ => cases hk
  · rw [h.frame hk, h0] at hb
    cases hb

/-- Where a proposal comes from, in a run. -/
structure Origin (p n : Name) (tr : Trace τ η) (requested : List PermissionLevel) (trx : τ)
    (since : Trace τ η) : Prop where
  /-- It was made by an action that its proposer signed, which is followed by `since`. -/
  made : ∃ before e, tr = before ++ e :: since ∧ e.2.1.act = .propose p n requested trx ∧
    ∃ level ∈ e.2.1.ctx.auths, level.actor = p
  /-- It has been there since. -/
  kept : ∀ e ∈ since, e.2.2.proposals.find p n = some trx

/-- **Run lemma.** A proposal that is there at the end of a run, and not at its start, has an origin,
and its ballot is that of the actions since. -/
theorem life_of_run {s t : State τ} {tr : Trace τ η} (h : Run Step s tr t) (hs : Sound s) {p n : Name}
    (h0 : s.proposals.find p n = none) {b : Ballot τ} (hb : t.register.ballots (p, n) = some b) :
    ∃ requested trx since, Origin p n tr requested trx since ∧
      Register.Life (p, n) requested trx (labels since) b := by
  have h0' : s.register.ballots (p, n) = none := by
    have hp := hs.proposal p n
    rw [h0] at hp
    exact Option.map_eq_none_iff.mp hp.symm
  obtain ⟨before, e, since, rfl, hpre, hpost, hall⟩ :=
    h.entered (P := fun s => (s.register.ballots (p, n)).isSome = true) (by simp [h0']) (by simp [hb])
  obtain ⟨hbefore, hstep, hafter⟩ := h.split_at
  obtain ⟨hsound, hstep⟩ := hstep.register (run_sound hbefore hs)
  obtain ⟨b₁, hb₁⟩ := Option.isSome_iff_exists.mp hpost
  obtain ⟨requested, trx, hact, hauth, hlife⟩ :=
    hstep.born (Option.not_isSome_iff_eq_none.mp hpre) hb₁
  -- from here on the proposal stays, so its life goes on step by step
  have hkey : Sound t ∧ (∃ b, t.register.ballots (p, n) = some b ∧
      Register.Life (p, n) requested trx (labels since) b) ∧
      ∀ e ∈ since, e.2.2.proposals.find p n = some trx := by
    clear hb h
    induction hafter with
    | nil => exact ⟨hsound, ⟨b₁, hb₁, hlife⟩, by simp⟩
    | @snoc since t u c _ hst ih =>
      obtain ⟨ht, ⟨b, hb, hl⟩, hkept⟩ := ih fun y hy => hall y (List.mem_append_left _ hy)
      obtain ⟨hu, hst⟩ := hst.register ht
      obtain ⟨b', hb'⟩ := Option.isSome_iff_exists.mp (hall (t, c, u) (by simp))
      have hl' := hst.life hb hb' hl
      refine ⟨hu, ⟨b', hb', ?_⟩, fun y hy => ?_⟩
      · rw [labels_append]
        exact hl'
      · rcases List.mem_append.mp hy with hy | hy
        · exact hkept y hy
        · rw [List.mem_singleton.mp hy, hu.proposal, hb', Option.map_some, hl'.same]
  obtain ⟨-, ⟨b', hb', hl⟩, hkept⟩ := hkey
  obtain rfl := Option.some.inj (hb'.symm.trans hb)
  exact ⟨requested, trx, since, ⟨⟨before, e, rfl, hact, hauth⟩, hkept⟩, hl⟩

/-! ## The approvals of a proposal -/

omit [DecidableEq η] in
/-- The votes of a level are its standing approvals. -/
theorem Register.Life.lane {k : Key} {requested : List PermissionLevel} {trx : τ}
    {calls : List (Call τ η)} {b : Ballot τ} (h : Register.Life k requested trx calls b)
    (level : PermissionLevel) :
    lane Vote.level level b.provided =
      (standing k level calls).map fun t => ⟨level, some t⟩ := by
  obtain ⟨hlane, -⟩ := h.served.lane level
  rw [hlane, pushed_votes, popped_votes, lane_nil, List.nil_append, ← List.map_drop]
  rfl

/-- A timed ballot is that of a row of table `approvals2`. -/
theorem Sound.timed_rows {s : State τ} (hs : Sound s) {p n : Name} {b : Ballot τ}
    (hb : s.register.ballots (p, n) = some b) (ht : b.timed = true) :
    ∃ apps, s.approvals.find p n = some apps ∧ b = apps.ballot b.trx := by
  rcases hs.rows p n with ⟨-, -, -, hb'⟩ | ⟨trx, apps, -, ha, -, hb'⟩ | ⟨trx, apps, -, -, -, hb'⟩
  · rw [hb'] at hb
    cases hb
  · rw [hb'] at hb
    obtain rfl := Option.some.inj hb
    exact ⟨apps, ha, rfl⟩
  · rw [hb'] at hb
    obtain rfl := Option.some.inj hb
    cases ht

/-- The approvals of a proposal are the standing ones of the actions since it was made: of each
level, those that it gave less as many of the first as it took back. The levels that have approved
and those that have not are together the requested ones. -/
theorem approvals_history {s t : State τ} {tr : Trace τ η} (h : Run Step s tr t) (hs : Sound s)
    {p n : Name} (h0 : s.proposals.find p n = none) {trx : τ}
    (hp : t.proposals.find p n = some trx) :
    ∃ requested since apps, Origin p n tr requested trx since ∧
      t.approvals.find p n = some apps ∧
      (∀ level, (apps.providedApprovals.filter fun a => a.level = level).map (·.time) =
        standing (p, n) level (labels since)) ∧
      ((apps.requestedApprovals ++ apps.providedApprovals).map (·.level)).Perm requested ∧
      (∀ c ∈ labels since, ∀ level hash, c.act = .approve p n level hash →
        level ∈ c.ctx.auths ∧ ∀ x ∈ hash, sha256 trx = x) ∧
      ∀ c ∈ labels since, ∀ level, c.act = .unapprove p n level → level ∈ c.ctx.auths := by
  have ht := run_sound h hs
  rw [ht.proposal, Option.map_eq_some_iff] at hp
  obtain ⟨b, hb, hbody⟩ := hp
  obtain ⟨requested, trx', since, horigin, hl⟩ := life_of_run h hs h0 hb
  obtain rfl := hl.same.symm.trans hbody
  obtain ⟨apps, ha, happs⟩ := ht.timed_rows hb hl.timed
  refine ⟨requested, since, apps, horigin, ha, fun level => ?_, ?_, hl.approved, hl.unapproved⟩
  · have hlane := hl.lane level
    rw [happs] at hlane
    unfold Lanes.lane ApprovalsInfo.ballot at hlane
    rw [List.filter_map] at hlane
    have htimes := congrArg (List.map Vote.time) hlane
    rw [List.map_map, List.map_map] at htimes
    refine List.map_injective_iff.mpr (Option.some_injective _) ?_
    rw [List.map_map]
    exact htimes
  · have hlevels := hl.levels
    rw [happs] at hlevels
    simpa [ApprovalsInfo.ballot, Function.comp_def] using hlevels

theorem approvals_history_approved :
    ∃ requested since apps, Origin 6 9 approvedTrace requested order since ∧
      approved.approvals.find 6 9 = some apps ∧
      (∀ level, (apps.providedApprovals.filter fun a => a.level = level).map (·.time) =
        standing (6, 9) level (labels since)) ∧
      ((apps.requestedApprovals ++ apps.providedApprovals).map (·.level)).Perm requested ∧
      (∀ c ∈ labels since, ∀ level hash, c.act = .approve 6 9 level hash →
        level ∈ c.ctx.auths ∧ ∀ x ∈ hash, sha256 order = x) ∧
      ∀ c ∈ labels since, ∀ level, c.act = .unapprove 6 9 level → level ∈ c.ctx.auths :=
  approvals_history approved_run sound_empty rfl rfl

/-! ## Execution -/

/-- The last time an account has invalidated, from its row at the start and the actions since. -/
def lastInvalidation (s : State τ) (account : Name) (calls : List (Call τ η)) : Option Nat :=
  (invalidationTimes account calls).getLast?.or (s.invalidations.find account)

/-- The row of an account is its last invalidation. -/
theorem invalidations_of_run {s t : State τ} {tr : Trace τ η} (h : Run Step s tr t) (hs : Sound s)
    (account : Name) : t.invalidations.find account = lastInvalidation s account (labels tr) := by
  suffices hsuf : Sound t ∧
      t.invalidations.find account = lastInvalidation s account (labels tr) from hsuf.2
  induction h with
  | nil => exact ⟨hs, rfl⟩
  | @snoc tr t u c _ hst ih =>
    obtain ⟨ht, heq⟩ := ih
    obtain ⟨hu, hst⟩ := hst.register ht
    refine ⟨hu, ?_⟩
    have hinv := congrFun hst.invalidated account
    unfold lastInvalidation invalidationTimes at heq ⊢
    rw [labels_append, List.filterMap_append]
    show u.register.invalidated account = _
    rw [hinv]
    cases hact : c.act with
    | invalidate a =>
      by_cases ha : a = account
      · simp [labels, hact, ha, Function.update]
      · simp only [labels, List.map_cons, List.map_nil, List.filterMap_cons, hact, if_neg ha,
          List.filterMap_nil, List.append_nil, Function.update_of_ne (Ne.symm ha)]
        exact heq
    | _ =>
      simp only [labels, List.map_cons, List.map_nil, List.filterMap_cons, hact,
        List.filterMap_nil, List.append_nil]
      exact heq

omit [DecidableEq η] in
/-- Of each level, the approvals count that stand and are later than its actor's invalidation. -/
theorem Register.Life.counted {k : Key} {requested : List PermissionLevel} {trx : τ}
    {calls : List (Call τ η)} {b : Ballot τ} (h : Register.Life k requested trx calls b)
    (invalidated : Name → Option Nat) (level : PermissionLevel) :
    (b.counted invalidated).count level =
      ((standing k level calls).filter fun time => ∀ i ∈ invalidated level.actor, i < time).length := by
  have hfun : ((fun l => l == level) ∘ fun v : Vote => v.level) = fun v => decide (v.level = level) :=
    funext fun v => beq_eq_decide ..
  have hlane : (b.provided.filter (Vote.stands invalidated)).filter (fun v => v.level = level) =
      (Lanes.lane Vote.level level b.provided).filter (Vote.stands invalidated) := by
    unfold Lanes.lane
    rw [List.filter_filter, List.filter_filter]
    exact List.filter_congr fun v _ => Bool.and_comm _ _
  unfold Ballot.counted
  rw [List.count_eq_countP, List.countP_map, hfun, List.countP_eq_length_filter, hlane, h.lane,
    List.filter_map, List.length_map]
  refine congrArg List.length (List.filter_congr fun time _ => ?_)
  show Vote.stands invalidated ⟨level, some time⟩ = _
  unfold Vote.stands
  cases invalidated level.actor <;> simp

omit [DecidableEq η] in
/-- No level counts more often than it is requested. -/
theorem Register.Life.counted_subperm {k : Key} {requested : List PermissionLevel} {trx : τ}
    {calls : List (Call τ η)} {b : Ballot τ} (h : Register.Life k requested trx calls b)
    (invalidated : Name → Option Nat) : (b.counted invalidated).Subperm requested := by
  have hsub : (b.counted invalidated).Sublist (b.provided.map (·.level)) :=
    List.filter_sublist.map _
  exact (hsub.trans (List.sublist_append_right _ _)).subperm.trans h.levels.subperm

/-- **Execution.** An executed proposal was made by an action that its proposer signed, and has not
ended since. The transaction that was proposed is sent, unexpired, and authorized by the levels whose
approvals count: those given since, in actions that the levels signed, not taken back, and later than
the last invalidation by their actors. -/
theorem exec_history {s t t' : State τ} {tr : Trace τ η} {c : Call τ η} (h : Run Step s tr t)
    (hs : Sound s) {p n executer : Name} (h0 : s.proposals.find p n = none) (hx : Step t c t')
    (hact : c.act = .exec p n executer) :
    ∃ requested since trx e counted, Origin p n tr requested trx since ∧
      (∃ level ∈ c.ctx.auths, level.actor = executer) ∧
      expiration trx = .ok e ∧ c.ctx.currentTimeSec ≤ e ∧
      c.sent = some ⟨senderId p n, executer, trx⟩ ∧
      0 < c.ctx.checkTransactionAuthorization trx counted ∧
      (∀ level, counted.count level =
        ((standing (p, n) level (labels since)).filter fun time =>
          ∀ i ∈ lastInvalidation s level.actor (labels tr), i < time).length) ∧
      counted.Subperm requested ∧
      (∀ c ∈ labels since, ∀ level hash, c.act = .approve p n level hash → level ∈ c.ctx.auths) ∧
      t'.proposals.find p n = none := by
  have ht := run_sound h hs
  obtain ⟨ht', hstep⟩ := hx.register ht
  obtain ⟨ctx, act, sent⟩ := c
  obtain rfl : act = .exec p n executer := hact
  have hinv : t.register.invalidated = fun a => lastInvalidation s a (labels tr) :=
    funext fun a => invalidations_of_run h hs a
  have hgone := ht'.proposal p n
  have hc := hstep.change
  generalize hr : t'.register = r' at hc
  cases hc with
  | @exec _ _ _ b e hauth hb he hle hcheck hsend =>
    obtain ⟨requested, trx, since, horigin, hl⟩ := life_of_run h hs h0 hb
    obtain rfl := hl.same
    rw [hinv] at hcheck
    refine ⟨requested, since, b.trx, e, _, horigin, hauth, he, hle, rfl, hcheck,
      fun level => hl.counted _ level, hl.counted_subperm _,
      fun c hc level hash hact => (hl.approved c hc level hash hact).1, ?_⟩
    rw [hgone, hr, Register.set_self, Option.map_none]

theorem exec_history_executed :
    ∃ requested since trx e counted, Origin 6 9 approvedTrace requested trx since ∧
      (∃ level ∈ executing.ctx.auths, level.actor = 8) ∧
      expiration trx = .ok e ∧ executing.ctx.currentTimeSec ≤ e ∧
      executing.sent = some ⟨senderId 6 9, 8, trx⟩ ∧
      0 < executing.ctx.checkTransactionAuthorization trx counted ∧
      (∀ level, counted.count level =
        ((standing (6, 9) level (labels since)).filter fun time =>
          ∀ i ∈ lastInvalidation ({} : State (List Nat)) level.actor (labels approvedTrace),
            i < time).length) ∧
      counted.Subperm requested ∧
      (∀ c ∈ labels since, ∀ level hash, c.act = .approve 6 9 level hash → level ∈ c.ctx.auths) ∧
      executed.proposals.find 6 9 = none :=
  exec_history approved_run sound_empty rfl executing_step rfl

/-! ## Everyone approves -/

/-- A level approves a proposal. -/
def approveCall (p n : Name) (c : Ctx τ × PermissionLevel) : Call τ η :=
  ⟨c.1, .approve p n c.2 none, none⟩

/-- The levels that are requested can vote one after the other, in any order. -/
theorem Register.vote_all (p n : Name) (cs : List (Ctx τ × PermissionLevel))
    (hauth : ∀ c ∈ cs, c.2 ∈ c.1.auths) {r : Register τ} {b : Ballot τ}
    (hb : r.ballots (p, n) = some b) (hcs : (cs.map (·.2)).Perm b.requested) :
    ∃ (rtr : List (Register τ × Call τ η × Register τ)) (r' : Register τ),
      Run Register.Step r rtr r' ∧ labels rtr = cs.map (approveCall p n) ∧
      r'.invalidated = r.invalidated ∧ ∃ b', r'.ballots (p, n) = some b' ∧ b'.trx = b.trx ∧
        b'.provided = b.provided ++
          cs.map fun c => ⟨c.2, if b.timed then some c.1.currentTimePoint else none⟩ := by
  induction cs generalizing r b with
  | nil => exact ⟨[], r, .nil, rfl, rfl, b, hb, rfl, by simp⟩
  | cons c cs ih =>
    have hmem : c.2 ∈ b.requested := hcs.subset (by simp)
    have hstep : Register.Step r (approveCall p n c : Call τ η)
        (r.set (p, n) (some (b.vote c.2 c.1.currentTimePoint))) :=
      (Register.Change.approve (hauth c (by simp)) hb (by simp) hmem).step
    have hrest : (cs.map (·.2)).Perm (b.vote c.2 c.1.currentTimePoint).requested :=
      (hcs.trans (List.perm_cons_erase hmem)).cons_inv
    obtain ⟨rtr, r', hrun, hl, hi, b', hb', htrx, hprov⟩ :=
      ih (b := b.vote c.2 c.1.currentTimePoint) (fun c' hc' => hauth c' (by simp [hc']))
        (r.set_self _ _) hrest
    refine ⟨_, r', (Run.snoc .nil hstep).append hrun, ?_, hi, b', hb', htrx, ?_⟩
    · rw [labels_append, hl]
      rfl
    · rw [hprov, Ballot.vote, List.append_assoc]
      rfl

/-- A vote stands when it is later than the invalidation by its actor, or there is none. -/
theorem Vote.stands_iff {invalidated : Name → Option Nat} {v : Vote} :
    v.stands invalidated = true ↔
      ∀ i ∈ invalidated v.level.actor, ∃ time ∈ v.time, i < time := by
  unfold Vote.stands
  rw [Option.all_eq_true]
  refine forall₂_congr fun i _ => ?_
  cases v.time <;> simp

/-- **Completeness.** The levels of a proposal that have not approved can approve it in any order,
and then anyone can execute it until it expires, if the requested levels are enough for the
transaction, and no actor has invalidated since an approval: in a row of the first version of the
contract, which has no times, no actor at all. -/
theorem exec_complete {s : State τ} (hs : Sound s) {p n executer : Name} {b : Ballot τ}
    (hb : s.ballot (p, n) = some b) (cs : List (Ctx τ × PermissionLevel))
    (hcs : (cs.map (·.2)).Perm b.requested) (hauth : ∀ c ∈ cs, c.2 ∈ c.1.auths)
    (hnew : ∀ c ∈ cs, ∀ i ∈ s.invalidations.find c.2.actor,
      b.timed = true ∧ i < c.1.currentTimePoint)
    (hold : ∀ v ∈ b.provided, ∀ i ∈ s.invalidations.find v.level.actor, ∃ time ∈ v.time, i < time)
    {ctx : Ctx τ} {e : Nat} (hexec : ∃ level ∈ ctx.auths, level.actor = executer)
    (he : expiration b.trx = .ok e) (hle : ctx.currentTimeSec ≤ e)
    (hcheck : 0 < ctx.checkTransactionAuthorization b.trx
      (b.provided.map (·.level) ++ cs.map (·.2)))
    (hsend : ctx.sendDeferred ⟨senderId p n, executer, b.trx⟩ = .ok ()) :
    ∃ (tr : Trace τ η) (t t' : State τ), Run Step s tr t ∧ labels tr = cs.map (approveCall p n) ∧
      Step t (⟨ctx, .exec p n executer, some ⟨senderId p n, executer, b.trx⟩⟩ : Call τ η) t' := by
  have hb : s.register.ballots (p, n) = some b := hb
  obtain ⟨rtr, r, hrun, hl, hi, b', hb', htrx, hprov⟩ :=
    Register.vote_all (η := η) p n cs hauth hb hcs
  obtain ⟨tr, t, hrun', ht, rfl, rfl⟩ := register_run hrun hs
  -- every vote stands, so all levels count
  have hall : ∀ v ∈ b'.provided, Vote.stands t.register.invalidated v = true := by
    intro v hv
    rw [hprov, List.mem_append] at hv
    rw [hi, Vote.stands_iff]
    rcases hv with hv | hv
    · exact hold v hv
    · obtain ⟨c, hc, rfl⟩ := List.mem_map.mp hv
      intro i hinv
      obtain ⟨htimed, hlt⟩ := hnew c hc i hinv
      exact ⟨_, if_pos htimed, hlt⟩
  have hcounted : b'.counted t.register.invalidated =
      b.provided.map (·.level) ++ cs.map (·.2) := by
    unfold Ballot.counted
    rw [List.filter_eq_self.mpr hall, hprov, List.map_append, List.map_map]
    rfl
  rw [← hcounted, ← htrx] at hcheck
  rw [← htrx] at he hsend ⊢
  have hstep := (Register.Change.exec (η := η) hexec hb' he hle hcheck hsend).step
  obtain ⟨t', hstep', -, -⟩ := hstep.tables ht
  exact ⟨tr, t, t', hrun', by rw [← hl, labels_image], hstep'⟩

/-- The proposal of account 6 in a row of the first version. -/
def oldProposed : State (List Nat) where
  proposals := (∅ : Scoped Name Name (List Nat)).put 6 9 order
  oldApprovals := (∅ : Scoped Name Name OldApprovalsInfo).put 6 9 ⟨[⟨5, 1⟩], [⟨7, 1⟩]⟩

theorem oldProposed_sound : Sound oldProposed := by
  intro p n
  unfold oldProposed
  simp only [Scoped.find_put, Scoped.find_empty]
  split
  · exact .old _ _
  · exact .absent

/-- Accounts 7 and 5 approve, and account 8 executes; in the row of the first version account 5
does. -/
theorem exec_complete_proposed :
    (∃ (tr : Trace (List Nat) (List Nat)) (t t' : State (List Nat)), Run Step proposed tr t ∧
      labels tr = [(ctxOf 7 20, ⟨7, 1⟩), (ctxOf 5 25, ⟨5, 1⟩)].map (approveCall 6 9) ∧
      Step t (⟨ctxOf 8 30, .exec 6 9 8, some ⟨senderId 6 9, 8, order⟩⟩ :
        Call (List Nat) (List Nat)) t') ∧
    ∃ (tr : Trace (List Nat) (List Nat)) (t t' : State (List Nat)), Run Step oldProposed tr t ∧
      labels tr = [(ctxOf 5 25, ⟨5, 1⟩)].map (approveCall 6 9) ∧
      Step t (⟨ctxOf 8 30, .exec 6 9 8, some ⟨senderId 6 9, 8, order⟩⟩ :
        Call (List Nat) (List Nat)) t' :=
  ⟨exec_complete (run_sound proposed_run sound_empty) (b := ⟨order, true, [⟨5, 1⟩, ⟨7, 1⟩], []⟩) rfl
      _ (by decide) (by decide) (by decide) (by simp) ⟨⟨8, 1⟩, by decide, rfl⟩ rfl
      (by decide) (by decide) rfl,
    exec_complete oldProposed_sound (b := ⟨order, false, [⟨5, 1⟩], [⟨⟨7, 1⟩, none⟩]⟩) rfl _
      (by decide) (by decide) (by decide) (by decide) ⟨⟨8, 1⟩, by decide, rfl⟩ rfl (by decide)
      (by decide) rfl⟩

end Eosforce.Msig
