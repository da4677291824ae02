import Eosforce.System.Discipline
import Eosforce.System.Exec

/-!
# Proposals to punish a producer

A proposal collects approvals over many blocks, in which the status of the bp and the schedule may
change.

* `Proposed`: what the steps since its `punishbp` say of a proposal and of each approval in it.
* `punished_by_approvals`: a bp is punished only for lacking pledge, by an unexpired proposal with
  enough approvals, each signed for this very proposal.
* `proposal_run_iff`: an unexpired proposal is for a bp that lacks pledge, and its approvals count for
  one episode only, exactly when no bp restores itself with `removepunish` under such a proposal.
-/

namespace Eosforce.System

open Fallible Keyed Runs

/-- The steps of a run of the contract. -/
abbrev Trace := List (Point × (Env × Action) × Point)

/-! ## The history of a proposal -/

/-- The proposal `p` to punish `b` was made in step `e`, and the steps `l` came since then. -/
structure Proposed (b : Name) (p : PunishBpInfo) (e : Point × (Env × Action) × Point) (l : Trace) :
    Prop where
  made : e.2.1.2 = .punishbp b p.proposaler
  pledged : ∃ pledge, e.2.1.1.blockOutPledge p.proposaler = some pledge ∧
    100 * 10000 < pledge.pledge.amount
  once : ∀ x ∈ l, ∀ y, x.2.1.2 ≠ .punishbp b y
  nodup : p.approveBp.Nodup
  signed : ∀ a ∈ p.approveBp, ∃ x ∈ l, x.2.1.2 = .approvebp b a ∧ a ∈ x.2.1.1.auths
  pending : ∀ x ∈ l, ∃ p', x.1.state.punishbps.find b = some p' ∧
    p'.effectiveBlockNum = p.effectiveBlockNum

namespace Proposed

variable {b : Name} {p : PunishBpInfo} {e x : Point × (Env × Action) × Point} {l : Trace}

/-- A step that leaves the proposal as it is. -/
theorem extend (h : Proposed b p e l) (hx : ∀ y, x.2.1.2 ≠ .punishbp b y)
    (hrow : x.1.state.punishbps.find b = some p) : Proposed b p e (l ++ [x]) := by
  refine ⟨h.made, h.pledged, fun z hz => ?_, h.nodup, fun a ha => ?_, fun z hz => ?_⟩
  · rcases List.mem_append.mp hz with hz | hz
    · exact h.once z hz
    · obtain rfl := List.mem_singleton.mp hz
      exact hx
  · obtain ⟨z, hz, hact⟩ := h.signed a ha
    exact ⟨z, List.mem_append_left _ hz, hact⟩
  · rcases List.mem_append.mp hz with hz | hz
    · exact h.pending z hz
    · obtain rfl := List.mem_singleton.mp hz
      exact ⟨p, hrow, rfl⟩

/-- A step that approves the proposal. -/
theorem approve (h : Proposed b p e l) {approver : Name} (hx : x.2.1.2 = .approvebp b approver)
    (hauth : approver ∈ x.2.1.1.auths) (hnew : approver ∉ p.approveBp)
    (hrow : x.1.state.punishbps.find b = some p) :
    Proposed b (p.approve approver) e (l ++ [x]) := by
  have hext := h.extend (x := x) (fun y => by rw [hx]; exact nofun) hrow
  refine ⟨hext.made, hext.pledged, hext.once, ?_, fun a ha => ?_, hext.pending⟩
  · exact List.nodup_append.mpr ⟨h.nodup, List.nodup_singleton _, fun a ha c hc e =>
      hnew (List.mem_singleton.mp hc ▸ e ▸ ha)⟩
  · rcases List.mem_append.mp ha with ha | ha
    · exact hext.signed a ha
    · obtain rfl := List.mem_singleton.mp ha
      exact ⟨x, List.mem_append_right _ (List.mem_singleton.mpr rfl), hx, hauth⟩

end Proposed

/-- Every proposal has its history in the trace. -/
def Recorded (tr : Trace) (s : State) : Prop :=
  ∀ b p, s.punishbps.find b = some p → ∃ l e l', tr = l ++ e :: l' ∧ Proposed b p e l'

/-- **Step lemma.** A step keeps the histories. -/
theorem Recorded.step {tr : Trace} {p q : Point} {a : Env × Action} (hI : Recorded tr p.state)
    (h : Step p a q) : Recorded (tr ++ [(p, a, q)]) q.state := by
  obtain ⟨env, act⟩ := a
  obtain ⟨-, -, fx, hx⟩ := h
  have hd := exec_discipline hx
  -- a proposal whose row is the old one keeps its history
  have hold : ∀ b r, (∀ y, act ≠ .punishbp b y) → p.state.punishbps.find b = some r →
      ∃ l e l', tr ++ [(p, (env, act), q)] = l ++ e :: l' ∧ Proposed b r e l' := fun b r ha hr => by
    obtain ⟨l, e, l', rfl, hp⟩ := hI b r hr
    exact ⟨l, e, l' ++ [(p, (env, act), q)], by simp, hp.extend ha hr⟩
  intro b r hr
  have hr' : q.state.discipline.punishbps.find b = some r := hr
  generalize q.state.discipline = d at hd hr'
  cases hd with
  | onblock hk => exact hold b r nofun ((congrArg (Table.find · b) hk.punishbps).symm.trans hr')
  | @punishbp b' proposaler pledge hauth hlack hprev hpl hlt =>
    simp only [Table.find_put] at hr'
    split at hr'
    · cases hr'
      subst_vars
      exact ⟨tr, _, [], rfl, rfl, ⟨pledge, hpl, hlt⟩, by simp, List.nodup_nil, by simp, by simp⟩
    · rename_i hne
      exact hold b r (fun y e => by cases e; exact hne rfl) hr'
  | @approved b' approver p' hauth hp' hlt hnew =>
    simp only [Table.find_put] at hr'
    split at hr'
    · cases hr'
      subst_vars
      obtain ⟨l, e, l', rfl, hp⟩ := hI _ _ hp'
      exact ⟨l, e, l' ++ [(p, (env, .approvebp b' approver), q)], by simp,
        hp.approve rfl hauth hnew hp'⟩
    · exact hold b r nofun hr'
  | punished =>
    simp only [Table.find_erase] at hr'
    split at hr'
    · cases hr'
    · exact hold b r nofun hr'
  | removebp => exact hold b r nofun hr'
  | bailpunish => exact hold b r nofun hr'
  | monitorevise => exact hold b r nofun hr'
  | removepunish => exact hold b r nofun hr'
  | bpclaim => exact hold b r nofun hr'
  | updateconfig => exact hold b r nofun hr'
  | other ha => exact hold b r (fun y e => by rw [e] at ha; cases ha) hr'

theorem Genesis.recorded {s : State} (hg : Genesis s) : Recorded [] s := by
  intro b r hr
  rw [hg.punishbps] at hr
  cases hr

/-- In a run, every proposal has its history. -/
theorem Run.recorded {s : State} {tr : Trace} {q : Point} (hg : Genesis s)
    (h : Run Step ⟨s, 0⟩ tr q) : Recorded tr q.state :=
  h.history (I := fun tr p => Recorded tr p.state) hg.recorded fun _ _ _ _ hI hs => hI.step hs

/-! ## Punishment -/

/-- The status of the bp becomes punished in the step. -/
def BecomesPunished (b : Name) (e : Point × (Env × Action) × Point) : Prop :=
  statusOf e.1.state.bpmonitor b ≠ .punished ∧ statusOf e.2.2.state.bpmonitor b = .punished

/-- What a step that punishes is: the last approval of a pending proposal. -/
structure Punishes (b : Name) (e : Point × (Env × Action) × Point) (p : PunishBpInfo)
    (approver : Name) : Prop where
  action : e.2.1.2 = .approvebp b approver
  auth : approver ∈ e.2.1.1.auths
  lack : statusOf e.1.state.bpmonitor b = .lackPledge
  row : e.1.state.punishbps.find b = some p
  unexpired : e.2.1.1.currentBlockNum < p.effectiveBlockNum
  fresh : approver ∉ p.approveBp
  enough : ∃ approvers, superApprovers e.1.state (p.approve approver).approveBp = .ok approvers ∧
    approveToPunishNumInForce e.1.state ≤ u32 approvers.length

/-- Only `approvebp` punishes. -/
theorem BecomesPunished.punishes {b : Name} {e : Point × (Env × Action) × Point}
    (hs : Step e.1 e.2.1 e.2.2) (h : BecomesPunished b e) :
    ∃ p approver, Punishes b e p approver := by
  obtain ⟨p, ⟨env, act⟩, q⟩ := e
  obtain ⟨-, -, fx, hx⟩ := hs
  obtain ⟨hno, hyes⟩ := h
  have hd := exec_discipline hx
  rcases hd.status b with e | ⟨-, -, e⟩ | ⟨⟨y, rfl⟩, -⟩ | ⟨-, e⟩
  · exact absurd (e.symm.trans hyes) hno
  · exact absurd (e.symm.trans hyes) (by decide)
  · have hyes' : statusOf q.state.discipline.bpmonitor b = .punished := hyes
    generalize q.state.discipline = d at hd hyes'
    cases hd with
    | approved => exact absurd hyes' hno
    | @punished _ _ r m approvers hauth hr hlt hnew hsup hnum hm hst =>
      exact ⟨r, y, rfl, hauth, (statusOf_of_find hm).trans hst, hr, hlt, hnew, approvers, hsup,
        hnum⟩
    | other ha => cases ha
  · exact absurd (e.symm.trans hyes) (by decide)

/-- The super bps among some approvers are the producers of the latest schedule row. -/
theorem superApprovers_eq {s : State} {l approvers : List Name} (hl : l ≠ [])
    (h : superApprovers s l = .ok approvers) :
    ∃ v sch, s.schedules.last = some (v, sch) ∧ approvers = l.filter (· ∈ sch.names) := by
  cases hlast : s.schedules.last with
  | none =>
    cases l with
    | nil => exact absurd rfl hl
    | cons a l =>
      obtain ⟨_, h0⟩ := filterM_cons_ok h
      simp only [isSuperBp, hlast, bind_eq_ok, fetch_eq_ok] at h0
      obtain ⟨_, h0, -⟩ := h0
      cases h0
  | some r =>
    obtain ⟨v, sch⟩ := r
    have hsup : ∀ a, isSuperBp s a = .ok (decide (a ∈ sch.names)) := fun a => by
      simp only [isSuperBp, hlast, fetch, ok_bind, pure, Except.pure, Except.ok.injEq]
      rw [Bool.eq_iff_iff, List.any_eq_true, decide_eq_true_eq, ScheduleInfo.names, List.mem_map]
      simp only [decide_eq_true_eq]
    refine ⟨v, sch, rfl, ?_⟩
    exact (Except.ok.inj ((filterM_ok hsup l).symm.trans h)).symm

/-- In a run, a bp becomes punished only when it lacks pledge and an unexpired proposal gets its last
approval. The proposer had pledged more than 100 EOS when it made the proposal; the approvers that are
in the latest schedule are distinct and each one signed an approval of this proposal, and there are at
least as many as the threshold in force. -/
theorem punished_by_approvals {s : State} {tr l l' : Trace} {q : Point} (hg : Genesis s)
    (h : Run Step ⟨s, 0⟩ tr q) {e : Point × (Env × Action) × Point} (htr : tr = l ++ e :: l')
    {b : Name} (hb : BecomesPunished b e) :
    statusOf e.1.state.bpmonitor b = .lackPledge ∧
    ∃ p approver l₁ e₀ l₂ v sch,
      e.1.state.punishbps.find b = some p ∧ e.2.1.1.currentBlockNum < p.effectiveBlockNum ∧
      l = l₁ ++ e₀ :: l₂ ∧ e₀.2.1.2 = .punishbp b p.proposaler ∧
      (∃ pledge, e₀.2.1.1.blockOutPledge p.proposaler = some pledge ∧
        100 * 10000 < pledge.pledge.amount) ∧
      (∀ x ∈ l₂, ∀ y, x.2.1.2 ≠ .punishbp b y) ∧
      e.1.state.schedules.last = some (v, sch) ∧
      let approvers := (p.approveBp ++ [approver]).filter (· ∈ sch.names)
      approvers.Nodup ∧
      (∀ a ∈ approvers, ∃ x ∈ l₂ ++ [e], x.2.1.2 = .approvebp b a ∧ a ∈ x.2.1.1.auths) ∧
      (e.1.state.systemconfig.find configApproveToPunishNum = none → 16 ≤ approvers.length) ∧
      ∀ c, e.1.state.systemconfig.find configApproveToPunishNum = some c →
        c.numberValue < 2 ^ 31 → c.numberValue ≤ approvers.length := by
  subst htr
  obtain ⟨hr, hs, -⟩ := h.split_at
  obtain ⟨p, approver, hp⟩ := hb.punishes hs
  obtain ⟨l₁, e₀, l₂, hl, hhist⟩ := Run.recorded hg hr b p hp.row
  -- the last approval is one more step of the history
  have hlast := hhist.approve hp.action hp.auth hp.fresh hp.row
  obtain ⟨approvers, hsup, hnum⟩ := hp.enough
  obtain ⟨v, sch, hsch, rfl⟩ := superApprovers_eq (by simp [PunishBpInfo.approve]) hsup
  have hle := hnum.trans (Nat.mod_le _ _)
  refine ⟨hp.lack, p, approver, l₁, e₀, l₂, v, sch, hp.row, hp.unexpired, hl, hhist.made,
    hhist.pledged, hhist.once, hsch, hlast.nodup.filter _,
    fun a ha => hlast.signed a (List.mem_filter.mp ha).1, fun hc => ?_, fun c hc hlt => ?_⟩
  · rw [approveToPunishNumInForce, hc] at hle
    exact hle
  · rw [approveToPunishNumInForce, hc] at hle
    exact le_of_eq_of_le (u32_of_lt (by omega)).symm hle

/-! ## Proposals and the status of the bp -/

/-- A step that is not `monitorevise`. -/
def ProposalStep (p : Point) (a : Env × Action) (q : Point) : Prop :=
  Step p a q ∧ ∀ b, a.2 ≠ .monitorevise b

/-- An unexpired proposal is for a bp that lacks pledge. -/
def PendingLacks (p : Point) : Prop :=
  ∀ b r, p.state.punishbps.find b = some r → p.height < r.effectiveBlockNum →
    statusOf p.state.bpmonitor b = .lackPledge

/-- A bp that has restored itself is punished again only after a new proposal. -/
def FreshProposals (tr : Trace) : Prop :=
  ∀ l x l₂ e l' b, tr = l ++ x :: (l₂ ++ e :: l') → x.2.1.2 = .removepunish b →
    BecomesPunished b e → ∃ z ∈ l₂, ∃ y, z.2.1.2 = .punishbp b y

/-- No bp restores itself while a proposal to punish it is unexpired. -/
def RestoresAfter (p : Point) (a : Env × Action) : Prop :=
  ∀ b, a.2 = .removepunish b → ∀ r, p.state.punishbps.find b = some r →
    r.effectiveBlockNum ≤ a.1.currentBlockNum

/-- At a block, an unexpired proposal is for a bp that lacks pledge. -/
def PendingAt (n : Nat) (d : Discipline) : Prop :=
  ∀ b r, d.punishbps.find b = some r → n < r.effectiveBlockNum →
    statusOf d.bpmonitor b = .lackPledge

namespace DisciplineChange

variable {a : Action} {d : Discipline}

/-- Every other action than `removepunish` and `monitorevise` keeps the unexpired proposals to bps
that lack pledge. -/
theorem pending (h : DisciplineChange env s a d) (hs : PendingAt env.currentBlockNum s.discipline)
    (hrem : ∀ b, a ≠ .removepunish b) (hrev : ∀ b, a ≠ .monitorevise b) :
    PendingAt env.currentBlockNum d := by
  intro b r hr hlt
  cases h with
  | onblock hk =>
    have hold := hs b r ((congrArg (Table.find · b) hk.punishbps).symm.trans hr) hlt
    rcases hk.status b with e | ⟨e, -⟩
    · exact e.trans hold
    · exact absurd (e.symm.trans hold) (by decide)
  | punishbp hauth hst hprev hpl hlt' =>
    rw [Table.find_put] at hr
    split at hr
    · subst_vars
      exact hst
    · exact hs b r hr hlt
  | approved hauth hr' hlt' hnew =>
    rw [Table.find_put] at hr
    split at hr
    · cases hr
      subst_vars
      exact hs _ _ hr' hlt'
    · exact hs b r hr hlt
  | punished hauth hr' hlt' hnew hsup hnum hm hst =>
    rw [Table.find_erase] at hr
    split at hr
    · cases hr
    · rename_i hne
      rw [statusOf_put, if_neg hne]
      exact hs b r hr hlt
  | bailpunish hm hst =>
    have hold := hs b r hr hlt
    rw [statusOf_put]
    split
    · subst_vars
      exact absurd ((statusOf_of_find hm).symm.trans hold) (by rw [hst]; decide)
    · exact hold
  | monitorevise => exact absurd rfl (hrev _)
  | removepunish => exact absurd rfl (hrem _)
  | bpclaim hk => exact (hk b).trans (hs b r hr hlt)
  | removebp | updateconfig | other => exact hs b r hr hlt

/-- `removepunish` keeps them where the proposal to its bp has expired. -/
theorem pending_removepunish {b : Name} (h : DisciplineChange env s (.removepunish b) d)
    (hs : PendingAt env.currentBlockNum s.discipline) : PendingAt env.currentBlockNum d ↔
      ∀ r, s.punishbps.find b = some r → r.effectiveBlockNum ≤ env.currentBlockNum := by
  cases h with
  | @removepunish _ m hm hst =>
    constructor
    · intro hall r hr
      by_contra hlt
      have hlack := hall b r hr (not_le.mp hlt)
      rw [statusOf_put, if_pos rfl] at hlack
      cases hlack
    · intro hre b' r hr hlt
      rw [statusOf_put]
      split
      · subst_vars
        exact absurd (hre r hr) (not_le.mpr hlt)
      · exact hs b' r hr hlt
  | other ha => cases ha

end DisciplineChange

/-- **Step lemma.** A step keeps the unexpired proposals to bps that lack pledge exactly when it is no
`removepunish` under such a proposal. -/
theorem ProposalStep.pendingLacks_iff {p q : Point} {a : Env × Action} (hI : PendingLacks p)
    (h : ProposalStep p a q) : PendingLacks q ↔ RestoresAfter p a := by
  obtain ⟨⟨hheight, hq, fx, hx⟩, hrev⟩ := h
  obtain ⟨env, act⟩ := a
  have hd := exec_discipline hx
  have hs : PendingAt env.currentBlockNum p.state.discipline := fun b r hr hlt =>
    hI b r hr (lt_of_le_of_lt hheight hlt)
  have hpend : PendingLacks q ↔ PendingAt env.currentBlockNum q.state.discipline := by
    unfold PendingLacks
    rw [hq]
    rfl
  rw [hpend]
  by_cases hrem : ∃ b, act = .removepunish b
  · obtain ⟨b, rfl⟩ := hrem
    rw [hd.pending_removepunish hs]
    exact ⟨fun hr b' e => by cases e; exact hr, fun hr => hr b rfl⟩
  · have hno : ∀ b, act ≠ .removepunish b := fun b e => hrem ⟨b, e⟩
    exact iff_of_true (hd.pending hs hno hrev) fun b e => absurd e (hno b)

/-- Without a new proposal, the one of a bp keeps its expiry. -/
theorem expiry_kept {p q : Point} {a : Env × Action} (h : Step p a q) {b : Name} {n : Nat}
    (ha : ∀ y, a.2 ≠ .punishbp b y)
    (hp : ∀ r, p.state.punishbps.find b = some r → r.effectiveBlockNum ≤ n) :
    ∀ r, q.state.punishbps.find b = some r → r.effectiveBlockNum ≤ n := by
  obtain ⟨-, -, fx, hx⟩ := h
  have hd := exec_discipline hx
  intro r hr
  have hr' : q.state.discipline.punishbps.find b = some r := hr
  generalize q.state.discipline = d at hd hr'
  obtain ⟨env, act⟩ := a
  cases hd with
  | onblock hk => exact hp r ((congrArg (Table.find · b) hk.punishbps).symm.trans hr')
  | punishbp =>
    rw [Table.find_put] at hr'
    split at hr'
    · subst_vars; exact absurd rfl (ha _)
    · exact hp r hr'
  | approved hauth hold hlt hnew =>
    rw [Table.find_put] at hr'
    split at hr'
    · cases hr'
      subst_vars
      have hkept := hp _ hold
      exact hkept
    · exact hp r hr'
  | punished =>
    rw [Table.find_erase] at hr'
    split at hr'
    · cases hr'
    · exact hp r hr'
  | removebp => exact hp r hr'
  | bailpunish => exact hp r hr'
  | monitorevise => exact hp r hr'
  | removepunish => exact hp r hr'
  | bpclaim => exact hp r hr'
  | updateconfig => exact hp r hr'
  | other => exact hp r hr'

/-- In a run without `monitorevise`, every unexpired proposal is for a bp that lacks pledge and no
approval counts for an episode after a restoration, exactly when no bp restores itself while a
proposal to punish it is unexpired. -/
theorem proposal_run_iff {s : State} {tr : Trace} {q : Point} (hg : Genesis s)
    (h : Run ProposalStep ⟨s, 0⟩ tr q) :
    ((∀ e ∈ tr, PendingLacks e.2.2) ∧ FreshProposals tr) ↔ ∀ e ∈ tr, RestoresAfter e.1 e.2.1 := by
  have h0 : PendingLacks ⟨s, 0⟩ := fun b r hr => by
    rw [show (Point.mk s 0).state.punishbps = ∅ from hg.punishbps] at hr; cases hr
  have hiff := h.always_iff h0 fun t a u ht hs => hs.pendingLacks_iff ht
  refine ⟨fun hall => hiff.mp hall.1, fun hre => ⟨hiff.mpr hre, ?_⟩⟩
  rintro l x l₂ e l' b rfl hx he
  by_contra hno
  obtain ⟨hr, hsx, hr'⟩ := h.split_at
  obtain ⟨hr₂, hse, -⟩ := hr'.split_at
  -- the proposal of the restored bp was expired, and no later one was made
  have hexp := hre x (by simp) b hx
  have hend : (∀ r, e.1.state.punishbps.find b = some r →
      r.effectiveBlockNum ≤ x.2.1.1.currentBlockNum) ∧ x.2.1.1.currentBlockNum ≤ e.1.height := by
    refine ((hr₂.restrict (C := fun z => ∀ y, z.2.1.2 ≠ .punishbp b y) fun z hz y hy =>
      hno ⟨z, hz, y, hy⟩).inv (I := fun t => (∀ r, t.state.punishbps.find b = some r →
        r.effectiveBlockNum ≤ x.2.1.1.currentBlockNum) ∧ x.2.1.1.currentBlockNum ≤ t.height)
      ⟨?_, hsx.1.2.1.ge⟩ ?_).1
    · exact expiry_kept hsx.1 (by rw [hx]; exact nofun) hexp
    · rintro t a u ⟨hI, hle⟩ ⟨hs, hn⟩
      exact ⟨expiry_kept hs.1 hn hI, hle.trans (hs.1.1.trans hs.1.2.1.ge)⟩
  obtain ⟨r, approver, hp⟩ := he.punishes hse.1
  have h1 := hend.1 r hp.row
  have h2 := hp.unexpired
  have h3 := hse.1.1
  omega

/-! ### A drained producer -/

theorem ProposalStep.next (p : Point) (env : Env) (a : Action) (h : p.height ≤ env.currentBlockNum)
    (hok : (exec env p.state a).isOk = true) (ha : ∀ b, a ≠ .monitorevise b) :
    ProposalStep p (env, a) (p.next env a) := ⟨Point.next_step p env a h hok, ha⟩

/-- Producer 1 makes the first block, and producer 0 all later ones. -/
def drained : Nat → Point
  | 0 => ⟨{}, 0⟩
  | n + 1 => (drained n).next (Env.block (n + 1)) (.onblock (if n = 0 then 1 else 0) 1)

/-- The steps of a run of these blocks. -/
theorem drained_run : ∃ tr, Run ProposalStep ⟨{}, 0⟩ tr (drained 12) ∧ ∀ e ∈ tr, ∃ n < 12,
    e = (drained n, (Env.block (n + 1), .onblock (if n = 0 then 1 else 0) 1), drained (n + 1)) := by
  have hok : ∀ n < 12, (exec (Env.block (n + 1)) (drained n).state
      (.onblock (if n = 0 then 1 else 0) 1)).isOk = true := by decide +kernel
  have hle : ∀ n < 12, (drained n).height ≤ u32 (n + 1) := by decide +kernel
  have key : ∀ m ≤ 12, ∃ tr, Run ProposalStep ⟨{}, 0⟩ tr (drained m) ∧ ∀ e ∈ tr, ∃ n < m,
      e = (drained n, (Env.block (n + 1), .onblock (if n = 0 then 1 else 0) 1),
        drained (n + 1)) := by
    intro m
    induction m with
    | zero => exact fun _ => ⟨[], .nil, by simp⟩
    | succ m ih =>
      intro hm
      obtain ⟨tr, h, hsteps⟩ := ih (by omega)
      refine ⟨_, h.snoc (ProposalStep.next _ _ _ (hle m (by omega)) (hok m (by omega)) nofun),
        fun e he => ?_⟩
      rcases List.mem_append.mp he with he | he
      · obtain ⟨n, hn, heq⟩ := hsteps e he
        exact ⟨n, by omega, heq⟩
      · exact ⟨m, by omega, List.mem_singleton.mp he⟩
  exact key 12 (le_refl _)

theorem empty_genesis : Genesis {} := .of_rows (Table.all_empty _) (Table.all_empty _)

/-- The context of an account at a block, where account 5 has pledged 200 EOS. -/
def pledgedBlock (account block : Nat) : Env :=
  { Env.of account block with
    pledges := (∅ : Scoped Name Name Pledge.PledgeInfo).put 5 Eosforce.blockOutPledge
      ⟨⟨2000000, coreSymbol⟩, Asset.zero⟩ }

/-- One approval punishes. -/
def lowThreshold : Point :=
  (drained 12).next (Env.of systemAccount 12) (.updateconfig configApproveToPunishNum 1 "")

/-- Account 5 proposes to punish producer 1. -/
def proposedPunish : Point := lowThreshold.next (pledgedBlock 5 13) (.punishbp 1 5)

/-- Producer 1 restores itself. -/
def restored : Point := proposedPunish.next (Env.of 1 14) (.removepunish 1)

/-- Producer 0 approves the proposal. -/
def punished : Point := proposedPunish.next (Env.of 0 14) (.approvebp 1 0)

/-- What the evaluation of these points gives. -/
theorem drained_eval :
    ((drained 12).height ≤ (Env.of systemAccount 12).currentBlockNum ∧
      (exec (Env.of systemAccount 12) (drained 12).state
        (.updateconfig configApproveToPunishNum 1 "")).isOk = true) ∧
    (lowThreshold.height ≤ (pledgedBlock 5 13).currentBlockNum ∧
      (exec (pledgedBlock 5 13) lowThreshold.state (.punishbp 1 5)).isOk = true) ∧
    (proposedPunish.height ≤ (Env.of 1 14).currentBlockNum ∧
      (exec (Env.of 1 14) proposedPunish.state (.removepunish 1)).isOk = true) ∧
    (exec (Env.of 0 14) proposedPunish.state (.approvebp 1 0)).isOk = true ∧
    proposedPunish.state.systemconfig.find configApproveToPunishNum = some ⟨1, ""⟩ ∧
    statusOf proposedPunish.state.bpmonitor 1 ≠ .punished ∧
    (restored.state.punishbps.find 1).map PunishBpInfo.effectiveBlockNum = some 28813 ∧
    restored.height < 28813 ∧ statusOf restored.state.bpmonitor 1 = .normal ∧
    statusOf punished.state.bpmonitor 1 = .punished := by
  decide +kernel

/-- A run of blocks, then the configuration and the proposal. -/
theorem proposedPunish_run : ∃ tr, Run ProposalStep ⟨{}, 0⟩ tr proposedPunish ∧
    ∀ e ∈ tr, RestoresAfter e.1 e.2.1 := by
  obtain ⟨tr, h, hsteps⟩ := drained_run
  obtain ⟨hlow, hpro, -⟩ := drained_eval
  have h₁ := ProposalStep.next _ _ (.updateconfig configApproveToPunishNum 1 "") hlow.1 hlow.2 nofun
  have h₂ := ProposalStep.next _ _ (.punishbp 1 5) hpro.1 hpro.2 nofun
  refine ⟨_, (h.snoc h₁).snoc h₂, fun e he => ?_⟩
  simp only [List.mem_append, List.mem_singleton] at he
  rcases he with (he | rfl) | rfl
  · obtain ⟨n, -, rfl⟩ := hsteps e he
    exact nofun
  · exact fun b e => by cases e
  · exact fun b e => by cases e

/-- The proposal is for a producer that lacks pledge. -/
theorem proposal_run_iff_proposed : ∃ tr, Run ProposalStep ⟨{}, 0⟩ tr proposedPunish ∧
    (∀ e ∈ tr, PendingLacks e.2.2) ∧ FreshProposals tr := by
  obtain ⟨tr, h, hre⟩ := proposedPunish_run
  exact ⟨tr, h, (proposal_run_iff empty_genesis h).mpr hre⟩

/-- The producer restores itself under the proposal, which stays. -/
theorem restored_under_proposal : ¬∀ (s : State) (tr : Trace) (q : Point), Genesis s →
    Run ProposalStep ⟨s, 0⟩ tr q → ∀ e ∈ tr, PendingLacks e.2.2 := by
  intro h
  obtain ⟨tr, hrun, -⟩ := proposedPunish_run
  obtain ⟨-, -, hre, -, -, -, hrow, hheight, hst, -⟩ := drained_eval
  have hstep : ProposalStep proposedPunish (Env.of 1 14, .removepunish 1) restored :=
    ProposalStep.next _ _ _ hre.1 hre.2 nofun
  have hlast : PendingLacks restored := h _ _ _ empty_genesis (hrun.snoc hstep) (_, _, restored)
    (List.mem_append_right _ (List.mem_singleton.mpr rfl))
  obtain ⟨r, hr, hn⟩ := Option.map_eq_some_iff.mp hrow
  have hlack := hlast 1 r hr (hn ▸ hheight)
  rw [hst] at hlack
  cases hlack

/-- The approval of producer 0 punishes producer 1. -/
theorem punished_by_approvals_proposed : ∃ tr : Trace, Run Step ⟨{}, 0⟩ tr proposedPunish ∧
    statusOf proposedPunish.state.bpmonitor 1 = .lackPledge ∧
    ∃ p approver l₁ e₀ l₂ v sch,
      proposedPunish.state.punishbps.find 1 = some p ∧ u32 14 < p.effectiveBlockNum ∧
      tr = l₁ ++ e₀ :: l₂ ∧ e₀.2.1.2 = .punishbp 1 p.proposaler ∧
      proposedPunish.state.schedules.last = some (v, sch) ∧
      1 ≤ ((p.approveBp ++ [approver]).filter (· ∈ sch.names)).length := by
  obtain ⟨tr, hrun, -⟩ := proposedPunish_run
  obtain ⟨-, -, hre, happ, hconf, hno, -, -, -, hyes⟩ := drained_eval
  have hrun : Run Step ⟨{}, 0⟩ tr proposedPunish := hrun.mono fun _ _ _ h => h.1
  have hstep : Step proposedPunish (Env.of 0 14, .approvebp 1 0) punished :=
    Point.next_step _ _ _ hre.1 happ
  have hb : BecomesPunished 1 (proposedPunish, (Env.of 0 14, .approvebp 1 0), punished) :=
    ⟨hno, hyes⟩
  obtain ⟨hst, p, approver, l₁, e₀, l₂, v, sch, hp, hlt, hl, hmade, -, -, hsch, -, -, -, hnum⟩ :=
    punished_by_approvals empty_genesis (hrun.snoc hstep)
      (show tr ++ [_] = tr ++ _ :: [] from rfl) hb
  exact ⟨tr, hrun, hst, p, approver, l₁, e₀, l₂, v, sch, hp, hlt, hl, hmade, hsch,
    hnum _ hconf (by decide)⟩

end Eosforce.System
