import Eosforce.System.Frame

/-!
# What an action does to the discipline of the producers

* `Discipline`: the tables of the punishment protocol: the monitor rows with the status of each bp,
  the proposals, the blacklist and the configuration.
* `DisciplineChange env s a d`: from state `s`, action `a` leads to the discipline `d`: one case for
  each action that may change it, with what its success says, and one for all the rest.
* `exec_discipline`: a successful action is such a change.
-/

namespace Eosforce.System

open Fallible Keyed

variable {env : Env} {s s' : State}

/-- The tables of the punishment protocol. -/
structure Discipline where
  bpmonitor : Table Name BpMonitor
  punishbps : Table Name PunishBpInfo
  blackpro : Table Name Bool
  systemconfig : Table Name SystemConfig

def State.discipline (s : State) : Discipline :=
  ⟨s.bpmonitor, s.punishbps, s.blackpro, s.systemconfig⟩

/-! ## The status of a bp -/

/-- The status of a bp: normal without a monitor row. -/
def statusOf (t : Table Name BpMonitor) (b : Name) : BpStatus := ((t.find b).getD {}).bpStatus

theorem statusOf_of_find {t : Table Name BpMonitor} {b : Name} {m : BpMonitor}
    (h : t.find b = some m) : statusOf t b = m.bpStatus := by
  unfold statusOf; rw [h]; rfl

theorem statusOf_put (t : Table Name BpMonitor) (k b : Name) (m : BpMonitor) :
    statusOf (t.put k m) b = if k = b then m.bpStatus else statusOf t b := by
  unfold statusOf
  rw [Table.find_put]
  split <;> rfl

theorem isProducerInPunished_eq (s : State) (b : Name) :
    isProducerInPunished s b = (statusOf s.bpmonitor b == .punished) := by
  unfold isProducerInPunished statusOf
  cases s.bpmonitor.find b <;> rfl

/-- No status changes, but that of a normal bp to lacking pledge. -/
def StatusKept (t t' : Table Name BpMonitor) : Prop := ∀ b,
  statusOf t' b = statusOf t b ∨ statusOf t b = .normal ∧ statusOf t' b = .lackPledge

theorem StatusKept.refl (t : Table Name BpMonitor) : StatusKept t t := fun _ => .inl rfl

theorem StatusKept.trans {t u v : Table Name BpMonitor} (h : StatusKept t u) (h' : StatusKept u v) :
    StatusKept t v := fun b => by
  rcases h b with e | ⟨e1, e2⟩
  · rcases h' b with e' | ⟨e1', e2'⟩
    · exact .inl (e'.trans e)
    · exact .inr ⟨e ▸ e1', e2'⟩
  · rcases h' b with e' | ⟨e1', -⟩
    · exact .inr ⟨e1, e'.trans e2⟩
    · rw [e2] at e1'; cases e1'

/-! ## Settlements -/

theorem markLackPledge_status (m : BpMonitor) : (markLackPledge m).bpStatus = m.bpStatus ∨
    m.bpStatus = .normal ∧ (markLackPledge m).bpStatus = .lackPledge := by
  unfold markLackPledge
  split
  · rename_i h; exact .inr ⟨h.2, rfl⟩
  · exact .inl rfl

theorem countRound_status (m : BpMonitor) (d : Int) (n : Nat) :
    (countRound m d n).bpStatus = m.bpStatus := by
  unfold countRound; split <;> rfl

theorem settleMonitor_status (c : Settlement) (m : BpMonitor) (amount age : Nat) (d : Int) :
    (settleMonitor c m amount age d).bpStatus = m.bpStatus ∨
      m.bpStatus = .normal ∧ (settleMonitor c m amount age d).bpStatus = .lackPledge := by
  have h := markLackPledge_status (countRound
    { m with
      lastBlockNum := if c.isChangeProducers then 0 else amount
      bockAge := u64 (m.bockAge + age) } d (u32sub amount m.lastBlockNum))
  rwa [countRound_status] at h

/-- A change of monitor rows that marks bps that lack pledge, and nothing else. -/
structure DisciplineKept (d d' : Discipline) : Prop where
  status : StatusKept d.bpmonitor d'.bpmonitor
  punishbps : d'.punishbps = d.punishbps
  blackpro : d'.blackpro = d.blackpro
  systemconfig : d'.systemconfig = d.systemconfig

theorem DisciplineKept.refl (d : Discipline) : DisciplineKept d d :=
  ⟨StatusKept.refl _, rfl, rfl, rfl⟩

theorem DisciplineKept.trans {d e f : Discipline} (h : DisciplineKept d e)
    (h' : DisciplineKept e f) : DisciplineKept d f :=
  ⟨h.status.trans h'.status, h'.punishbps.trans h.punishbps, h'.blackpro.trans h.blackpro,
    h'.systemconfig.trans h.systemconfig⟩

theorem DisciplineKept.eq {d d' : Discipline} (h : DisciplineKept d d') :
    d' = { d with bpmonitor := d'.bpmonitor } := by
  obtain ⟨-, h2, h3, h4⟩ := h
  cases d; cases d'
  cases h2; cases h3; cases h4
  rfl

theorem settleProducer_discipline {c : Settlement} {acc acc' : State × Nat × List Effect}
    {p : Producer × Nat} (h : settleProducer env c acc p = .ok acc') :
    DisciplineKept acc.1.discipline acc'.1.discipline := by
  simp only [settleProducer, bind_eq_ok, pure_eq_ok] at h
  obtain ⟨t, ht, rfl⟩ := h
  have hd : t.discipline = acc.1.discipline := by
    simp only [recordDrain, ite_eq_ok, bind_eq_ok, pure_eq_ok] at ht
    rcases ht with ⟨-, _, -, rfl⟩ | ⟨-, rfl⟩ <;> rfl
  have hm : t.bpmonitor = acc.1.bpmonitor := congrArg Discipline.bpmonitor hd
  have hp : t.punishbps = acc.1.punishbps := congrArg Discipline.punishbps hd
  have hb : t.blackpro = acc.1.blackpro := congrArg Discipline.blackpro hd
  have hc : t.systemconfig = acc.1.systemconfig := congrArg Discipline.systemconfig hd
  refine ⟨fun b => ?_, hp, hb, hc⟩
  simp only [State.discipline, hm, statusOf_put]
  by_cases hb : p.1.bpname = b
  · subst hb
    rw [if_pos rfl]
    exact settleMonitor_status _ _ _ _ _
  · rw [if_neg hb]
    exact .inl rfl

theorem rewardBlock_discipline {b : Name} {v : Nat} {ch : Bool} {fx : List Effect}
    (h : rewardBlock env s b v ch = .ok (s', fx)) : DisciplineKept s.discipline s'.discipline := by
  unfold rewardBlock at h
  split at h
  · cases h
    split <;> exact DisciplineKept.refl s.discipline
  · simp only [bind_eq_ok, fetch_eq_ok, pure_eq_ok, Prod.exists, Prod.mk.injEq] at h
    obtain ⟨sch, -, t, age, fx', hloop, br', -, rfl, -⟩ := h
    exact foldlM_inv
      (P := fun acc : State × Nat × List Effect => DisciplineKept s.discipline acc.1.discipline)
      (DisciplineKept.refl s.discipline)
      (fun acc p acc' _ hI hstep => hI.trans (settleProducer_discipline hstep)) hloop

theorem settleRound_discipline {b : Name} {v : Nat} {fx : List Effect}
    (h : settleRound env s b v = .ok (s', fx)) : DisciplineKept s.discipline s'.discipline := by
  unfold settleRound at h
  split at h
  · have hk := rewardBlock_discipline h
    exact hk
  · split at h
    · exact rewardBlock_discipline h
    · cases h
      exact DisciplineKept.refl s.discipline

/-! ## The rest of `onblock` -/

theorem makeGlobalVotestate_discipline (s : State) :
    (makeGlobalVotestate s).discipline = s.discipline := by
  unfold makeGlobalVotestate getGlobalVotestate; split <;> rfl

theorem rewardBps_discipline (h : rewardBps env s = .ok s') : s'.discipline = s.discipline :=
  rewardBps_frame (fun _ _ _ _ _ => rfl) h

/-- With fewer than `NUM_OF_TOP_BPS` active producers, a block does nothing. -/
theorem onblock_idle {b : Name} {v : Nat} {fx : List Effect}
    (hact : env.activeProducers.length < numOfTopBps) (h : onblock env s b v = .ok (s', fx)) :
    s' = s ∧ fx = [] := by
  rw [onblock, if_pos hact] at h
  cases h
  exact ⟨rfl, rfl⟩

theorem onblock_parts {b : Name} {v : Nat} {fx : List Effect}
    (hact : numOfTopBps ≤ env.activeProducers.length) (h : onblock env s b v = .ok (s', fx)) :
    ∃ t ded u elected, settleRound env s b v = .ok (t, ded) ∧
      rewardBps env (heartbeatImp (makeGlobalVotestate t) b env.currentTimeSec) = .ok u ∧
      electBps env u = .ok elected ∧
      s' = countBlock (recordProducer u b) (s.schedules.find v) b v ∧ fx = ded ++ elected := by
  simp only [onblock, Nat.not_lt.mpr hact, ↓reduceIte, bind_eq_ok, pure_eq_ok, Prod.exists,
    Prod.mk.injEq] at h
  obtain ⟨t, ded, ht, u, hu, elected, hel, rfl, rfl⟩ := h
  exact ⟨t, ded, u, elected, ht, hu, hel, rfl, rfl⟩

theorem countBlock_discipline (s : State) (sch : Option ScheduleInfo) (b : Name) (v : Nat) :
    (countBlock s sch b v).discipline = s.discipline := by
  cases sch <;> rfl

/-- A block changes the monitor rows only, and marks bps that lack pledge. -/
theorem onblock_discipline {b : Name} {v : Nat} {fx : List Effect}
    (h : onblock env s b v = .ok (s', fx)) : DisciplineKept s.discipline s'.discipline := by
  by_cases hact : env.activeProducers.length < numOfTopBps
  · obtain ⟨rfl, -⟩ := onblock_idle hact h
    exact DisciplineKept.refl s'.discipline
  · obtain ⟨t, ded, u, elected, ht, hu, -, rfl, -⟩ := onblock_parts (Nat.not_lt.mp hact) h
    rw [countBlock_discipline, show (recordProducer u b).discipline = u.discipline from rfl,
      rewardBps_discipline hu]
    exact (settleRound_discipline ht).trans
      (makeGlobalVotestate_discipline t ▸ DisciplineKept.refl _)

/-! ## Changes of the discipline -/

/-- The proposal with one more approval. -/
def PunishBpInfo.approve (p : PunishBpInfo) (approver : Name) : PunishBpInfo :=
  { p with approveBp := p.approveBp ++ [approver] }

/-- The discipline that a successful action leads to. -/
inductive DisciplineChange (env : Env) (s : State) : Action → Discipline → Prop
  | onblock {b : Name} {v : Nat} {d : Discipline} : DisciplineKept s.discipline d →
    DisciplineChange env s (.onblock b v) d
  | removebp {b : Name} :
    DisciplineChange env s (.removebp b) { s.discipline with blackpro := s.blackpro.put b false }
  | punishbp {b proposaler : Name} {pledge : Pledge.PledgeInfo} :
    proposaler ∈ env.auths → statusOf s.bpmonitor b = .lackPledge →
    (∀ p, s.punishbps.find b = some p → p.effectiveBlockNum < env.currentBlockNum) →
    env.blockOutPledge proposaler = some pledge → 100 * 10000 < pledge.pledge.amount →
    DisciplineChange env s (.punishbp b proposaler)
      { s.discipline with
        punishbps := s.punishbps.put b
          { proposaler, effectiveBlockNum := u32 (env.currentBlockNum + punishBpLimit) } }
  /-- An approval that does not complete the proposal. -/
  | approved {b approver : Name} {p : PunishBpInfo} :
    approver ∈ env.auths → s.punishbps.find b = some p → env.currentBlockNum < p.effectiveBlockNum →
    approver ∉ p.approveBp →
    DisciplineChange env s (.approvebp b approver)
      { s.discipline with punishbps := s.punishbps.put b (p.approve approver) }
  /-- An approval that completes the proposal. -/
  | punished {b approver : Name} {p : PunishBpInfo} {m : BpMonitor} {approvers : List Name} :
    approver ∈ env.auths → s.punishbps.find b = some p → env.currentBlockNum < p.effectiveBlockNum →
    approver ∉ p.approveBp → superApprovers s (p.approve approver).approveBp = .ok approvers →
    approveToPunishNumInForce s ≤ u32 approvers.length →
    s.bpmonitor.find b = some m → m.bpStatus = .lackPledge →
    DisciplineChange env s (.approvebp b approver)
      { s.discipline with
        bpmonitor := s.bpmonitor.put b
          { m with
            bpStatus := .punished
            endPunishBlock := u32 (env.currentBlockNum + punishBpLimit) }
        punishbps := s.punishbps.erase b }
  | bailpunish {b : Name} {m : BpMonitor} : s.bpmonitor.find b = some m → m.bpStatus = .punished →
    DisciplineChange env s (.bailpunish b)
      { s.discipline with
        bpmonitor := s.bpmonitor.put b { m with bpStatus := .normal, endPunishBlock := 0 } }
  | monitorevise {b : Name} {bpmonitor : Table Name BpMonitor} :
    (∀ q, statusOf bpmonitor q = statusOf s.bpmonitor q ∨ statusOf bpmonitor q = .normal) →
    DisciplineChange env s (.monitorevise b) { s.discipline with bpmonitor }
  | removepunish {b : Name} {m : BpMonitor} : s.bpmonitor.find b = some m →
    m.bpStatus = .lackPledge →
    DisciplineChange env s (.removepunish b)
      { s.discipline with bpmonitor := s.bpmonitor.put b { m with bpStatus := .normal } }
  | bpclaim {b : Name} {bpmonitor : Table Name BpMonitor} :
    (∀ q, statusOf bpmonitor q = statusOf s.bpmonitor q) →
    DisciplineChange env s (.bpclaim b) { s.discipline with bpmonitor }
  | updateconfig {config : Name} {number : Nat} {string : String} :
    DisciplineChange env s (.updateconfig config number string)
      { s.discipline with systemconfig := s.systemconfig.put config ⟨number, string⟩ }
  | other {a : Action} : a.disciplines = false → DisciplineChange env s a s.discipline

/-! ## The actions of the protocol -/

theorem punishbp_discipline {b proposaler : Name} (h : punishbp env s b proposaler = .ok s') :
    DisciplineChange env s (.punishbp b proposaler) s'.discipline := by
  simp only [punishbp, requireAuth, bind_eq_ok, check_eq_ok, fetch_eq_ok, pure_eq_ok, exists_const,
    Asset.lt_eq_ok] at h
  obtain ⟨hauth, hlack, hold, pledge, hp, _, ⟨-, rfl⟩, hlt, rfl⟩ := h
  refine .punishbp hauth ?_ (fun p hf => ?_) hp (by simpa using hlt)
  · cases hm : s.bpmonitor.find b with
    | none => rw [hm] at hlack; cases hlack
    | some m =>
      rw [hm] at hlack
      rw [statusOf_of_find hm]
      exact beq_iff_eq.mp hlack
  · rw [hf] at hold
    simpa using hold

theorem superApprovers_congr {s t : State} (h : s.schedules = t.schedules) (l : List Name) :
    superApprovers s l = superApprovers t l := by
  unfold superApprovers isSuperBp
  rw [h]

/-- What `exec_punish_bp` does: nothing without enough approvals. -/
theorem execPunishBp_spec {b : Name} {fx : List Effect} (h : execPunishBp env s b = .ok (s', fx)) :
    s' = s ∨ ∃ p m approvers, s.punishbps.find b = some p ∧
      superApprovers s p.approveBp = .ok approvers ∧
      approveToPunishNumInForce s ≤ u32 approvers.length ∧
      s.bpmonitor.find b = some m ∧ m.bpStatus = .lackPledge ∧
      s' = { s with
        bpmonitor := s.bpmonitor.put b
          { m with
            bpStatus := .punished
            endPunishBlock := u32 (env.currentBlockNum + punishBpLimit) }
        punishbps := s.punishbps.erase b } := by
  simp only [execPunishBp, bind_eq_ok, fetch_eq_ok, check_eq_ok, exists_const] at h
  obtain ⟨p, hp, -, approvers, hsup, h⟩ := h
  split at h
  · cases h; exact .inl rfl
  · rename_i hnum
    simp only [bind_eq_ok, fetch_eq_ok, check_eq_ok, pure_eq_ok, exists_const, Prod.mk.injEq] at h
    obtain ⟨m, hm, hs, fx', -, rfl, -⟩ := h
    exact .inr ⟨p, m, approvers, hp, hsup, not_lt.mp hnum, hm, hs, rfl⟩

theorem approvebp_discipline {b approver : Name} {fx : List Effect}
    (h : approvebp env s b approver = .ok (s', fx)) :
    DisciplineChange env s (.approvebp b approver) s'.discipline := by
  simp only [approvebp, requireAuth, bind_eq_ok, check_eq_ok, fetch_eq_ok, exists_const] at h
  obtain ⟨hauth, _, -, -, p, hp, hlt, hnew, h⟩ := h
  have happ : DisciplineChange env s (.approvebp b approver)
      { s.discipline with punishbps := s.punishbps.put b (p.approve approver) } :=
    .approved hauth hp hlt hnew
  split at h
  · cases h; exact happ
  · rcases execPunishBp_spec h with rfl | ⟨p', m, approvers, hp', hsup, hnum, hm, hs, rfl⟩
    · exact happ
    · rw [Table.find_put_self] at hp'
      cases hp'
      have herase : (s.punishbps.put b (p.approve approver)).erase b = s.punishbps.erase b :=
        Table.ext_find fun k => by
          rw [Table.find_erase, Table.find_erase, Table.find_put]
          split <;> rfl
      have hd := DisciplineChange.punished hauth hp hlt hnew
        ((superApprovers_congr rfl _).trans hsup) hnum hm hs
      rw [← herase] at hd
      exact hd

theorem claimBlockOut_discipline {b : Name} {x : Asset} (h : claimBlockOut s b = .ok (s', x)) :
    (∀ q, statusOf s'.bpmonitor q = statusOf s.bpmonitor q) ∧
      s'.discipline = { s.discipline with bpmonitor := s'.bpmonitor } := by
  unfold claimBlockOut at h
  split at h
  · rename_i br m _ hm
    simp only [bind_eq_ok, check_eq_ok, pure_eq_ok, exists_const, Prod.mk.injEq] at h
    obtain ⟨_, -, _, -, -, _, -, rfl, -⟩ := h
    refine ⟨fun q => ?_, rfl⟩
    rw [statusOf_put]
    split
    · subst_vars
      exact (statusOf_of_find hm).symm
    · rfl
  · cases h
    exact ⟨fun _ => rfl, rfl⟩

theorem bpclaim_discipline {b : Name} (h : bpclaim env s b = .ok s') :
    DisciplineChange env s (.bpclaim b) s'.discipline := by
  obtain ⟨t, x, _, _, ht, rfl⟩ := bpclaim_writes h
  obtain ⟨hst, hd⟩ := claimBlockOut_discipline ht
  exact (show State.discipline _ = _ from hd) ▸ .bpclaim hst

theorem monitorevise_discipline {b : Name} (h : monitorevise env s b = .ok s') :
    DisciplineChange env s (.monitorevise b) s'.discipline := by
  let Revised (t : State) : Prop :=
    (∀ q, statusOf t.bpmonitor q = statusOf s.bpmonitor q ∨ statusOf t.bpmonitor q = .normal) ∧
      t.discipline = { s.discipline with bpmonitor := t.bpmonitor }
  have hone : ∀ (t : State) (k : Name) (m : BpMonitor), Revised t → Revised (reviseMonitor t k m) := by
    intro t k m ht
    refine ⟨fun q => ?_, ?_⟩
    · simp only [reviseMonitor, statusOf_put]
      split
      · exact .inr rfl
      · exact ht.1 q
    · exact congrArg (fun d : Discipline => { d with bpmonitor := (reviseMonitor t k m).bpmonitor })
        ht.2
  have hs' : Revised s' :=
    monitorevise_inv h ⟨fun _ => .inl rfl, rfl⟩ fun t k m _ ht => hone t k m ht
  exact hs'.2 ▸ .monitorevise hs'.1

/-- An action that leaves the discipline alone. -/
theorem DisciplineChange.same {a : Action} (ha : a.disciplines = false)
    (h : s'.discipline = s.discipline) : DisciplineChange env s a s'.discipline :=
  h ▸ .other ha

/-- A successful action is a change of the discipline. -/
theorem exec_discipline {a : Action} {fx : List Effect} (h : exec env s a = .ok (s', fx)) :
    DisciplineChange env s a s'.discipline := by
  have other (ha : a.disciplines = false) : s'.discipline = s.discipline :=
    exec_outsideFrame (f := State.discipline) (fun _ _ _ _ _ _ _ _ _ => rfl) (fun _ _ => rfl) ha h
  cases a <;> simp only [exec, silent_eq_ok] at h
  case onblock => exact .onblock (onblock_discipline h)
  case punishbp => exact punishbp_discipline h.1
  case approvebp => exact approvebp_discipline h
  case bpclaim => exact bpclaim_discipline h.1
  case monitorevise => exact monitorevise_discipline h.1
  case removebp =>
    simp only [removebp, bind_eq_ok, pure_eq_ok] at h
    obtain ⟨⟨_, -, rfl⟩, -⟩ := h
    exact .removebp
  case updateconfig =>
    simp only [updateconfig, bind_eq_ok, pure_eq_ok] at h
    obtain ⟨⟨_, -, rfl⟩, -⟩ := h
    exact .updateconfig
  case bailpunish =>
    simp only [bailpunish, bind_eq_ok, fetch_eq_ok, check_eq_ok, pure_eq_ok, exists_const] at h
    obtain ⟨⟨_, -, m, hm, hs, rfl⟩, -⟩ := h
    exact .bailpunish hm hs.1
  case removepunish =>
    simp only [removepunish, bind_eq_ok, fetch_eq_ok, check_eq_ok, pure_eq_ok, exists_const] at h
    obtain ⟨⟨_, -, m, hm, hs, _, -, -, rfl⟩, -⟩ := h
    exact .removepunish hm hs
  all_goals exact .same rfl (other rfl)

/-- **Inversion.** Who changes a status: a settlement marks a normal bp, a last approval punishes one
that lacks pledge, and all else leads back to normal. -/
theorem DisciplineChange.status {a : Action} {d : Discipline} (h : DisciplineChange env s a d)
    (b : Name) :
    statusOf d.bpmonitor b = statusOf s.bpmonitor b ∨
    ((∃ x v, a = .onblock x v) ∧ statusOf s.bpmonitor b = .normal ∧
      statusOf d.bpmonitor b = .lackPledge) ∨
    ((∃ y, a = .approvebp b y) ∧ statusOf s.bpmonitor b = .lackPledge ∧
      statusOf d.bpmonitor b = .punished) ∨
    ((a = .bailpunish b ∨ a = .removepunish b ∨ ∃ x, a = .monitorevise x) ∧
      statusOf d.bpmonitor b = .normal) := by
  cases h with
  | onblock hk =>
    rcases hk.status b with e | e
    · exact .inl e
    · exact .inr (.inl ⟨⟨_, _, rfl⟩, e⟩)
  | @punished b' approver p m approvers _ _ _ _ _ _ hm hst =>
    rw [statusOf_put]
    by_cases hb : b' = b
    · subst hb
      exact .inr (.inr (.inl ⟨⟨_, rfl⟩, (statusOf_of_find hm).trans hst, if_pos rfl⟩))
    · exact .inl (if_neg hb)
  | @bailpunish b' m =>
    rw [statusOf_put]
    by_cases hb : b' = b
    · exact .inr (.inr (.inr ⟨.inl (congrArg Action.bailpunish hb), if_pos hb⟩))
    · exact .inl (if_neg hb)
  | @removepunish b' m =>
    rw [statusOf_put]
    by_cases hb : b' = b
    · exact .inr (.inr (.inr ⟨.inr (.inl (congrArg Action.removepunish hb)), if_pos hb⟩))
    · exact .inl (if_neg hb)
  | monitorevise hm =>
    rcases hm b with e | e
    · exact .inl e
    · exact .inr (.inr (.inr ⟨.inr (.inr ⟨_, rfl⟩), e⟩))
  | bpclaim hk => exact .inl (hk b)
  | removebp => exact .inl rfl
  | punishbp => exact .inl rfl
  | approved => exact .inl rfl
  | updateconfig => exact .inl rfl
  | other => exact .inl rfl

end Eosforce.System
