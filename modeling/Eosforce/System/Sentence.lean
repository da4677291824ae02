import Eosforce.System.Election
import Eosforce.System.Punish

/-!
# What a punished producer serves

* `Sentenced`: a bp is punished up to a block.
* `exec_sentenced`: every action but `monitorevise` keeps the sentence, and `bailpunish` too unless
  the sentence is over.
* `onblock_passes`: a block proposes no punished producer and rewards none.
* `sentence_served`: a bp that is punished stays so, up to the block that `exec_punish_bp` says.
-/

namespace Eosforce.System

open Fallible Keyed Runs

variable {env : Env} {s s' : State} {b : Name} {n : Nat}

/-- The bp is punished up to block `n`. -/
def Sentenced (t : Table Name BpMonitor) (b : Name) (n : Nat) : Prop :=
  ∃ m, t.find b = some m ∧ m.bpStatus = .punished ∧ m.endPunishBlock = n

theorem Sentenced.status {t : Table Name BpMonitor} (h : Sentenced t b n) :
    statusOf t b = .punished := by
  obtain ⟨m, hm, hst, -⟩ := h
  rw [statusOf_of_find hm, hst]

theorem Sentenced.find {t : Table Name BpMonitor} (h : Sentenced t b n) {m : BpMonitor}
    (hm : t.find b = some m) : m.bpStatus = .punished ∧ m.endPunishBlock = n := by
  obtain ⟨m', hm', hst, hend⟩ := h
  cases hm.symm.trans hm'
  exact ⟨hst, hend⟩

/-- A row that is written, if it is the one of `b`, keeps the sentence. -/
theorem Sentenced.put {t : Table Name BpMonitor} (h : Sentenced t b n) {k : Name} {m : BpMonitor}
    (hk : k = b → m.bpStatus = .punished ∧ m.endPunishBlock = n) :
    Sentenced (t.put k m) b n := by
  by_cases hkb : k = b
  · obtain ⟨hst, hend⟩ := hk hkb
    exact ⟨m, by rw [hkb, Table.find_put_self], hst, hend⟩
  · obtain ⟨m', hm', hst, hend⟩ := h
    exact ⟨m', by rw [Table.find_put_ne _ _ hkb, hm'], hst, hend⟩

/-! ## Settlements -/

theorem markLackPledge_end (m : BpMonitor) :
    (markLackPledge m).endPunishBlock = m.endPunishBlock := by
  unfold markLackPledge; split <;> rfl

theorem countRound_end (m : BpMonitor) (d : Int) (n : Nat) :
    (countRound m d n).endPunishBlock = m.endPunishBlock := by
  unfold countRound; split <;> rfl

theorem settleMonitor_end (c : Settlement) (m : BpMonitor) (amount age : Nat) (d : Int) :
    (settleMonitor c m amount age d).endPunishBlock = m.endPunishBlock :=
  (markLackPledge_end _).trans (countRound_end _ _ _)

theorem settleProducer_sentenced {c : Settlement} {acc acc' : State × Nat × List Effect}
    {p : Producer × Nat} (hs : Sentenced acc.1.bpmonitor b n)
    (h : settleProducer env c acc p = .ok acc') : Sentenced acc'.1.bpmonitor b n := by
  simp only [settleProducer, recordDrain, bind_eq_ok, pure_eq_ok] at h
  obtain ⟨t, ht, rfl⟩ := h
  have hm : t.bpmonitor = acc.1.bpmonitor := by
    simp only [ite_eq_ok, bind_eq_ok, pure_eq_ok] at ht
    rcases ht with ⟨-, _, -, rfl⟩ | ⟨-, rfl⟩ <;> rfl
  show Sentenced (t.bpmonitor.put _ _) b n
  rw [hm]
  apply hs.put
  intro hk
  obtain ⟨m, hrow, hst, hend⟩ := hs
  rw [hk, hrow, Option.getD_some]
  refine ⟨?_, (settleMonitor_end _ _ _ _ _).trans hend⟩
  rcases settleMonitor_status c m p.1.amount _ _ with e | ⟨e, -⟩
  · exact e.trans hst
  · rw [hst] at e
    cases e

theorem rewardBlock_sentenced {x : Name} {v : Nat} {ch : Bool} {fx : List Effect}
    (hs : Sentenced s.bpmonitor b n) (h : rewardBlock env s x v ch = .ok (s', fx)) :
    Sentenced s'.bpmonitor b n := by
  unfold rewardBlock at h
  split at h
  · cases h
    split <;> exact hs
  · simp only [bind_eq_ok, pure_eq_ok, Prod.exists, Prod.mk.injEq] at h
    obtain ⟨sch, -, t, age, fx', hloop, br', -, rfl, -⟩ := h
    exact foldlM_inv (P := fun acc : State × Nat × List Effect => Sentenced acc.1.bpmonitor b n) hs
      (fun _ _ _ _ hI hstep => settleProducer_sentenced hI hstep) hloop

theorem settleRound_sentenced {x : Name} {v : Nat} {fx : List Effect}
    (hs : Sentenced s.bpmonitor b n) (h : settleRound env s x v = .ok (s', fx)) :
    Sentenced s'.bpmonitor b n := by
  unfold settleRound at h
  split at h
  · refine rewardBlock_sentenced (s := { s with schedules := _ }) ?_ h
    exact hs
  · split at h
    · exact rewardBlock_sentenced hs h
    · cases h
      exact hs

/-- After the settlement of a block, nothing in it writes a monitor row. -/
theorem onblock_monitor {x : Name} {t u : State}
    (hu : rewardBps env (heartbeatImp (makeGlobalVotestate t) x env.currentTimeSec) = .ok u) :
    u.bpmonitor = t.bpmonitor :=
  (rewardBps_frame (f := State.bpmonitor) (fun _ _ _ _ _ => rfl) hu).trans
    (congrArg Discipline.bpmonitor (makeGlobalVotestate_discipline t))

theorem countBlock_monitor (s : State) (sch : Option ScheduleInfo) (x : Name) (v : Nat) :
    (countBlock s sch x v).bpmonitor = s.bpmonitor :=
  congrArg Discipline.bpmonitor (countBlock_discipline s sch x v)

theorem onblock_sentenced {x : Name} {v : Nat} {fx : List Effect} (hs : Sentenced s.bpmonitor b n)
    (h : onblock env s x v = .ok (s', fx)) : Sentenced s'.bpmonitor b n := by
  by_cases hact : env.activeProducers.length < numOfTopBps
  · obtain ⟨rfl, -⟩ := onblock_idle hact h
    exact hs
  · obtain ⟨t, ded, u, elected, ht, hu, -, rfl, -⟩ := onblock_parts (Nat.not_lt.mp hact) h
    rw [countBlock_monitor, show (recordProducer u x).bpmonitor = u.bpmonitor from rfl,
      onblock_monitor hu]
    exact settleRound_sentenced hs ht

/-! ## The other actions -/

theorem claimBlockOut_sentenced {x : Name} {amount : Asset} (hs : Sentenced s.bpmonitor b n)
    (h : claimBlockOut s x = .ok (s', amount)) : Sentenced s'.bpmonitor b n := by
  unfold claimBlockOut at h
  split at h
  · rename_i br m _ hm
    simp only [bind_eq_ok, pure_eq_ok, Prod.mk.injEq] at h
    obtain ⟨_, -, _, -, _, -, _, -, rfl, -⟩ := h
    apply hs.put
    intro hx
    subst hx
    have hrow := hs.find hm
    exact hrow
  · cases h
    exact hs

theorem bpclaim_sentenced {x : Name} (hs : Sentenced s.bpmonitor b n)
    (h : bpclaim env s x = .ok s') : Sentenced s'.bpmonitor b n := by
  obtain ⟨t, _, _, _, ht, rfl⟩ := bpclaim_writes h
  have hst : Sentenced t.bpmonitor b n := claimBlockOut_sentenced hs ht
  exact hst

/-- A row that lacks pledge is not the one of `b`. -/
theorem Sentenced.put_lackPledge {t : Table Name BpMonitor} (hs : Sentenced t b n) {k : Name}
    {m : BpMonitor} (hm : t.find k = some m) (hlack : m.bpStatus = .lackPledge) (m' : BpMonitor) :
    Sentenced (t.put k m') b n := by
  apply hs.put
  intro hk
  subst hk
  rw [(hs.find hm).1] at hlack
  cases hlack

/-- What the punishment protocol does to other bps than `b` keeps the sentence. -/
theorem DisciplineChange.sentenced {a : Action} {d : Discipline} (hd : DisciplineChange env s a d)
    (hs : Sentenced s.bpmonitor b n) (hblock : ∀ x v, a ≠ .onblock x v)
    (hclaim : ∀ x, a ≠ .bpclaim x) (hrev : ∀ x, a ≠ .monitorevise x)
    (hbail : ∀ x, a ≠ .bailpunish x) : Sentenced d.bpmonitor b n := by
  cases hd with
  | onblock => exact absurd rfl (hblock _ _)
  | bpclaim => exact absurd rfl (hclaim _)
  | monitorevise => exact absurd rfl (hrev _)
  | bailpunish => exact absurd rfl (hbail _)
  | punished _ _ _ _ _ _ hm hlack => exact hs.put_lackPledge hm hlack _
  | removepunish hm hlack => exact hs.put_lackPledge hm hlack _
  | removebp | punishbp | approved | updateconfig | other => exact hs

/-- A bail before the end of the sentence is for another bp. -/
theorem bailpunish_sentenced {x : Name} (hs : Sentenced s.bpmonitor b n)
    (hx : x = b → env.currentBlockNum ≤ n) (h : bailpunish env s x = .ok s') :
    Sentenced s'.bpmonitor b n := by
  simp only [bailpunish, bind_eq_ok, fetch_eq_ok, check_eq_ok, pure_eq_ok, exists_const] at h
  obtain ⟨_, -, m, hm, ⟨-, hend⟩, rfl⟩ := h
  apply hs.put
  intro hxb
  subst hxb
  rw [(hs.find hm).2] at hend
  exact absurd hend (not_lt.mpr (hx rfl))

/-- **Step lemma.** Every action but `monitorevise` keeps the sentence, and a `bailpunish` of the bp
too, up to the end of the sentence. -/
theorem exec_sentenced {a : Action} {fx : List Effect} (hs : Sentenced s.bpmonitor b n)
    (hrev : ∀ x, a ≠ .monitorevise x) (hblock : a = .bailpunish b → env.currentBlockNum ≤ n)
    (h : exec env s a = .ok (s', fx)) : Sentenced s'.bpmonitor b n := by
  have hd := exec_discipline h
  cases a
  case onblock => exact onblock_sentenced hs h
  case bpclaim => exact bpclaim_sentenced hs (silent_eq_ok.mp h).1
  case bailpunish x =>
    exact bailpunish_sentenced hs (fun e => hblock (e ▸ rfl)) (silent_eq_ok.mp h).1
  all_goals
    exact hd.sentenced hs (fun _ _ e => by cases e) (fun _ e => by cases e) hrev
      (fun _ e => by cases e)

/-! ## Elections and rewards -/

theorem insertBp_members {vs vs' : List (ProducerKey × Int)} {bp : ProducerKey × Int}
    (h : insertBp env vs bp = .ok vs') : ∀ v ∈ vs', v = bp ∨ v ∈ vs := by
  unfold insertBp at h
  split at h
  · cases h
    exact fun v hv => .inr hv
  · rename_i i _
    simp only [bind_eq_ok, pure_eq_ok] at h
    obtain ⟨_, -, rfl⟩ := h
    intro v hv
    rcases List.mem_append.mp (List.mem_of_mem_take hv) with hv | hv
    · exact .inr (List.mem_of_mem_take hv)
    · rcases List.mem_cons.mp hv with rfl | hv
      · exact .inl rfl
      · exact .inr (List.mem_of_mem_drop hv)

/-- An election passes over a punished producer. -/
theorem electBp_passes {vs vs' : List (ProducerKey × Int)} {p : Name × BpInfo}
    (hst : statusOf s.bpmonitor b = .punished) (hvs : ∀ v ∈ vs, v.1.producerName ≠ b)
    (h : electBp env s vs p = .ok vs') : ∀ v ∈ vs', v.1.producerName ≠ b := by
  simp only [electBp, ite_eq_ok, pure_eq_ok] at h
  rcases h with ⟨-, rfl⟩ | ⟨hpass, h⟩
  · exact hvs
  · intro v hv
    rcases insertBp_members h v hv with rfl | hv
    · rintro rfl
      rw [isProducerInPunished_eq, hst] at hpass
      simp at hpass
    · exact hvs v hv

theorem electBps_passes {fx : List Effect} (hst : statusOf s.bpmonitor b = .punished)
    (h : electBps env s = .ok fx) :
    ∀ producers ∈ proposals fx, b ∉ producers.map ProducerKey.producerName := by
  simp only [electBps, ite_eq_ok, pure_eq_ok, updateElectedBps, bind_eq_ok] at h
  rcases h with ⟨-, vs, hloop, rfl⟩ | ⟨-, rfl⟩
  · have hvs : ∀ v ∈ vs, v.1.producerName ≠ b :=
      foldlM_inv (P := fun l : List (ProducerKey × Int) => ∀ v ∈ l, v.1.producerName ≠ b)
        (by simp) (fun _ _ _ _ hI hstep => electBp_passes hst hI hstep) hloop
    intro producers hp
    obtain rfl := List.mem_singleton.mp hp
    intro hb
    obtain ⟨key, hkey, hname⟩ := List.mem_map.mp hb
    obtain ⟨v, hv, rfl⟩ := List.mem_map.mp hkey
    exact hvs v ((List.mem_insertionSort _).mp hv) hname
  · exact fun _ hp => absurd hp (by simp [proposals])

/-- The row of a bp and its reward stay as they are. -/
def Unrewarded (b : Name) (s s' : State) : Prop :=
  s'.bps.find b = s.bps.find b ∧ s'.bpsreward.find b = s.bpsreward.find b

/-- `reward_bps` passes over a punished producer. -/
theorem rewardBps_passes (hst : statusOf s.bpmonitor b = .punished)
    (h : rewardBps env s = .ok s') : Unrewarded b s s' := by
  -- no iteration writes a monitor row, so the status holds throughout
  refine (rewardBps_inv (P := fun t => statusOf t.bpmonitor b = .punished ∧ Unrewarded b s t) h
    ⟨?_, ?_⟩ (fun all acc p acc' _ _ hI hstep => ?_) fun t t' r hI hb => ?_).2
  · rw [show (makeGlobalVotestate s).bpmonitor = s.bpmonitor from
      congrArg Discipline.bpmonitor (makeGlobalVotestate_discipline s)]
    exact hst
  · unfold makeGlobalVotestate getGlobalVotestate
    split <;> exact ⟨rfl, rfl⟩
  · rcases rewardBp_spec hstep with rfl | ⟨hskip, -, -, -, rfl⟩
    · exact hI
    · obtain ⟨hpun, hbps, hrew⟩ := hI
      have hne : p.1 ≠ b := by
        rintro rfl
        rw [skipReward, isProducerInPunished_eq, hpun] at hskip
        simp at hskip
      exact ⟨hpun, (Table.find_put_ne _ _ hne).trans hbps, (Table.find_put_ne _ _ hne).trans hrew⟩
  · rcases Nat.eq_zero_or_pos r with rfl | hpos
    · cases hb
      exact hI
    · obtain ⟨a, -, -, rfl⟩ := rewardBudget_spec hpos hb
      exact hI

/-- A block proposes no punished producer and rewards none. -/
theorem onblock_passes {x : Name} {v : Nat} {fx : List Effect} (hs : Sentenced s.bpmonitor b n)
    (h : onblock env s x v = .ok (s', fx)) :
    (∀ producers ∈ proposals fx, b ∉ producers.map ProducerKey.producerName) ∧
      Unrewarded b s s' := by
  by_cases hact : env.activeProducers.length < numOfTopBps
  · obtain ⟨rfl, rfl⟩ := onblock_idle hact h
    exact ⟨by simp [proposals], rfl, rfl⟩
  obtain ⟨t, ded, u, elected, ht, hu, hel, rfl, rfl⟩ := onblock_parts (Nat.not_lt.mp hact) h
  have hst := (settleRound_sentenced hs ht).status
  refine ⟨?_, ?_⟩
  · rw [proposals_append, settleRound_proposals ht, List.nil_append]
    exact electBps_passes (onblock_monitor hu ▸ hst) hel
  · have hrew := rewardBps_passes (s := heartbeatImp (makeGlobalVotestate t) x env.currentTimeSec)
      ((congrArg (statusOf · b) (congrArg Discipline.bpmonitor
        (makeGlobalVotestate_discipline t))).trans hst) hu
    obtain ⟨br, htl, -⟩ := settleRound_ledger ht
    have hl := makeGlobalVotestate_ledger t
    have hbps : (makeGlobalVotestate t).bps = s.bps :=
      (congrArg Ledger.bps hl).trans (congrArg Ledger.bps htl)
    have hbpsreward : (makeGlobalVotestate t).bpsreward = s.bpsreward :=
      (congrArg Ledger.bpsreward hl).trans (congrArg Ledger.bpsreward htl)
    have hu : Unrewarded b s u := ⟨hrew.1.trans (congrArg (Table.find · b) hbps),
      hrew.2.trans (congrArg (Table.find · b) hbpsreward)⟩
    cases s.schedules.find v <;> exact hu

/-! ## Runs -/

/-- A step that punishes a bp does so up to the block `PUNISH_BP_LIMIT` after its own. -/
theorem BecomesPunished.sentenced {e : Point × (Env × Action) × Point}
    (hs : ProposalStep e.1 e.2.1 e.2.2) (h : BecomesPunished b e) :
    Sentenced e.2.2.state.bpmonitor b (u32 (e.2.1.1.currentBlockNum + punishBpLimit)) := by
  obtain ⟨p, ⟨env, act⟩, q⟩ := e
  obtain ⟨⟨-, -, fx, hx⟩, hrev⟩ := hs
  obtain ⟨hno, hyes⟩ := h
  have hd := exec_discipline hx
  rcases hd.status b with e | ⟨-, -, e⟩ | ⟨⟨y, rfl⟩, -⟩ | ⟨-, e⟩
  · exact absurd (e.symm.trans hyes) hno
  · exact absurd (e.symm.trans hyes) (by decide)
  · have hyes' : statusOf q.state.discipline.bpmonitor b = .punished := hyes
    show Sentenced q.state.discipline.bpmonitor b _
    generalize q.state.discipline = d at hd hyes'
    cases hd with
    | approved => exact absurd hyes' hno
    | punished => exact ⟨_, Table.find_put_self _ _ _, rfl, rfl⟩
    | other ha => cases ha
  · exact absurd (e.symm.trans hyes) (by decide)

/-- A step under a sentence: the bp is in no proposed schedule and gets no reward of a block. -/
def Serves (b : Name) (x : Point × (Env × Action) × Point) : Prop :=
  ∀ producer version, x.2.1.2 = .onblock producer version →
    (∀ fx, onblock x.2.1.1 x.1.state producer version = .ok (x.2.2.state, fx) →
      ∀ producers ∈ proposals fx, b ∉ producers.map ProducerKey.producerName) ∧
    Unrewarded b x.1.state x.2.2.state

/-- In a run without `monitorevise`, a bp that is punished at block `h` is so, with the same end, up
to block `h + PUNISH_BP_LIMIT`, and no block up to then proposes or rewards it. -/
theorem sentence_served {s : Point} {l l' : Trace} {e : Point × (Env × Action) × Point} {q : Point}
    (h : Run ProposalStep s (l ++ e :: l') q) (hb : BecomesPunished b e)
    (hlt : e.2.1.1.currentBlockNum + punishBpLimit < 2 ^ 32) :
    let last := e.2.1.1.currentBlockNum + punishBpLimit
    Sentenced e.2.2.state.bpmonitor b last ∧
      ∀ x ∈ l', x.2.1.1.currentBlockNum ≤ last →
        Sentenced x.2.2.state.bpmonitor b last ∧ Serves b x := by
  intro last
  obtain ⟨-, hse, hr⟩ := h.split_at
  have h0 := hb.sentenced hse
  rw [u32_of_lt hlt] at h0
  refine ⟨h0, fun x hx hle => ?_⟩
  -- up to the end of the sentence, the steps keep it
  have hinv := (hr.inv (I := fun t => t.height ≤ last → Sentenced t.state.bpmonitor b last)
    (fun _ => h0) ?_).2 x hx
  · obtain ⟨hpre, ⟨⟨hheight, hq, fx, hexec⟩, -⟩, hpost⟩ := hinv
    refine ⟨hpost (hq ▸ hle), fun producer version hact => ?_⟩
    have hsent := hpre (hheight.trans hle)
    rw [hact] at hexec
    exact ⟨fun fx' hx' => (onblock_passes hsent hx').1, (onblock_passes hsent hexec).2⟩
  · rintro t ⟨env, a⟩ u hI ⟨⟨hheight, hu, fx, hexec⟩, hrev⟩ hle
    have hblock : env.currentBlockNum ≤ last := hu ▸ hle
    exact exec_sentenced (hI (hheight.trans hblock)) hrev (fun _ => hblock) hexec

/-- Producer 0 makes a block after the punishment. -/
def servedBlock : Point := punished.next (Env.block 15) (.onblock 0 1)

/-- The proposal of account 5, made later. -/
def lateProposal : Point := lowThreshold.next (pledgedBlock 5 4294938000) (.punishbp 1 5)

/-- The approval of producer 0, 600 blocks later. -/
def latePunished : Point := lateProposal.next (Env.of 0 4294938600) (.approvebp 1 0)

/-- Producer 1 bails in the next block. -/
def lateBailed : Point := latePunished.next (Env.of 1 4294938601) (.bailpunish 1)

theorem sentence_eval :
    (exec (Env.of 0 14) proposedPunish.state (.approvebp 1 0)).isOk = true ∧
    (exec (Env.block 15) punished.state (.onblock 0 1)).isOk = true ∧
    statusOf proposedPunish.state.bpmonitor 1 ≠ .punished ∧
    statusOf punished.state.bpmonitor 1 = .punished := by
  decide +kernel

theorem lateSentence_eval :
    (exec (pledgedBlock 5 4294938000) lowThreshold.state (.punishbp 1 5)).isOk = true ∧
    (exec (Env.of 0 4294938600) lateProposal.state (.approvebp 1 0)).isOk = true ∧
    (exec (Env.of 1 4294938601) latePunished.state (.bailpunish 1)).isOk = true ∧
    statusOf lateProposal.state.bpmonitor 1 ≠ .punished ∧
    statusOf latePunished.state.bpmonitor 1 = .punished ∧
    statusOf lateBailed.state.bpmonitor 1 = .normal := by
  decide +kernel

/-- The sentence of producer 1, through a block of producer 0. -/
theorem sentence_served_punished : ∃ x : Point × (Env × Action) × Point,
    x.2.1.2 = .onblock 0 1 ∧ Sentenced x.2.2.state.bpmonitor 1 28814 ∧ Serves 1 x := by
  obtain ⟨tr, hrun, -⟩ := proposedPunish_run
  obtain ⟨happ, hblock, hno, hyes⟩ := sentence_eval
  have hpunish : ProposalStep proposedPunish (Env.of 0 14, .approvebp 1 0) punished :=
    ProposalStep.next _ _ _ (by decide) happ nofun
  have hserve : ProposalStep punished (Env.block 15, .onblock 0 1) servedBlock :=
    ProposalStep.next _ _ _ (by decide) hblock nofun
  have h := (hrun.snoc hpunish).snoc hserve
  rw [List.append_assoc] at h
  exact ⟨_, rfl, (sentence_served h (b := 1) ⟨hno, hyes⟩ (by decide)).2 _ (List.mem_singleton.mpr rfl)
    (by decide)⟩

/-- A sentence whose end wraps is over at once. -/
theorem sentence_wraps : ¬∀ (s : State) (l l' : Trace) (e : Point × (Env × Action) × Point)
    (q : Point) (b : Name), Genesis s → Run ProposalStep ⟨s, 0⟩ (l ++ e :: l') q →
    BecomesPunished b e → ∀ x ∈ l', x.2.1.1.currentBlockNum ≤ e.2.1.1.currentBlockNum + punishBpLimit →
    statusOf x.2.2.state.bpmonitor b = .punished := by
  intro h
  obtain ⟨tr, hrun, -⟩ := drained_run
  obtain ⟨hlow, -⟩ := drained_eval
  obtain ⟨hpro, happ, hbail, hno, hyes, hst⟩ := lateSentence_eval
  have h₁ : ProposalStep (drained 12)
      (Env.of systemAccount 12, .updateconfig configApproveToPunishNum 1 "") lowThreshold :=
    ProposalStep.next _ _ _ hlow.1 hlow.2 nofun
  have h₂ : ProposalStep lowThreshold (pledgedBlock 5 4294938000, .punishbp 1 5) lateProposal :=
    ProposalStep.next _ _ _ (by decide) hpro nofun
  have h₃ : ProposalStep lateProposal (Env.of 0 4294938600, .approvebp 1 0) latePunished :=
    ProposalStep.next _ _ _ (by decide) happ nofun
  have h₄ : ProposalStep latePunished (Env.of 1 4294938601, .bailpunish 1) lateBailed :=
    ProposalStep.next _ _ _ (by decide) hbail nofun
  have hr := (((hrun.snoc h₁).snoc h₂).snoc h₃).snoc h₄
  rw [List.append_assoc _ [_] [_]] at hr
  have hlast := h _ _ _ _ _ 1 empty_genesis hr ⟨hno, hyes⟩ _ (List.mem_singleton.mpr rfl)
    (by decide)
  rw [hst] at hlast
  cases hlast

end Eosforce.System
