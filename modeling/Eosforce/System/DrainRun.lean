import Eosforce.Lib.Run
import Eosforce.System.Rotation

/-!
# Drain blocks over runs of slots

A producer that made a block in every slot of its own should not be charged with drain blocks.
`cal_drain_num` keeps to this within a version. Where a new version cuts a round it does so exactly
when the cut is `Fair`: the comparison with `BP_CYCLE_BLOCK_OUT` is unsigned, so that a producer for
which one block too many is counted is charged as one that drained a block.
-/

namespace Eosforce.System

open Fallible Keyed Runs

/-! ## The invariant -/

/-- The tables of a round of version `v`: the last version with a block. -/
structure InRound (p : Rotation) (v : Nat) (r : Roster) (sch : ScheduleInfo) (br : BlockReward)
    (k : Nat) : Prop where
  row : p.state.schedules.find v = some sch
  later : ∀ w, v < w → p.state.schedules.find w = none
  reward : p.state.blockreward = some br
  version_le : v ≤ p.version
  current : v = p.version → r = p.roster ∧ k = p.next
  names : sch.names = r.names
  settled : br.lastRewardBlockNum ≤ p.height
  amounts : ∀ q, (p.state.monitor q).lastBlockNum ≤ preBlockOut sch.producers q ∧
    preBlockOut sch.producers q ≤ p.height
  round : RoundOk r br.lastStandardBp (turnsSince v br.lastRewardBlockNum p.log) k (Faithful p.log)
    (madeSince p.state sch)

/-- What holds of every rotation on a run. -/
structure RotationInv (p : Rotation) : Prop where
  version_lt : p.version < 2 ^ 32
  round : (p.state.schedules = ∅ ∧ p.state.blockreward = none ∧ p.state.bpmonitor = ∅) ∨
    ∃ v r sch br k, InRound p v r sch br k

theorem Fresh.inv {p : Rotation} (h : Fresh p) : RotationInv p :=
  ⟨h.version, .inl ⟨h.schedules, h.blockreward, h.bpmonitor⟩⟩

/-! ## Blocks -/

/-- A settlement of the round of `sch`, with the first producer that `br` keeps. -/
structure Settled (p : Rotation) (sch : ScheduleInfo) (br : BlockReward) (ch : Bool) (s : State)
    (fx : List Effect) (c : Settlement) : Prop where
  isChange : c.isChangeProducers = ch
  ifirst : c.ifirst = scheduleIndex sch.producers br.lastStandardBp
  ilast : c.ilast = scheduleIndex sch.producers p.producer
  rows : Settles c sch.producers 0 p.state s fx

/-- The block is the first of a round: the settlement's producer is its own. -/
structure Opens (p : Rotation) (n : Nat) (sch : ScheduleInfo) (s : State) (br : BlockReward) :
    Prop where
  schedules : s.schedules = p.state.schedules.put p.version sch
  reward : s.blockreward = some br
  first : br.lastStandardBp = p.producer
  settled : br.lastRewardBlockNum = n

/-- What a block does to the tables that count blocks. -/
inductive BlockStep (p : Rotation) (env : Env) (s : State) (fx : List Effect) : Prop
  /-- The first block of all. -/
  | first {br : BlockReward} (hn : p.state.schedules = ∅) (hr : p.state.blockreward = none)
    (hm : p.state.bpmonitor = ∅) (hs : s.bpmonitor = ∅)
    (ho : Opens p env.currentBlockNum (newSchedule env p.producer) s br)
    (hd : ∀ q, ¬Deducts fx q)
  /-- The first block of a new version settles the round of the last one. -/
  | change {v k : Nat} {r : Roster} {sch : ScheduleInfo} {br br' : BlockReward} {c : Settlement}
    (hI : InRound p v r sch br k) (hv : v + 1 = p.version)
    (ho : Opens p env.currentBlockNum (newSchedule env p.producer) s br')
    (hs : Settled p sch br true s fx c)
  /-- The second block of a producer settles the round. -/
  | settle {sch : ScheduleInfo} {br br' : BlockReward} {c : Settlement}
    (hI : InRound p p.version p.roster sch br p.next)
    (hmade : 0 < madeSince p.state sch p.producer)
    (ho : Opens p env.currentBlockNum (sch.count p.producer) s br')
    (hs : Settled p sch br false s fx c)
  /-- A block within the round. -/
  | within {sch : ScheduleInfo} {br : BlockReward}
    (hI : InRound p p.version p.roster sch br p.next)
    (hmade : madeSince p.state sch p.producer = 0)
    (hrow : s.schedules = p.state.schedules.put p.version (sch.count p.producer))
    (hr : s.blockreward = p.state.blockreward) (hm : s.bpmonitor = p.state.bpmonitor)
    (hd : ∀ q, ¬Deducts fx q)

/-! ### The steps keep the invariant -/

theorem Faithful.made_iff {p : Rotation} {n : Nat} {s : State} {q : Name} :
    Faithful (p.made n s).log q ↔ Faithful p.log q :=
  ⟨Faithful.tail, Faithful.cons rfl⟩

/-- A settlement leaves each row with the count of the schedule's row, or with none. -/
theorem Settled.lastBlockNum {p : Rotation} {sch : ScheduleInfo} {br : BlockReward} {ch : Bool}
    {s : State} {fx : List Effect} {c : Settlement} (h : Settled p sch br ch s fx c)
    (hle : ∀ q, (p.state.monitor q).lastBlockNum ≤ preBlockOut sch.producers q) (q : Name) :
    (s.monitor q).lastBlockNum = if ch then 0 else preBlockOut sch.producers q := by
  by_cases hq : q ∈ sch.names
  · obtain ⟨age, hrow⟩ := h.rows.rows q hq
    unfold State.monitor
    rw [hrow, Option.getD_some, settleMonitor_lastBlockNum, h.isChange]
  · have h0 := preBlockOut_of_not_mem hq
    have hm := hle q
    have hsame : s.monitor q = p.state.monitor q := by
      unfold State.monitor
      rw [h.rows.others q hq]
    rw [hsame, h0]
    split <;> omega

/-- The first block of a round. -/
theorem Opens.inRound {p : Rotation} {n : Nat} {sch : ScheduleInfo} {s : State} {br : BlockReward}
    (h : Opens p n sch s br) (hlater : ∀ w, p.version < w → p.state.schedules.find w = none)
    (hnames : sch.names = p.roster.names)
    (hm : ∀ q, preBlockOut sch.producers q =
      (s.monitor q).lastBlockNum + if q ∈ p.roster.names ∧ q = p.producer then 1 else 0)
    (hn : ∀ q, preBlockOut sch.producers q ≤ n) :
    InRound (p.made n s) p.version p.roster sch br (p.next + 1) := by
  refine ⟨?_, fun w hw => ?_, h.reward, le_refl _, fun _ => ⟨rfl, rfl⟩, hnames, le_of_eq h.settled,
    fun q => ⟨?_, hn q⟩, ?_⟩
  · exact (congrArg (Table.find · _) h.schedules).trans (Table.find_put_self _ _ _)
  · apply (congrArg (Table.find · w) h.schedules).trans
    rw [Table.find_put_ne _ _ (ne_of_lt hw)]
    exact hlater w hw
  · exact (hm q).symm ▸ Nat.le_add_right _ _
  · rw [h.first, h.settled, Rotation.made_log, turnsSince_self]
    refine RoundOk.start p.roster p.next _ fun q hq => ?_
    unfold madeSince
    rw [hm q]
    simp only [hq, true_and]
    exact Nat.add_sub_cancel_left _ _

/-- The schedule row with one more block counts it. -/
theorem preBlockOut_count {p : Rotation} {v k : Nat} {sch : ScheduleInfo} {br : BlockReward}
    (h : InRound p v p.roster sch br k) (hlt : p.height + 1 < 2 ^ 32) (q : Name) :
    preBlockOut (sch.count p.producer).producers q = preBlockOut sch.producers q +
      if q ∈ p.roster.names ∧ q = p.producer then 1 else 0 := by
  have hmem := p.roster.producer_mem p.next
  have hle := (h.amounts p.producer).2
  have hmem' : p.producer ∈ sch.names := h.names ▸ hmem
  apply (preBlockOut_addBlock hmem' (by omega)).trans
  by_cases hq : q = p.producer
  · subst hq
    rw [if_pos rfl, if_pos ⟨hmem, rfl⟩]
  · rw [if_neg hq, if_neg fun e => hq e.2, Nat.add_zero]

theorem blockStep {p : Rotation} {env : Env} {s : State} {fx : List Effect} (hp : RotationInv p)
    (hact : env.activeProducers = p.roster.names) (hheight : p.height < env.currentBlockNum)
    (h : onblock env p.state p.producer p.version = .ok (s, fx)) : BlockStep p env s fx := by
  have hlen : numOfTopBps ≤ env.activeProducers.length :=
    le_of_eq (hact ▸ p.roster.length_names).symm
  rcases hp.round with ⟨hn, hr0, hm0⟩ | ⟨v, r, sch, br, k, hI⟩
  · -- no version has a row, and no round has been settled
    obtain ⟨t, ded, ht, hd, hr⟩ := onblock_rounds hlen h
    have hsch := congrArg Rounds.schedules hr
    have hbr : s.blockreward = t.blockreward := congrArg Rounds.blockreward hr
    have hmon : s.bpmonitor = t.bpmonitor := congrArg Rounds.bpmonitor hr
    simp only [State.rounds] at hsch
    rw [hn, Table.find_empty] at hsch
    simp only [settleRound, hn, Table.find_empty, rewardBlock, hr0, pure_eq_ok, ↓reduceIte,
      Prod.mk.injEq] at ht
    obtain ⟨rfl, rfl⟩ := ht
    exact .first hn hr0 hm0 (hmon.trans hm0) ⟨by rw [hsch, hn], hbr, rfl, rfl⟩
      fun q hq => not_deducts_nil q (hd q hq)
  have hnd : sch.names.Nodup := hI.names ▸ r.nodup_names
  obtain ⟨hma, hlt⟩ := hI.amounts p.producer
  have hstep := onblock_roundStep hlen ⟨hI.row, hI.later, hI.reward, hnd⟩ hI.version_le hp.version_lt
    hma (lt_of_le_of_lt hlt (lt_trans hheight env.currentBlockNum_lt)) h
  cases hstep with
  | change hv hrow hs =>
    obtain ⟨⟨br', hbr', hfirst, hset⟩, hrows⟩ := hs
    exact .change hI hv ⟨hrow, hbr', hfirst, hset⟩ ⟨rfl, rfl, rfl, hrows⟩
  | settle hv hmade hrow hs =>
    subst hv
    obtain ⟨rfl, rfl⟩ := hI.current rfl
    obtain ⟨⟨br', hbr', hfirst, hset⟩, hrows⟩ := hs
    exact .settle hI hmade ⟨hrow, hbr', hfirst, hset⟩ ⟨rfl, rfl, rfl, hrows⟩
  | within hv hmade hrow hr hm hd =>
    subst hv
    obtain ⟨rfl, rfl⟩ := hI.current rfl
    exact .within hI hmade hrow hr hm hd

/-- A block leads from a state of the invariant to one of a round of its own version. -/
theorem BlockStep.inRound {p : Rotation} {env : Env} {s : State} {fx : List Effect}
    (h : BlockStep p env s fx) (hact : env.activeProducers = p.roster.names)
    (hheight : p.height < env.currentBlockNum) :
    ∃ sch br, InRound (p.made env.currentBlockNum s) p.version p.roster sch br (p.next + 1) := by
  have hlt := env.currentBlockNum_lt
  have htake : env.activeProducers.take numOfTopBps = p.roster.names := by
    rw [hact, List.take_of_length_le (le_of_eq p.roster.length_names)]
  have hnames : (newSchedule env p.producer).names = p.roster.names :=
    (newSchedule_names env p.producer).trans htake
  have hnew : ∀ q, preBlockOut (newSchedule env p.producer).producers q =
      if q ∈ p.roster.names ∧ q = p.producer then 1 else 0 := fun q => by
    rw [preBlockOut_newSchedule, htake]
  have hnewle : ∀ q, preBlockOut (newSchedule env p.producer).producers q ≤ env.currentBlockNum :=
    fun q => by rw [hnew]; split <;> omega
  cases h with
  | first hn hr hm hs ho hd =>
    refine ⟨_, _, ho.inRound (fun w _ => by rw [hn]; rfl) hnames (fun q => ?_)
      hnewle⟩
    have h0 : s.monitor q = {} := by unfold State.monitor; rw [hs]; rfl
    rw [hnew, h0, Nat.zero_add]
  | change hI hv ho hs =>
    refine ⟨_, _, ho.inRound (fun w hw => hI.later w (by omega)) hnames
      (fun q => ?_) hnewle⟩
    rw [hnew, hs.lastBlockNum (fun q => (hI.amounts q).1), if_pos rfl, Nat.zero_add]
  | @settle sch br br' c hI hmade ho hs =>
    refine ⟨_, _, ho.inRound hI.later ((count_names _ _).trans hI.names) (fun q => ?_) fun q => ?_⟩
    · rw [preBlockOut_count hI (by omega), hs.lastBlockNum fun q => (hI.amounts q).1]
      rfl
    · have := (hI.amounts q).2
      rw [preBlockOut_count hI (by omega)]
      split <;> omega
  | @within sch br hI hmade hrow hr hm hd =>
    have hmon : ∀ q, s.monitor q = p.state.monitor q := fun q => by unfold State.monitor; rw [hm]
    have hcount := preBlockOut_count hI (by omega)
    have hset := hI.settled
    refine ⟨sch.count p.producer, br, ?_, fun w hw => ?_, hr.trans hI.reward, le_refl _,
      fun _ => ⟨rfl, rfl⟩, (count_names _ _).trans hI.names, le_of_lt (lt_of_le_of_lt hset hheight),
      fun q => ?_, ?_⟩
    · exact (congrArg (Table.find · _) hrow).trans (Table.find_put_self _ _ _)
    · apply (congrArg (Table.find · w) hrow).trans
      rw [Table.find_put_ne _ _ (ne_of_lt hw)]
      exact hI.later w hw
    · have ha := hI.amounts q
      rw [hcount, Rotation.made_state, hmon, Rotation.made_height]
      split <;> omega
    · have hne : (some env.currentBlockNum) ≠ some br.lastRewardBlockNum := fun e => by
        have := Option.some.inj e
        omega
      rw [Rotation.made_log, turnsSince_next _ _ _ hne]
      refine (hI.round.make hmade fun q hq => ?_).imp (fun q hq => hq.tail) fun _ _ => rfl
      have ha := hI.amounts q
      unfold madeSince at hmade ⊢
      rw [hcount, Rotation.made_state, hmon]
      change _ = if q = p.producer then 1 else _
      by_cases he : q = p.producer
      · subst he
        rw [if_pos ⟨hq, rfl⟩, if_pos rfl]
        omega
      · rw [if_neg fun e => he e.2, if_neg he, Nat.add_zero]

/-- A missed slot in the version in force makes the round longer; a slot or a change before the first
block of a version leaves the last one's round as it is. -/
theorem InRound.missed {p : Rotation} {v k : Nat} {r : Roster} {sch : ScheduleInfo}
    {br : BlockReward} (h : InRound p v r sch br k) : ∃ k', InRound p.missed v r sch br k' := by
  by_cases hv : v = p.version
  · subst hv
    obtain ⟨rfl, rfl⟩ := h.current rfl
    refine ⟨p.next + 1, { h with current := fun _ => ⟨rfl, rfl⟩, round := ?_ }⟩
    rw [Rotation.missed_log, turnsSince_next _ _ _ (by simp)]
    exact h.round.miss (fun q hq => hq.tail) (Faithful.of_miss rfl)
  · refine ⟨k, { h with current := fun e => absurd e hv, round := ?_ }⟩
    rw [Rotation.missed_log, turnsSince_ne _ _ _ fun e => hv e.symm]
    exact h.round.imp (fun q hq => hq.tail) fun _ _ => rfl

theorem Turn.inv {p q : Rotation} {e : Event} (hp : RotationInv p) (h : Turn p e q) :
    RotationInv q := by
  cases h with
  | produced hact hheight h =>
    obtain ⟨sch, br, hI⟩ := (blockStep hp hact hheight h).inRound hact hheight
    exact ⟨hp.version_lt, .inr ⟨_, _, sch, br, _, hI⟩⟩
  | missed =>
    refine ⟨hp.version_lt, hp.round.imp id ?_⟩
    rintro ⟨v, r, sch, br, k, hI⟩
    obtain ⟨k', hI'⟩ := hI.missed
    exact ⟨v, r, sch, br, k', hI'⟩
  | changed hv =>
    refine ⟨hv, hp.round.imp id ?_⟩
    rintro ⟨v, r, sch, br, k, hI⟩
    have hle := hI.version_le
    exact ⟨v, r, sch, br, k, { hI with
      version_le := Nat.le_succ_of_le hle
      current := fun e => absurd e (by simp only; omega) }⟩

/-! ## Charges -/

/-- No charge has been counted against a producer that made a block in every slot of its own. -/
def Unmarked (p : Rotation) : Prop :=
  ∀ q, Faithful p.log q → ∀ m, p.state.bpmonitor.find q = some m → m.Clean

theorem Unmarked.monitor {p : Rotation} (h : Unmarked p) {q : Name} (hq : Faithful p.log q) :
    (p.state.monitor q).Clean := by
  unfold State.monitor
  cases hf : p.state.bpmonitor.find q with
  | none => exact BpMonitor.clean_new
  | some m => exact h q hq m hf

theorem Settled.charge_eq {p : Rotation} {sch : ScheduleInfo} {br : BlockReward} {ch : Bool}
    {s : State} {fx : List Effect} {c : Settlement} (h : Settled p sch br ch s fx c) (q : Name) :
    c.charge sch.producers 0 p.state q = calDrainNum ch (sch.names.idxOf q)
      (scheduleIndex sch.producers br.lastStandardBp) (scheduleIndex sch.producers p.producer)
      (p.state.monitor q).lastBlockNum (preBlockOut sch.producers q) := by
  rw [Settlement.charge, Settlement.drainNum, h.isChange, h.ifirst, h.ilast, Nat.zero_add]
  rfl

/-- A settlement that charges at most one block marks no producer that made all its blocks exactly
when it charges none of them. -/
theorem Settled.unmarked_iff {p : Rotation} {sch : ScheduleInfo} {br : BlockReward} {ch : Bool}
    {n : Nat} {s : State} {fx : List Effect} {c : Settlement} (h : Settled p sch br ch s fx c)
    (hu : Unmarked p) (hle : ∀ q ∈ sch.names, Faithful p.log q →
      c.charge sch.producers 0 p.state q ≤ 1) :
    Unmarked (p.made n s) ↔
      ∀ q ∈ sch.names, Faithful p.log q → c.charge sch.producers 0 p.state q ≤ 0 := by
  constructor
  · intro hU q hq hf
    obtain ⟨age, hrow⟩ := h.rows.rows q hq
    exact (settleMonitor_clean (hu.monitor hf) (hle q hq hf)).mp
      (hU q (Faithful.made_iff.mpr hf) _ hrow)
  · intro hc q hf m hm
    have hf := Faithful.made_iff.mp hf
    rw [Rotation.made_state] at hm
    by_cases hq : q ∈ sch.names
    · obtain ⟨age, hrow⟩ := h.rows.rows q hq
      rw [hrow] at hm
      cases hm
      exact (settleMonitor_clean (hu.monitor hf) (hle q hq hf)).mpr (hc q hq hf)
    · rw [h.rows.others q hq] at hm
      exact hu q hf m hm

/-- Within a version, no producer that made all its blocks is charged. -/
theorem Settled.charge_within {p : Rotation} {sch : ScheduleInfo} {br : BlockReward} {s : State}
    {fx : List Effect} {c : Settlement} (h : Settled p sch br false s fx c)
    (hI : InRound p p.version p.roster sch br p.next) (hmade : 0 < madeSince p.state sch p.producer)
    {q : Name} (hq : q ∈ sch.names) (hf : Faithful p.log q) :
    c.charge sch.producers 0 p.state q = 0 := by
  have hnd : sch.names.Nodup := hI.names ▸ p.roster.nodup_names
  have hmem : p.producer ∈ sch.names := hI.names ▸ p.roster.producer_mem p.next
  have hfirst : br.lastStandardBp ∈ sch.names := hI.names ▸ hI.round.mem_first
  obtain ⟨h1, harc⟩ := hI.round.settle hmade (hI.names ▸ hq) hf
  have ha := (hI.amounts q).1
  rw [h.charge_eq, scheduleIndex_eq hnd, scheduleIndex_eq hnd, if_pos hfirst, if_pos hmem]
  unfold madeSince at h1
  rw [show preBlockOut sch.producers q = (p.state.monitor q).lastBlockNum + 1 by omega]
  apply calDrainNum_of_made
  rw [← hI.names] at harc
  exact harc

theorem scheduleIndex_lt {sch : ScheduleInfo} {r : Roster} (h : sch.names = r.names) (b : Name) :
    scheduleIndex sch.producers b < 23 := by
  rw [scheduleIndex_eq (show sch.names.Nodup from h ▸ r.nodup_names)]
  split
  · rename_i hb
    exact h ▸ Roster.idxOf_lt (h ▸ hb)
  · decide

/-- Where a new version cuts the round, a producer that made all its blocks is spared exactly when
it had a slot in the round if and only if it is in the span. -/
theorem Settled.charge_cut {p : Rotation} {v k : Nat} {r : Roster} {sch : ScheduleInfo}
    {br : BlockReward} {s : State} {fx : List Effect} {c : Settlement}
    (h : Settled p sch br true s fx c) (hI : InRound p v r sch br k) {q : Name}
    (hq : q ∈ sch.names) (hf : Faithful p.log q) :
    c.charge sch.producers 0 p.state q =
      if offset sch.names br.lastStandardBp q < turnsSince v br.lastRewardBlockNum p.log ↔
        offset sch.names br.lastStandardBp q < cutSpan sch.producers br.lastStandardBp p.producer
      then 0 else 1 := by
  have hnd : sch.names.Nodup := hI.names ▸ r.nodup_names
  have hfirst : br.lastStandardBp ∈ sch.names := hI.names ▸ hI.round.mem_first
  have hi : sch.names.idxOf q < 23 := hI.names ▸ Roster.idxOf_lt (hI.names ▸ hq)
  have hl := scheduleIndex_lt hI.names p.producer
  have hfi := scheduleIndex_lt hI.names br.lastStandardBp
  have hfe : scheduleIndex sch.producers br.lastStandardBp = sch.names.idxOf br.lastStandardBp := by
    rw [scheduleIndex_eq hnd, if_pos hfirst]
  have ha := (hI.amounts q).1
  have hmade := hI.round.made_eq (hI.names ▸ hq) hf
  rw [← hI.names] at hmade
  unfold madeSince at hmade
  rw [h.charge_eq, calDrainNum_change ha (by split at hmade <;> omega)]
  refine if_congr (iff_congr ?_ ?_) rfl rfl
  · split at hmade <;> omega
  · unfold cutSpan InArc
    rw [offset_eq, ← hfe]
    generalize scheduleIndex sch.producers p.producer = l at *
    generalize scheduleIndex sch.producers br.lastStandardBp = f at *
    have h23 : numOfTopBps = 23 := rfl
    simp only [h23]
    split <;> omega

theorem InRound.fair_iff {p : Rotation} {v k : Nat} {r : Roster} {sch : ScheduleInfo}
    {br : BlockReward} (hI : InRound p v r sch br k) (hv : v + 1 = p.version) (env : Env)
    (fx : List Effect) : Fair p (.produced env fx) ↔ ∀ q ∈ sch.names, Faithful p.log q →
      (offset sch.names br.lastStandardBp q < turnsSince v br.lastRewardBlockNum p.log ↔
        offset sch.names br.lastStandardBp q <
          cutSpan sch.producers br.lastStandardBp p.producer) := by
  have hnone : p.state.schedules.find p.version = none := hI.later _ (by omega)
  have he : p.version - 1 = v := by omega
  unfold Fair
  rw [he]
  constructor
  · exact fun h => h br sch hI.reward hnone hI.row
  · intro h br' sch' hbr _ hsch
    rw [hI.reward] at hbr
    rw [hI.row] at hsch
    cases hbr
    cases hsch
    exact h

/-- **Step lemma.** From a rotation without a marked producer that made all its blocks, a fair event
leads to another, and an unfair one does not. -/
theorem Turn.unmarked_iff {p q : Rotation} {e : Event} (hp : RotationInv p) (hu : Unmarked p)
    (h : Turn p e q) : Unmarked q ↔ Fair p e := by
  cases h with
  | missed => exact iff_of_true (fun x hx => hu x hx.tail) trivial
  | changed hv => exact iff_of_true hu trivial
  | @produced env s fx hact hheight h =>
    cases blockStep hp hact hheight h with
    | first hn hr hm hs ho hd =>
      refine iff_of_true (fun x hx m hmx => ?_) fun br sch hbr => ?_
      · rw [Rotation.made_state, hs] at hmx; cases hmx
      · rw [hr] at hbr; cases hbr
    | change hI hv ho hs =>
      have hc := fun x hx hf => hs.charge_cut hI (q := x) hx hf
      rw [hs.unmarked_iff hu fun x hx hf => by rw [hc x hx hf]; split <;> decide, hI.fair_iff hv]
      refine forall_congr' fun x => forall_congr' fun hx => forall_congr' fun hf => ?_
      rw [hc x hx hf]
      split
      · exact iff_of_true (le_refl _) ‹_›
      · exact iff_of_false (by decide) ‹_›
    | settle hI hmade ho hs =>
      have hc := fun x hx hf => hs.charge_within hI hmade (q := x) hx hf
      refine iff_of_true ((hs.unmarked_iff hu fun x hx hf => ?_).mpr fun x hx hf => ?_) ?_
      · rw [hc x hx hf]; decide
      · rw [hc x hx hf]
      · intro br sch _ hnone
        rw [hI.row] at hnone; cases hnone
    | within hI hmade hrow hr hm hd =>
      refine iff_of_true (fun x hx m hmx => ?_) fun br sch _ hnone => ?_
      · rw [Rotation.made_state, hm] at hmx
        exact hu x hx.tail m hmx
      · rw [hI.row] at hnone; cases hnone

/-- A fair event deducts nothing from a producer that made all its blocks. -/
theorem Turn.no_deduction {p q : Rotation} {e : Event} (hp : RotationInv p) (hfair : Fair p e)
    (h : Turn p e q) {x : Name} (hx : Faithful q.log x) : ¬Deducts e.effects x := by
  intro hd
  cases h with
  | missed => exact not_deducts_nil x hd
  | changed hv => exact not_deducts_nil x hd
  | @produced env s fx hact hheight h =>
    have hf : Faithful p.log x := hx.tail
    cases blockStep hp hact hheight h with
    | first hn hr hm hs ho hnd => exact hnd x hd
    | within hI hmade hrow hr hm hnd => exact hnd x hd
    | change hI hv ho hs =>
      obtain ⟨hmem, hpos⟩ := hs.rows.deductions x hd
      rw [hs.charge_cut hI hmem hf, if_pos ((hI.fair_iff hv env fx).mp hfair x hmem hf)] at hpos
      exact lt_irrefl _ hpos
    | settle hI hmade ho hs =>
      obtain ⟨hmem, hpos⟩ := hs.rows.deductions x hd
      rw [hs.charge_within hI hmade hmem hf] at hpos
      exact lt_irrefl _ hpos

/-- In a run of slots, a producer that made a block in every slot of its own has no charge counted
against it and no deduction, at each point of the run, exactly when every event is fair. -/
theorem drain_run_iff {p q : Rotation} {tr : List (Rotation × Event × Rotation)} (hp : Fresh p)
    (h : Run Turn p tr q) : (∀ e ∈ tr, Unharmed e) ↔ ∀ e ∈ tr, Fair e.1 e.2.1 := by
  have hinv := (h.inv hp.inv fun _ _ _ => Turn.inv).2
  have hu : Unmarked p := fun x _ m hm => by rw [hp.bpmonitor] at hm; cases hm
  have hiff := h.always_iff (P := fun p => RotationInv p ∧ Unmarked p) ⟨hp.inv, hu⟩
    fun t a u ht hs => ⟨fun hP => (hs.unmarked_iff ht.1 ht.2).mp hP.2,
      fun hC => ⟨hs.inv ht.1, (hs.unmarked_iff ht.1 ht.2).mpr hC⟩⟩
  constructor
  · exact fun hU => hiff.mp fun e he => ⟨(hinv e he).2.2, fun x hx => (hU e he x hx).1⟩
  · intro hC e he x hx
    obtain ⟨hI, hs, -⟩ := hinv e he
    exact ⟨(hiff.mpr hC e he).2 x hx, hs.no_deduction hI (hC e he) hx⟩

/-! ### A cut round -/

/-- The producers 0 to 22. -/
def ring : Roster := ⟨List.range numOfTopBps, List.length_range, List.nodup_range⟩

/-- Version 1 is in force, and its first slot is next. -/
def ringStart : Rotation :=
  { version := 1, roster := ring, next := 0, log := [], height := 0, state := {} }

/-- After a block in the next slot. -/
def Rotation.produce (p : Rotation) (block : Nat) : Rotation :=
  p.made (u32 block) (execTo (Env.block block) p.state (.onblock p.producer p.version))

/-- The next version is in force and starts with producer 1. -/
def Rotation.change (p : Rotation) : Rotation := { p with version := p.version + 1, next := 1 }

theorem ringStart_fresh : Fresh ringStart := ⟨by decide, rfl, rfl, rfl, rfl⟩

theorem Rotation.produce_turn {p : Rotation} {block : Nat} (hr : p.roster = ring)
    (hlt : p.height < u32 block)
    (hx : (onblock (Env.block block) p.state p.producer p.version).map Prod.snd = .ok []) :
    Turn p (.produced (Env.block block) []) (p.produce block) := by
  cases ho : onblock (Env.block block) p.state p.producer p.version with
  | error e => rw [ho] at hx; cases hx
  | ok r =>
    obtain ⟨s, fx⟩ := r
    rw [ho] at hx
    cases hx
    have hs : execTo (Env.block block) p.state (.onblock p.producer p.version) = s := by
      simp only [execTo, exec, ho]
    unfold Rotation.produce
    rw [hs]
    exact .produced (congrArg Roster.names hr).symm hlt ho

/-- Producer 0 makes a block, and producer 1 the first one of the next version. -/
theorem drain_run_iff_fairCut :
    Unharmed ((ringStart.produce 1).change, .produced (Env.block 2) [],
      (ringStart.produce 1).change.produce 2) := by
  have hrun : Run Turn ringStart
      [(ringStart, .produced (Env.block 1) [], ringStart.produce 1),
        (ringStart.produce 1, .changed ring 1, (ringStart.produce 1).change),
        ((ringStart.produce 1).change, .produced (Env.block 2) [],
          (ringStart.produce 1).change.produce 2)] ((ringStart.produce 1).change.produce 2) :=
    .snoc (.snoc (.snoc .nil (Rotation.produce_turn rfl (by decide) (by decide)))
      (.changed (by decide))) (Rotation.produce_turn rfl (by decide) (by decide))
  refine (drain_run_iff ringStart_fresh hrun).mpr (fun e he => ?_) _
    (List.mem_cons_of_mem _ (List.mem_cons_of_mem _ List.mem_cons_self))
  simp only [List.mem_cons, List.not_mem_nil, or_false] at he
  rcases he with rfl | rfl | rfl
  · intro br sch hbr; cases hbr
  · trivial
  · intro br sch hbr _ hsch q _ _
    cases hbr
    cases hsch
    exact Iff.rfl

/-- Producers 0, 1 and 2 make their blocks, and producer 1 the first one of the next version:
producer 2 is charged. -/
theorem unfairCut_charges : ¬∀ (p q : Rotation) (tr : List (Rotation × Event × Rotation)),
    Fresh p → Run Turn p tr q → ∀ e ∈ tr, Unharmed e := by
  intro h
  let p₁ := ringStart.produce 1
  let p₂ := p₁.produce 2
  let p₃ := p₂.produce 3
  have hrun : Run Turn ringStart
      [(ringStart, .produced (Env.block 1) [], p₁), (p₁, .produced (Env.block 2) [], p₂),
        (p₂, .produced (Env.block 3) [], p₃), (p₃, .changed ring 1, p₃.change),
        (p₃.change, .produced (Env.block 4) [], p₃.change.produce 4)] (p₃.change.produce 4) :=
    .snoc (.snoc (.snoc (.snoc (.snoc .nil
      (Rotation.produce_turn rfl (by decide) (by decide +kernel)))
      (Rotation.produce_turn rfl (by decide) (by decide +kernel)))
      (Rotation.produce_turn rfl (by decide) (by decide +kernel))) (.changed (by decide)))
      (Rotation.produce_turn rfl (by decide) (by decide +kernel))
  have hU := h _ _ _ ringStart_fresh hrun (p₃.change, .produced (Env.block 4) [],
    p₃.change.produce 4) (by simp) 2 fun x hx _ => by
      have hx' : x ∈ [Slot.mk 2 1 (some 4), ⟨1, 2, some 3⟩, ⟨1, 1, some 2⟩, ⟨1, 0, some 1⟩] := hx
      simp only [List.mem_cons, List.not_mem_nil, or_false] at hx'
      rcases hx' with rfl | rfl | rfl | rfl <;> rfl
  have hone : ((p₃.change.produce 4).state.bpmonitor.find 2).map BpMonitor.totalDrainBlock =
      some 1 := by decide +kernel
  obtain ⟨m, hm, h1⟩ := Option.map_eq_some_iff.mp hone
  exact absurd ((hU.1 m hm).total.symm.trans h1) (by decide)

end Eosforce.System
