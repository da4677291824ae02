import Eosforce.System.RewardBps

/-!
# Rounds of block production

What `onblock` does to the tables that count blocks: `schedules`, `blockreward`, `bpmonitor`.

* `calDrainNum_of_made`, `calDrainNum_change`: the charge of a producer at a settlement within a
  version and at one that a new version brings.
* `Settles`, `settleLoop_spec`, `rewardBlock_spec`: the loop of `reward_block` settles the row of
  each producer of the schedule.
* `onblock_rounds`: the rest of `onblock` leaves these tables alone, but for the count of the block.
* `RoundStep`, `onblock_roundStep`: a block after the first one opens a version, settles a round or is
  within one.
-/

namespace Eosforce.System

open Fallible Keyed

/-! ## The charge of a producer -/

/-- Cyclically from `ifirst` to before `ilast`: where `cal_drain_num` expects one block more. -/
def InArc (ifirst ilast index : Nat) : Prop :=
  (ifirst ≤ index ∧ index < ilast) ∨ (ifirst > ilast ∧ (ifirst ≤ index ∨ index < ilast))

instance (f l i : Nat) : Decidable (InArc f l i) := inferInstanceAs (Decidable (_ ∨ _))

theorem InArc.ne {f l i : Nat} (h : InArc f l i) : f ≠ l := by
  unfold InArc at h; omega

/-- The charge before the corrections: one for a producer without a block, none with one. -/
theorem drain_of_round {m a : Nat} (hm : m ≤ a) (ha : a ≤ m + 1) :
    i32 (u32sub (m + bpCycleBlockOut) a) = 1 - ((a : Int) - m) := by
  have hb : bpCycleBlockOut = 1 := rfl
  have hr : (u32sub (m + 1) a : Int) = 1 - ((a : Int) - m) := by
    unfold u32sub u32OfInt; omega
  rw [hb, hr, i32_of_range (by omega) (by omega)]

/-- The correction for the arc. -/
theorem arc_drain (f l i : Nat) {x : Int} (h0 : 0 ≤ x) (h1 : x ≤ 1) :
    (if f ≤ i ∧ i < l then i32 (x + 1)
      else if f > l ∧ (f ≤ i ∨ i < l) then i32 (x + 1) else x) =
      if InArc f l i then x + 1 else x := by
  rw [i32_of_range (by omega) (by omega)]
  unfold InArc
  by_cases hin : f ≤ i ∧ i < l
  · simp only [hin, and_self, true_or, ↓reduceIte]
  · simp only [hin, false_or, ↓reduceIte]

/-- The bounds of `cal_drain_num`: the unsigned comparison turns -1 into a charge of one block. -/
theorem bound_drain {x : Int} (h0 : -1 ≤ x) (h1 : x ≤ 1) :
    (if (if u32OfInt x > bpCycleBlockOut then (bpCycleBlockOut : Int) else x) < 0 then 0
      else if u32OfInt x > bpCycleBlockOut then (bpCycleBlockOut : Int) else x) =
      if x = 0 then 0 else 1 := by
  have hx : x = -1 ∨ x = 0 ∨ x = 1 := by omega
  rcases hx with rfl | rfl | rfl <;> decide

/-- Within a version, a producer that made its block is not charged outside the arc. -/
theorem calDrainNum_of_made {i f l m : Nat} (h : ¬InArc f l i) :
    calDrainNum false i f l m (m + 1) = 0 := by
  have hr := drain_of_round (m := m) (a := m + 1) (by omega) (by omega)
  unfold calDrainNum
  simp only [hr, arc_drain f l i (x := 1 - (((m + 1 : Nat) : Int) - m)) (by omega) (by omega), h,
    ↓reduceIte, Bool.false_eq_true, false_and]
  rw [bound_drain (by omega) (by omega), if_pos (by omega)]

/-- At a change of the version, a producer is spared exactly when "it made its block" and "it is in
the arc" agree, where the arc is the whole cycle if it ends where it starts. -/
theorem calDrainNum_change {i f l m a : Nat} (hm : m ≤ a) (ha : a ≤ m + 1) :
    calDrainNum true i f l m a = if a = m + 1 ↔ (InArc f l i ∨ f = l) then 0 else 1 := by
  have hr := drain_of_round hm ha
  unfold calDrainNum
  simp only [hr, arc_drain f l i (x := 1 - ((a : Int) - m)) (by omega) (by omega), true_and]
  by_cases hin : InArc f l i
  · have hne := hin.ne
    simp only [hin, hne, ne_eq, not_false_eq_true, ↓reduceIte, true_or, iff_true]
    rw [i32_of_range (by omega) (by omega), bound_drain (by omega) (by omega)]
    exact if_congr (by omega) rfl rfl
  · by_cases hfl : f = l
    · simp only [ne_eq, hfl, not_true_eq_false, ↓reduceIte, or_true, iff_true]
      subst hfl
      simp only [hin, ↓reduceIte]
      rw [bound_drain (by omega) (by omega)]
      exact if_congr (by omega) rfl rfl
    · simp only [hin, hfl, ne_eq, not_false_eq_true, ↓reduceIte, or_self, iff_false]
      rw [i32_of_range (by omega) (by omega), bound_drain (by omega) (by omega)]
      exact if_congr (by omega) rfl rfl

/-! ## Monitor rows -/

/-- The monitor row of a producer, as the settlement makes it if it is missing. -/
def State.monitor (s : State) (q : Name) : BpMonitor := (s.bpmonitor.find q).getD {}

/-- No charge has been counted against the producer. -/
structure BpMonitor.Clean (m : BpMonitor) : Prop where
  consecutive : m.consecutiveDrainBlock = 0
  total : m.totalDrainBlock = 0
  status : m.bpStatus ≠ .lackPledge

theorem BpMonitor.clean_new : BpMonitor.Clean {} := ⟨rfl, rfl, by decide⟩

theorem countRound_lastBlockNum (m : BpMonitor) (d : Int) (n : Nat) :
    (countRound m d n).lastBlockNum = m.lastBlockNum := by
  unfold countRound; split <;> rfl

theorem markLackPledge_lastBlockNum (m : BpMonitor) :
    (markLackPledge m).lastBlockNum = m.lastBlockNum := by
  unfold markLackPledge; split <;> rfl

theorem settleMonitor_lastBlockNum (c : Settlement) (m : BpMonitor) (amount age : Nat) (d : Int) :
    (settleMonitor c m amount age d).lastBlockNum = if c.isChangeProducers then 0 else amount := by
  unfold settleMonitor adjustStability
  rw [markLackPledge_lastBlockNum, countRound_lastBlockNum]

/-- A settlement that charges at most one block leaves a clean row clean exactly when it charges
none. -/
theorem settleMonitor_clean {c : Settlement} {m : BpMonitor} {amount age : Nat} {d : Int}
    (hm : m.Clean) (hd : d ≤ 1) : (settleMonitor c m amount age d).Clean ↔ d ≤ 0 := by
  constructor
  · intro h
    by_contra hpos
    obtain rfl : d = 1 := by omega
    have ht := h.total
    have hone : (settleMonitor c m amount age 1).totalDrainBlock = 1 := by
      unfold settleMonitor markLackPledge countRound
      simp only [adjustStability, gt_iff_lt, Int.one_pos, ↓reduceIte, hm.total]
      split <;> rfl
    omega
  · intro h
    have hd' : ¬d > 0 := by omega
    unfold settleMonitor markLackPledge countRound
    simp only [hd', adjustStability, ↓reduceIte]
    exact ⟨rfl, hm.total, hm.status⟩

/-! ## The loop of `reward_block` -/

/-- The names of the producers of a schedule. -/
def ScheduleInfo.names (sch : ScheduleInfo) : List Name := sch.producers.map Producer.bpname

theorem scheduleIndex_eq {sch : ScheduleInfo} (hnd : sch.names.Nodup) (b : Name) :
    scheduleIndex sch.producers b = if b ∈ sch.names then sch.names.idxOf b else 0 := by
  have key : ∀ (l : List Producer) (k acc : Nat), (l.map Producer.bpname).Nodup →
      (l.zipIdx k).foldl (fun i p => if p.1.bpname = b then p.2 else i) acc =
        if b ∈ l.map Producer.bpname then k + (l.map Producer.bpname).idxOf b else acc := by
    intro l
    induction l with
    | nil => intro k acc _; rfl
    | cons p l ih =>
      intro k acc hnd
      obtain ⟨hp, hnd⟩ := List.nodup_cons.mp hnd
      rw [List.zipIdx_cons, List.foldl_cons, ih _ _ hnd]
      by_cases hb : p.bpname = b
      · subst hb
        simp [hp]
      · have hb' : b ≠ p.bpname := fun e => hb e.symm
        simp only [hb, ↓reduceIte, List.map_cons, List.mem_cons, hb', false_or,
          List.idxOf_cons_ne _ hb]
        split <;> omega
  have h := key sch.producers 0 0 hnd
  rwa [Nat.zero_add] at h

/-- The charge of a producer in a list whose indices start at `k`. -/
def Settlement.charge (c : Settlement) (producers : List Producer) (k : Nat) (s : State) (q : Name) :
    Int :=
  c.drainNum (k + (producers.map Producer.bpname).idxOf q) (preBlockOut producers q) (s.monitor q)

/-- A deduction of the producer's pledge is sent. -/
def Deducts (fx : List Effect) (q : Name) : Prop :=
  ∃ pledgeName quantity memo, .deduction pledgeName q quantity memo ∈ fx

theorem Deducts.append {fx fx' : List Effect} {q : Name} (h : Deducts (fx ++ fx') q) :
    Deducts fx q ∨ Deducts fx' q := by
  obtain ⟨n, x, memo, hm⟩ := h
  exact (List.mem_append.mp hm).imp (fun h => ⟨n, x, memo, h⟩) fun h => ⟨n, x, memo, h⟩

/-- The deduction of a settlement is for a charge of the producer itself. -/
theorem Deducts.punish {env : Env} {b q : Name} {d : Int} (h : Deducts (drainPunish env b d) q) :
    q = b ∧ 0 < d := by
  obtain ⟨n, x, memo, hm⟩ := h
  unfold drainPunish at hm
  split at hm
  · rename_i hd
    rw [List.mem_singleton] at hm
    cases hm
    exact ⟨rfl, hd.1⟩
  · cases hm

/-- What the loop of `reward_block` does to the monitor rows, over producers with indices from `k`
on: it settles their rows and sends `fx`. -/
structure Settles (c : Settlement) (producers : List Producer) (k : Nat) (s s' : State)
    (fx : List Effect) : Prop where
  others : ∀ q, q ∉ producers.map Producer.bpname → s'.bpmonitor.find q = s.bpmonitor.find q
  rows : ∀ q ∈ producers.map Producer.bpname, ∃ age, s'.bpmonitor.find q =
    some (settleMonitor c (s.monitor q) (preBlockOut producers q) age (c.charge producers k s q))
  deductions : ∀ q, Deducts fx q →
    q ∈ producers.map Producer.bpname ∧ 0 < c.charge producers k s q

theorem recordDrain_ok {env : Env} {s s' : State} {c : Settlement} {bpname : Name} {m : BpMonitor}
    {d : Int} (h : recordDrain env s c bpname m d = .ok s') :
    s'.schedules = s.schedules ∧ s'.bpmonitor = s.bpmonitor := by
  unfold recordDrain at h
  split at h
  · simp only [bind_eq_ok, pure_eq_ok] at h
    obtain ⟨_, -, rfl⟩ := h
    exact ⟨rfl, rfl⟩
  · cases h
    exact ⟨rfl, rfl⟩

/-- One iteration writes one row. -/
theorem settleProducer_ok {env : Env} {c : Settlement} {acc acc' : State × Nat × List Effect}
    {p : Producer} {k : Nat} (h : settleProducer env c acc (p, k) = .ok acc') :
    acc'.1.schedules = acc.1.schedules ∧
      (∃ age, acc'.1.bpmonitor = acc.1.bpmonitor.put p.bpname (settleMonitor c
        (acc.1.monitor p.bpname) p.amount age (c.drainNum k p.amount (acc.1.monitor p.bpname)))) ∧
      acc'.2.2 = acc.2.2 ++
        drainPunish env p.bpname (c.drainNum k p.amount (acc.1.monitor p.bpname)) := by
  simp only [settleProducer, bind_eq_ok, pure_eq_ok] at h
  obtain ⟨t, ht, rfl⟩ := h
  obtain ⟨hsch, hmon⟩ := recordDrain_ok ht
  exact ⟨hsch, ⟨_, congrArg (Table.put · p.bpname _) hmon⟩, rfl⟩

theorem preBlockOut_cons_self (p : Producer) (l : List Producer) :
    preBlockOut (p :: l) p.bpname = p.amount := by
  simp [preBlockOut]

theorem preBlockOut_cons_ne {p : Producer} {q : Name} (l : List Producer) (h : p.bpname ≠ q) :
    preBlockOut (p :: l) q = preBlockOut l q := by
  simp [preBlockOut, h]

theorem charge_cons_self (c : Settlement) (p : Producer) (l : List Producer) (k : Nat) (s : State) :
    c.charge (p :: l) k s p.bpname = c.drainNum k p.amount (s.monitor p.bpname) := by
  simp [Settlement.charge, preBlockOut_cons_self]

theorem charge_cons_ne (c : Settlement) {p : Producer} {q : Name} (l : List Producer) (k : Nat)
    {s t : State} (h : p.bpname ≠ q) (hm : t.monitor q = s.monitor q) :
    c.charge (p :: l) k s q = c.charge l (k + 1) t q := by
  simp only [Settlement.charge, preBlockOut_cons_ne l h, List.map_cons, List.idxOf_cons_ne _ h, hm,
    Nat.succ_eq_add_one, Nat.add_assoc, Nat.add_comm 1]

theorem settleLoop_spec {env : Env} {c : Settlement} (l : List Producer) :
    ∀ {k : Nat} {acc acc' : State × Nat × List Effect}, (l.map Producer.bpname).Nodup →
      (l.zipIdx k).foldlM (settleProducer env c) acc = .ok acc' →
      acc'.1.schedules = acc.1.schedules ∧
        ∃ fx, acc'.2.2 = acc.2.2 ++ fx ∧ Settles c l k acc.1 acc'.1 fx := by
  induction l with
  | nil =>
    intro k acc acc' _ h
    cases h
    refine ⟨rfl, [], by simp, fun _ _ => rfl, by simp, ?_⟩
    rintro q ⟨n, x, memo, hm⟩
    cases hm
  | cons p l ih =>
    intro k acc acc' hnd h
    obtain ⟨hp, hnd⟩ := List.nodup_cons.mp hnd
    rw [List.zipIdx_cons, List.foldlM_cons, bind_eq_ok] at h
    obtain ⟨t, ht, h⟩ := h
    obtain ⟨hsch, ⟨age, hmon⟩, hfx⟩ := settleProducer_ok ht
    obtain ⟨hsch', fx, hfx', hs⟩ := ih hnd h
    -- the rest of the loop reads the rows of `l`, which this iteration leaves alone
    have hne : ∀ q ∈ l.map Producer.bpname, p.bpname ≠ q := fun q hq e => hp (e ▸ hq)
    have hother : ∀ q, p.bpname ≠ q → t.1.bpmonitor.find q = acc.1.bpmonitor.find q := fun q hq => by
      rw [hmon, Table.find_put_ne _ _ hq]
    have hm : ∀ q, p.bpname ≠ q → t.1.monitor q = acc.1.monitor q := fun q hq => by
      rw [State.monitor, hother q hq]; rfl
    refine ⟨hsch'.trans hsch, _, by rw [hfx', hfx, List.append_assoc], fun q hq => ?_,
      fun q hq => ?_, fun q he => ?_⟩
    · simp only [List.map_cons, List.mem_cons, not_or] at hq
      rw [hs.others q hq.2, hother q fun e => hq.1 e.symm]
    · rcases List.mem_cons.mp hq with rfl | hq
      · refine ⟨age, ?_⟩
        rw [hs.others _ hp, hmon, Table.find_put_self, charge_cons_self, preBlockOut_cons_self]
      · obtain ⟨age, hrow⟩ := hs.rows q hq
        refine ⟨age, ?_⟩
        rw [hrow, hm q (hne q hq), preBlockOut_cons_ne l (hne q hq),
          charge_cons_ne c l k (hne q hq) (hm q (hne q hq))]
    · rcases he.append with he | he
      · obtain ⟨rfl, hpos⟩ := he.punish
        exact ⟨List.mem_cons_self, by rwa [charge_cons_self]⟩
      · obtain ⟨hq, hpos⟩ := hs.deductions q he
        exact ⟨List.mem_cons_of_mem _ hq, by
          rwa [charge_cons_ne c l k (hne q hq) (hm q (hne q hq))]⟩

/-- A settlement that finds its schedule settles the rows of the schedule's producers. -/
theorem rewardBlock_spec {env : Env} {s s' : State} {b : Name} {v : Nat} {ch : Bool}
    {fx : List Effect} {br : BlockReward} (h : rewardBlock env s b v ch = .ok (s', fx))
    (hbr : s.blockreward = some br)
    (hnd : ∀ sch, s.schedules.find (if ch then u32sub v 1 else v) = some sch → sch.names.Nodup) :
    s'.schedules = s.schedules ∧
      (∃ br', s'.blockreward = some br' ∧ br'.lastStandardBp = b ∧
        br'.lastRewardBlockNum = env.currentBlockNum) ∧
      ∃ sch, s.schedules.find (if ch then u32sub v 1 else v) = some sch ∧
        Settles (settlement s br sch b ch) sch.producers 0 s s' fx := by
  simp only [rewardBlock, hbr, bind_eq_ok, fetch_eq_ok, pure_eq_ok, Prod.exists, Prod.mk.injEq,
    payBlockOut] at h
  obtain ⟨sch, hsch, t, age, fx', hloop, br', ⟨r, -, out, -, rfl⟩, rfl, rfl⟩ := h
  obtain ⟨ht, fx'', hfx, hs⟩ := settleLoop_spec sch.producers (hnd _ hsch) hloop
  rw [List.nil_append] at hfx
  subst hfx
  exact ⟨ht, ⟨_, rfl, rfl, rfl⟩, sch, hsch, hs.others, hs.rows, hs.deductions⟩

/-! ## The count of a block -/

theorem map_addBlock (b : Name) (l : List Producer) :
    (addBlock b l).map Producer.bpname = l.map Producer.bpname := by
  induction l with
  | nil => rfl
  | cons p l ih =>
    unfold addBlock
    split
    · rfl
    · rw [List.map_cons, ih, List.map_cons]

theorem preBlockOut_addBlock {b q : Name} {l : List Producer}
    (hb : b ∈ l.map Producer.bpname) (hlt : preBlockOut l b + 1 < 2 ^ 32) :
    preBlockOut (addBlock b l) q = if q = b then preBlockOut l b + 1 else preBlockOut l q := by
  induction l with
  | nil => cases hb
  | cons p l ih =>
    unfold addBlock
    by_cases hp : p.bpname = b
    · subst hp
      rw [preBlockOut_cons_self] at hlt ⊢
      rw [if_pos rfl, u32_of_lt hlt]
      by_cases hq : q = p.bpname
      · subst hq
        rw [if_pos rfl]
        exact preBlockOut_cons_self { p with amount := p.amount + 1 } l
      · rw [if_neg hq, preBlockOut_cons_ne l fun e => hq e.symm]
        exact preBlockOut_cons_ne l fun e => hq e.symm
    · rw [if_neg hp]
      rw [preBlockOut_cons_ne l hp] at hlt ⊢
      have hb' := (List.mem_cons.mp hb).resolve_left fun e => hp e.symm
      by_cases hq : q = p.bpname
      · subst hq
        rw [preBlockOut_cons_self, if_neg hp, preBlockOut_cons_self]
      · have hne : p.bpname ≠ q := fun e => hq e.symm
        rw [preBlockOut_cons_ne _ hne, preBlockOut_cons_ne _ hne, ih hb' hlt]

theorem preBlockOut_of_not_mem {q : Name} {l : List Producer} (h : q ∉ l.map Producer.bpname) :
    preBlockOut l q = 0 := by
  induction l with
  | nil => rfl
  | cons p l ih =>
    rw [List.map_cons, List.mem_cons, not_or] at h
    rw [preBlockOut_cons_ne l fun e => h.1 e.symm, ih h.2]

/-! ## The row of a schedule -/

theorem newSchedule_names (env : Env) (b : Name) :
    (newSchedule env b).names = env.activeProducers.take numOfTopBps := by
  unfold newSchedule ScheduleInfo.names
  rw [List.map_map]
  exact List.map_id _

theorem preBlockOut_newSchedule (env : Env) (b q : Name) :
    preBlockOut (newSchedule env b).producers q =
      if q ∈ env.activeProducers.take numOfTopBps ∧ q = b then 1 else 0 := by
  unfold newSchedule
  simp only
  induction env.activeProducers.take numOfTopBps with
  | nil => rfl
  | cons n l ih =>
    rw [List.map_cons]
    by_cases hn : n = q
    · subst hn
      apply (preBlockOut_cons_self _ _).trans
      simp
    · refine (preBlockOut_cons_ne (p := ⟨n, _⟩) _ hn).trans (ih.trans ?_)
      simp [List.mem_cons, Ne.symm hn]

/-- The schedule row with one more block of the producer. -/
def ScheduleInfo.count (sch : ScheduleInfo) (b : Name) : ScheduleInfo :=
  { sch with producers := addBlock b sch.producers }

theorem count_names (sch : ScheduleInfo) (b : Name) : (sch.count b).names = sch.names :=
  map_addBlock b sch.producers

/-- The blocks that a producer has made since its row was last settled. -/
def madeSince (s : State) (sch : ScheduleInfo) (q : Name) : Nat :=
  preBlockOut sch.producers q - (s.monitor q).lastBlockNum

theorem isRewardBlock_eq {s : State} {sch : ScheduleInfo} {b : Name}
    (hm : (s.monitor b).lastBlockNum ≤ preBlockOut sch.producers b)
    (hlt : preBlockOut sch.producers b < 2 ^ 32) :
    isRewardBlock s false (preBlockOut sch.producers b) b = decide (0 < madeSince s sch b) := by
  have he : ((s.bpmonitor.find b).map BpMonitor.lastBlockNum).getD 0 =
      (s.monitor b).lastBlockNum := by
    unfold State.monitor; cases s.bpmonitor.find b <;> rfl
  unfold isRewardBlock madeSince
  simp only [he, u32sub_of_le hm hlt, Bool.false_or, decide_eq_decide, bpCycleBlockOut]
  omega

/-! ## `onblock` -/

/-- The tables that count blocks. -/
structure Rounds where
  schedules : Table Nat ScheduleInfo
  blockreward : Option BlockReward
  bpmonitor : Table Name BpMonitor

def State.rounds (s : State) : Rounds := ⟨s.schedules, s.blockreward, s.bpmonitor⟩

theorem makeGlobalVotestate_rounds (s : State) : (makeGlobalVotestate s).rounds = s.rounds := by
  unfold makeGlobalVotestate getGlobalVotestate; split <;> rfl

theorem rewardBps_rounds {env : Env} {s s' : State} (h : rewardBps env s = .ok s') :
    s'.rounds = s.rounds :=
  rewardBps_frame (fun _ _ _ _ _ => rfl) h

theorem electBps_no_deduction {env : Env} {s : State} {fx : List Effect}
    (h : electBps env s = .ok fx) (q : Name) : ¬Deducts fx q := by
  rintro ⟨n, x, memo, hm⟩
  simp only [electBps, updateElectedBps, ite_eq_ok, bind_eq_ok, pure_eq_ok] at h
  rcases h with ⟨-, _, -, rfl⟩ | ⟨-, rfl⟩
  · simp at hm
  · cases hm

/-- `onblock` settles the round and counts the block; the rest leaves the tables of the rounds
alone and deducts nothing. -/
theorem onblock_rounds {env : Env} {s s' : State} {b : Name} {v : Nat} {fx : List Effect}
    (hact : numOfTopBps ≤ env.activeProducers.length) (h : onblock env s b v = .ok (s', fx)) :
    ∃ t ded, settleRound env s b v = .ok (t, ded) ∧ (∀ q, Deducts fx q → Deducts ded q) ∧
      s'.rounds = { t.rounds with
        schedules := match s.schedules.find v with
          | none => t.schedules
          | some sch => t.schedules.put v
              { sch with producers := addBlock b sch.producers } } := by
  simp only [onblock, Nat.not_lt.mpr hact, ↓reduceIte, bind_eq_ok, pure_eq_ok, Prod.exists,
    Prod.mk.injEq] at h
  obtain ⟨t, ded, ht, u, hu, elected, hel, rfl, rfl⟩ := h
  have hr : u.rounds = t.rounds :=
    (rewardBps_rounds hu).trans (makeGlobalVotestate_rounds t)
  refine ⟨t, ded, ht, fun q hq => hq.append.resolve_right (electBps_no_deduction hel q), ?_⟩
  have hs : u.schedules = t.schedules := congrArg Rounds.schedules hr
  unfold countBlock
  cases s.schedules.find v with
  | none => exact hr
  | some sch => rw [← hr, ← hs]; rfl

theorem not_deducts_nil (q : Name) : ¬Deducts [] q := by
  rintro ⟨_, _, _, hm⟩; cases hm

/-- The rows settled from one state to another depend on the monitor rows only. -/
theorem Settles.congr {c : Settlement} {l : List Producer} {k : Nat} {s s' t t' : State}
    {fx fx' : List Effect} (h : Settles c l k s s' fx) (hs : t.bpmonitor = s.bpmonitor)
    (hs' : t'.bpmonitor = s'.bpmonitor) (hfx : ∀ q, Deducts fx' q → Deducts fx q) :
    Settles c l k t t' fx' := by
  have hm : ∀ q, t.monitor q = s.monitor q := fun q => by unfold State.monitor; rw [hs]
  refine ⟨fun q hq => by rw [hs', hs]; exact h.others q hq, fun q hq => ?_, fun q hq => ?_⟩
  · obtain ⟨age, hrow⟩ := h.rows q hq
    refine ⟨age, ?_⟩
    rw [hs', hrow, hm, Settlement.charge, Settlement.charge, hm]
  · have := h.deductions q (hfx q hq)
    rwa [Settlement.charge, hm]

/-! ## Blocks after the first one -/

/-- Version `v` is the last one with a row, which is `sch`, and a round has been settled. -/
structure LastRow (s : State) (v : Nat) (sch : ScheduleInfo) (br : BlockReward) : Prop where
  row : s.schedules.find v = some sch
  later : ∀ w, v < w → s.schedules.find w = none
  reward : s.blockreward = some br
  nodup : sch.names.Nodup

/-- The settlement that the block of `b` makes of the round of `sch`. -/
structure RoundSettled (env : Env) (s : State) (sch : ScheduleInfo) (br : BlockReward) (b : Name)
    (ch : Bool) (s' : State) (fx : List Effect) : Prop where
  reward : ∃ br', s'.blockreward = some br' ∧ br'.lastStandardBp = b ∧
    br'.lastRewardBlockNum = env.currentBlockNum
  rows : Settles (settlement s br sch b ch) sch.producers 0 s s' fx

/-- What a block of version `w` does to the tables that count blocks, after one of version `v`. -/
inductive RoundStep (env : Env) (s : State) (v : Nat) (sch : ScheduleInfo) (br : BlockReward)
    (b : Name) (w : Nat) (s' : State) (fx : List Effect) : Prop
  /-- The first block of a new version settles the round of the last one. -/
  | change (hv : v + 1 = w) (hrow : s'.schedules = s.schedules.put w (newSchedule env b))
    (hs : RoundSettled env s sch br b true s' fx)
  /-- The second block of a producer settles the round. -/
  | settle (hv : v = w) (hmade : 0 < madeSince s sch b)
    (hrow : s'.schedules = s.schedules.put w (sch.count b))
    (hs : RoundSettled env s sch br b false s' fx)
  /-- A block within the round. -/
  | within (hv : v = w) (hmade : madeSince s sch b = 0)
    (hrow : s'.schedules = s.schedules.put w (sch.count b))
    (hr : s'.blockreward = s.blockreward) (hm : s'.bpmonitor = s.bpmonitor)
    (hd : ∀ q, ¬Deducts fx q)

theorem onblock_roundStep {env : Env} {s s' : State} {v w : Nat} {sch : ScheduleInfo}
    {br : BlockReward} {b : Name} {fx : List Effect}
    (hact : numOfTopBps ≤ env.activeProducers.length) (hl : LastRow s v sch br) (hvw : v ≤ w)
    (hw : w < 2 ^ 32) (hm : (s.monitor b).lastBlockNum ≤ preBlockOut sch.producers b)
    (hlt : preBlockOut sch.producers b < 2 ^ 32) (h : onblock env s b w = .ok (s', fx)) :
    RoundStep env s v sch br b w s' fx := by
  obtain ⟨t, ded, ht, hd, hr⟩ := onblock_rounds hact h
  have hsch := congrArg Rounds.schedules hr
  have hbr : s'.blockreward = t.blockreward := congrArg Rounds.blockreward hr
  have hmon : s'.bpmonitor = t.bpmonitor := congrArg Rounds.bpmonitor hr
  simp only [State.rounds] at hsch
  cases hf : s.schedules.find w with
  | none =>
    have hne : v ≠ w := fun e => by
      have hrow := hl.row
      rw [e, hf] at hrow
      cases hrow
    have hsub : u32sub w 1 = w - 1 := u32sub_of_le (by omega) hw
    -- only the row of version `v` can be the one that the settlement reads
    have hlast : ∀ sch', (s.schedules.put w (newSchedule env b)).find
        (if true then u32sub w 1 else w) = some sch' → v + 1 = w ∧ sch' = sch := fun sch' hs => by
      rw [if_pos rfl, hsub, Table.find_put_ne _ _ (by omega)] at hs
      have hv : v + 1 = w := by
        by_contra hv
        rw [hl.later _ (by omega)] at hs
        cases hs
      rw [← hv, Nat.add_sub_cancel, hl.row] at hs
      exact ⟨hv, (Option.some.inj hs).symm⟩
    rw [hf] at hsch
    simp only [settleRound, hf] at ht
    obtain ⟨hs, ⟨br', hbr', hset⟩, sch', hfind, hrows⟩ := rewardBlock_spec ht hl.reward
      fun sch' hs => (hlast sch' hs).2 ▸ hl.nodup
    obtain ⟨hv, rfl⟩ := hlast sch' hfind
    exact .change hv (hsch.trans hs) ⟨⟨br', hbr.trans hbr', hset⟩, hrows.congr rfl hmon hd⟩
  | some sch' =>
    have hv : v = w := by
      by_contra hv
      rw [hl.later _ (by omega)] at hf
      cases hf
    subst hv
    obtain rfl : sch' = sch := Option.some.inj (hf.symm.trans hl.row)
    rw [hf] at hsch
    simp only [settleRound, hf, isRewardBlock_eq hm hlt, decide_eq_true_eq] at ht
    split at ht
    · rename_i hmade
      obtain ⟨hs, ⟨br', hbr', hset⟩, sch₂, hfind, hrows⟩ := rewardBlock_spec ht hl.reward
        fun sch₂ hs => Option.some.inj (hf.symm.trans hs) ▸ hl.nodup
      obtain rfl : sch' = sch₂ := Option.some.inj (hf.symm.trans hfind)
      exact .settle rfl hmade (by rw [hsch, hs]; rfl)
        ⟨⟨br', hbr.trans hbr', hset⟩, hrows.congr rfl hmon hd⟩
    · rename_i hmade
      cases ht
      exact .within rfl (by omega) hsch hbr hmon fun q hq => not_deducts_nil q (hd q hq)

end Eosforce.System
