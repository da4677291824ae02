import Eosforce.Lib.Run
import Eosforce.System.Rounds
import Mathlib.Algebra.BigOperators.Group.Finset.Piecewise
import Mathlib.Algebra.Order.BigOperators.Group.Finset

/-!
# Counts of blocks

`onblock` counts the blocks of each producer in the row of its schedule version, and settles a round
when a producer makes its second block since the last settlement.

* `BlockCall`, `Production`, `Produce`: a call of `onblock` for one of the first 23 active producers,
  and the contract with the calls so far. Blocks come one by one, in any order of the producers.
* `Counting`: the invariant. The blocks made since the last settlement are as many as the producers
  with one, so there are at most 23.
* `blocks_counted`: the rows count the calls, the monitor rows are at most one block behind, and
  settlements are at most 23 blocks apart.
-/

namespace Eosforce.System

open Fallible Keyed Runs

/-! ## Calls of `onblock` -/

/-- A call of `onblock`. -/
structure BlockCall where
  env : Env
  bpname : Name
  version : Nat

namespace BlockCall

/-- The number of the block. -/
def block (c : BlockCall) : Nat := c.env.currentBlockNum

/-- The producers of the schedule row. -/
def roster (c : BlockCall) : List Name := c.env.activeProducers.take numOfTopBps

/-- The block is one of a producer of the schedule. The first block of a chain has number 1. -/
structure WellFormed (c : BlockCall) : Prop where
  enough : numOfTopBps ≤ c.env.activeProducers.length
  nodup : c.env.activeProducers.Nodup
  mem : c.bpname ∈ c.roster
  version_lt : c.version < 2 ^ 32
  block_pos : 0 < c.block

/-- The call comes in the block after that of `d`: for the same schedule or for the next version. -/
def Follows (c d : BlockCall) : Prop :=
  c.block = d.block + 1 ∧
    (c.version = d.version ∧ c.env.activeProducers = d.env.activeProducers ∨
      c.version = d.version + 1)

theorem Follows.roster_eq {c d : BlockCall} (h : c.Follows d) (hv : d.version = c.version) :
    c.roster = d.roster := by
  rcases h.2 with ⟨-, e⟩ | e
  · unfold roster; rw [e]
  · omega

end BlockCall

/-- The contract, and the calls so far with the newest one first. -/
structure Production where
  state : State
  calls : List BlockCall

/-- One more block. -/
def Produce (p : Production) (c : BlockCall) (q : Production) : Prop :=
  c.WellFormed ∧ (∀ d ∈ p.calls.head?, c.Follows d) ∧ q.calls = c :: p.calls ∧
    ∃ fx, onblock c.env p.state c.bpname c.version = .ok (q.state, fx)

/-- No block has been counted. -/
structure Production.Fresh (p : Production) : Prop where
  calls : p.calls = []
  schedules : p.state.schedules = ∅
  blockreward : p.state.blockreward = none
  bpmonitor : p.state.bpmonitor = ∅

/-- The number of calls with a version and a producer. -/
def callsOf (calls : List BlockCall) (v : Nat) (b : Name) : Nat :=
  calls.countP fun c => c.version = v ∧ c.bpname = b

/-- The `producer_num` that `reward_block` computes. -/
def State.producerNum (s : State) (x : Producer) : Nat :=
  u32sub x.amount (s.monitor x.bpname).lastBlockNum

/-- Whether `onblock` calls `reward_block`. -/
def callsRewardBlock (s : State) (b : Name) (v : Nat) : Bool :=
  match s.schedules.find v with
  | none => true
  | some sch => isRewardBlock s false (preBlockOut sch.producers b) b

/-- The row that `reward_block` settles. -/
def settledRow (s : State) (v : Nat) : Option ScheduleInfo :=
  s.schedules.find (if (s.schedules.find v).isNone then u32sub v 1 else v)

/-- The block settles a round. -/
def IsSettlement (e : Production × BlockCall × Production) : Prop :=
  callsRewardBlock e.1.state e.2.1.bpname e.2.1.version = true

/-! ## Counts -/

theorem callsOf_cons (c : BlockCall) (calls : List BlockCall) (v : Nat) (b : Name) :
    callsOf (c :: calls) v b =
      callsOf calls v b + if c.version = v ∧ c.bpname = b then 1 else 0 := by
  unfold callsOf
  rw [List.countP_cons]
  simp only [decide_eq_true_eq]

theorem callsOf_eq_zero {calls : List BlockCall} {v : Nat} (b : Name)
    (h : ∀ d ∈ calls, d.version ≠ v) : callsOf calls v b = 0 := by
  apply List.countP_eq_zero.mpr
  intro d hd
  simp [h d hd]

theorem callsOf_le_length (calls : List BlockCall) (v : Nat) (b : Name) :
    callsOf calls v b ≤ calls.length := List.countP_le_length

/-- A row counts the calls of its version. -/
structure RowCounts (calls : List BlockCall) (v : Nat) (sch : ScheduleInfo) : Prop where
  nodup : sch.names.Nodup
  amount : ∀ q ∈ sch.names, preBlockOut sch.producers q = callsOf calls v q

theorem preBlockOut_of_mem {l : List Producer} {x : Producer} (hnd : (l.map Producer.bpname).Nodup)
    (hx : x ∈ l) : preBlockOut l x.bpname = x.amount := by
  induction l with
  | nil => cases hx
  | cons p l ih =>
    obtain ⟨hp, hnd⟩ := List.nodup_cons.mp hnd
    rcases List.mem_cons.mp hx with rfl | hx
    · exact preBlockOut_cons_self x l
    · have hne : p.bpname ≠ x.bpname := fun e => hp (e ▸ List.mem_map_of_mem hx)
      rw [preBlockOut_cons_ne l hne, ih hnd hx]

namespace RowCounts

variable {calls : List BlockCall} {v : Nat} {sch : ScheduleInfo}

theorem amount_eq (h : RowCounts calls v sch) {x : Producer} (hx : x ∈ sch.producers) :
    x.amount = callsOf calls v x.bpname :=
  (preBlockOut_of_mem h.nodup hx).symm.trans (h.amount _ (List.mem_map_of_mem hx))

theorem le_length (h : RowCounts calls v sch) (q : Name) :
    preBlockOut sch.producers q ≤ calls.length := by
  by_cases hq : q ∈ sch.names
  · exact (h.amount q hq).le.trans (callsOf_le_length _ _ _)
  · rw [preBlockOut_of_not_mem hq]
    exact Nat.zero_le _

/-- A call of another version does not count. -/
theorem cons_ne (h : RowCounts calls v sch) {c : BlockCall} (hc : c.version ≠ v) :
    RowCounts (c :: calls) v sch :=
  ⟨h.nodup, fun q hq => by rw [callsOf_cons, if_neg fun e => hc e.1, h.amount q hq, Nat.add_zero]⟩

/-- A new row counts its first call. -/
theorem new (c : BlockCall) (hc : c.WellFormed) (h : ∀ d ∈ calls, d.version ≠ c.version) :
    RowCounts (c :: calls) c.version (newSchedule c.env c.bpname) := by
  have hnames : (newSchedule c.env c.bpname).names = c.roster := newSchedule_names _ _
  refine ⟨hnames ▸ hc.nodup.sublist (List.take_sublist _ _), fun q hq => ?_⟩
  rw [hnames] at hq
  rw [preBlockOut_newSchedule, callsOf_cons, callsOf_eq_zero q h, Nat.zero_add]
  exact if_congr ⟨fun e => ⟨rfl, e.2.symm⟩, fun e => ⟨hq, e.2.symm⟩⟩ rfl rfl

/-- The count of a call. -/
theorem count {c : BlockCall} (h : RowCounts calls c.version sch) (hc : c.bpname ∈ sch.names)
    (hlt : calls.length + 1 < 2 ^ 32) :
    RowCounts (c :: calls) c.version (sch.count c.bpname) := by
  refine ⟨(count_names sch c.bpname).symm ▸ h.nodup, fun q hq => ?_⟩
  rw [count_names] at hq
  have hle := h.le_length c.bpname
  apply (preBlockOut_addBlock hc (by omega)).trans
  rw [callsOf_cons]
  by_cases hb : q = c.bpname
  · subst hb
    rw [if_pos rfl, if_pos ⟨rfl, rfl⟩, h.amount _ hq]
  · rw [if_neg hb, if_neg fun e => hb e.2.symm, h.amount q hq, Nat.add_zero]

end RowCounts

/-- The rows after a block count the calls, if its own row does. -/
theorem rowCounts_put {s : State} {calls : List BlockCall} {c : BlockCall} {sch : ScheduleInfo}
    (hrows : ∀ v t, s.schedules.find v = some t → RowCounts calls v t)
    (hnew : RowCounts (c :: calls) c.version sch) {v : Nat} {t : ScheduleInfo}
    (h : (s.schedules.put c.version sch).find v = some t) : RowCounts (c :: calls) v t := by
  rw [Table.find_put] at h
  split at h
  · cases h
    subst_vars
    exact hnew
  · rename_i hne
    exact (hrows v t h).cons_ne hne

/-! ## The invariant -/

/-- The blocks made since the last settlement. -/
def roundBlocks (s : State) (sch : ScheduleInfo) : Nat :=
  ∑ q ∈ sch.names.toFinset, madeSince s sch q

/-- After a block: `c` is the last call, `sch` the row of its version and `br` keeps the last
settlement. -/
structure Counting (p : Production) (c : BlockCall) (sch : ScheduleInfo) (br : BlockReward) :
    Prop where
  last : p.calls.head? = some c
  wellFormed : c.WellFormed
  lastRow : LastRow p.state c.version sch br
  names : sch.names = c.roster
  versions : ∀ d ∈ p.calls, d.version ≤ c.version
  rows : ∀ v s, p.state.schedules.find v = some s → RowCounts p.calls v s
  length : p.calls.length ≤ c.block
  bounds : ∀ q, (p.state.monitor q).lastBlockNum ≤ preBlockOut sch.producers q ∧
    preBlockOut sch.producers q ≤ (p.state.monitor q).lastBlockNum + 1
  settled : br.lastRewardBlockNum ≤ c.block
  round : roundBlocks p.state sch + br.lastRewardBlockNum = c.block + 1

/-- What holds of every production on a run. -/
def ProductionInv (p : Production) : Prop :=
  p.Fresh ∨ ∃ c sch br, Counting p c sch br

/-- One more block of one of the producers. -/
theorem sum_add_one {names : List Name} {b : Name} (hb : b ∈ names) {f f' : Name → Nat}
    (h : ∀ q ∈ names, f' q = f q + if q = b then 1 else 0) :
    ∑ q ∈ names.toFinset, f' q = (∑ q ∈ names.toFinset, f q) + 1 := by
  rw [Finset.sum_congr rfl fun q hq => h q (List.mem_toFinset.mp hq), Finset.sum_add_distrib,
    Finset.sum_ite_eq', if_pos (List.mem_toFinset.mpr hb)]

/-- At most 23 blocks since the last settlement: each producer has made at most one. -/
theorem Counting.roundBlocks_le {p : Production} {c : BlockCall} {sch : ScheduleInfo}
    {br : BlockReward} (h : Counting p c sch br) : roundBlocks p.state sch ≤ numOfTopBps := by
  have hcard : sch.names.toFinset.card ≤ numOfTopBps :=
    (List.toFinset_card_le _).trans (by
      rw [h.names]
      exact List.length_take_le _ _)
  refine (Finset.sum_le_card_nsmul _ _ 1 fun q _ => ?_).trans (by simpa using hcard)
  have := h.bounds q
  unfold madeSince
  omega

section Step

variable {p q : Production} {c : BlockCall}

/-- The first block of a round. -/
theorem Counting.start {sch : ScheduleInfo} {br : BlockReward} (hc : c.WellFormed)
    (hcalls : q.calls = c :: p.calls) (hver : ∀ d ∈ p.calls, d.version ≤ c.version)
    (hlen : p.calls.length < c.block)
    (hlater : ∀ w, c.version < w → p.state.schedules.find w = none)
    (hrows : ∀ v s, p.state.schedules.find v = some s → RowCounts p.calls v s)
    (hrow : q.state.schedules = p.state.schedules.put c.version sch) (hnames : sch.names = c.roster)
    (hnew : RowCounts (c :: p.calls) c.version sch) (hbr : q.state.blockreward = some br)
    (hset : br.lastRewardBlockNum = c.block)
    (hm : ∀ x, preBlockOut sch.producers x =
      (q.state.monitor x).lastBlockNum + if x ∈ c.roster ∧ x = c.bpname then 1 else 0) :
    Counting q c sch br := by
  refine ⟨by rw [hcalls]; rfl, hc, ⟨?_, fun w hw => ?_, hbr, hnew.nodup⟩, hnames, fun d hd => ?_,
    fun v s hs => ?_, ?_, fun x => ?_, hset.le, ?_⟩
  · rw [hrow, Table.find_put_self]
  · rw [hrow, Table.find_put_ne _ _ hw.ne]
    exact hlater w hw
  · rw [hcalls] at hd
    rcases List.mem_cons.mp hd with rfl | hd
    · exact le_refl _
    · exact hver d hd
  · rw [hcalls]
    exact rowCounts_put hrows hnew (hrow ▸ hs)
  · rw [hcalls]
    exact hlen
  · rw [hm x]
    split <;> omega
  · have hone : roundBlocks q.state sch = 1 := by
      have h0 : ∑ x ∈ sch.names.toFinset, (fun _ : Name => 0) x = 0 := Finset.sum_const_zero
      have hadd : ∑ x ∈ sch.names.toFinset, madeSince q.state sch x =
          (∑ x ∈ sch.names.toFinset, 0) + 1 :=
        sum_add_one (hnames ▸ hc.mem) fun x hx => by
          rw [hnames] at hx
          unfold madeSince
          rw [hm x]
          simp only [hx, true_and]
          omega
      unfold roundBlocks
      rw [hadd, h0]
    rw [hone, hset]
    exact Nat.add_comm _ _

/-- A settlement leaves each row with the count of the schedule's row, or with none. -/
theorem Counting.settled_monitor {d : BlockCall} {sch : ScheduleInfo} {br : BlockReward} {ch : Bool}
    {s' : State} {fx : List Effect} (hI : Counting p d sch br)
    (hs : RoundSettled c.env p.state sch br c.bpname ch s' fx) (x : Name) :
    (s'.monitor x).lastBlockNum = if ch then 0 else preBlockOut sch.producers x := by
  by_cases hx : x ∈ sch.names
  · obtain ⟨age, hrow⟩ := hs.rows.rows x hx
    unfold State.monitor
    rw [hrow, Option.getD_some, settleMonitor_lastBlockNum]
    rfl
  · have h0 := preBlockOut_of_not_mem hx
    have hm := (hI.bounds x).1
    have hsame : s'.monitor x = p.state.monitor x := by
      unfold State.monitor
      rw [hs.rows.others x hx]
    rw [hsame, h0]
    split <;> omega

/-- The counted row of the producers. -/
theorem Counting.preBlockOut_count {sch : ScheduleInfo} {br : BlockReward} {d : BlockCall}
    (hI : Counting p d sch br) (hroster : c.roster = d.roster) (hmem : c.bpname ∈ c.roster)
    (hlt : p.calls.length + 1 < 2 ^ 32) (x : Name) :
    preBlockOut (sch.count c.bpname).producers x =
      preBlockOut sch.producers x + if x ∈ c.roster ∧ x = c.bpname then 1 else 0 := by
  have hle := (hI.rows _ _ hI.lastRow.row).le_length c.bpname
  have hmem' : c.bpname ∈ sch.names := by rw [hI.names, ← hroster]; exact hmem
  apply (preBlockOut_addBlock hmem' (by omega)).trans
  by_cases hx : x = c.bpname
  · subst hx
    rw [if_pos rfl, if_pos ⟨hmem, rfl⟩]
  · rw [if_neg hx, if_neg fun e => hx e.2, Nat.add_zero]

/-- The first block of all. -/
theorem Production.Fresh.counting (hp : p.Fresh) (h : Produce p c q) :
    ∃ sch br, Counting q c sch br ∧ br.lastRewardBlockNum = c.block := by
  obtain ⟨hc, -, hcalls, fx, h⟩ := h
  obtain ⟨t, ded, ht, -, hr⟩ := onblock_rounds hc.enough h
  have hsch := congrArg Rounds.schedules hr
  have hbr : q.state.blockreward = t.blockreward := congrArg Rounds.blockreward hr
  have hmon : q.state.bpmonitor = t.bpmonitor := congrArg Rounds.bpmonitor hr
  simp only [State.rounds] at hsch
  simp only [settleRound, hp.schedules, Table.find_empty, rewardBlock, hp.blockreward, pure_eq_ok,
    ↓reduceIte, Prod.mk.injEq] at ht hsch
  obtain ⟨rfl, rfl⟩ := ht
  refine ⟨_, _, Counting.start hc hcalls (by simp [hp.calls])
    (by rw [hp.calls]; exact hc.block_pos) (fun w _ => by rw [hp.schedules]; rfl) (fun v s hs => ?_)
    (by rw [hsch, hp.schedules]) (newSchedule_names _ _) (RowCounts.new c hc (by simp [hp.calls]))
    hbr rfl fun x => ?_, rfl⟩
  · rw [hp.schedules] at hs
    cases hs
  · have h0 : q.state.monitor x = {} := by unfold State.monitor; rw [hmon, hp.bpmonitor]; rfl
    rw [preBlockOut_newSchedule, h0, Nat.zero_add]
    rfl

/-- The facts of a step that `onblock_roundStep` needs. -/
theorem Counting.roundStep {d : BlockCall} {sch : ScheduleInfo} {br : BlockReward} {s' : State}
    {fx : List Effect} (hI : Counting p d sch br) (hc : c.WellFormed) (hf : c.Follows d)
    (h : onblock c.env p.state c.bpname c.version = .ok (s', fx)) :
    RoundStep c.env p.state d.version sch br c.bpname c.version s' fx := by
  have hle := (hI.rows _ _ hI.lastRow.row).le_length c.bpname
  have hlen := hI.length
  have hblock := hf.1
  have hlt : c.block < 2 ^ 32 := c.env.currentBlockNum_lt
  refine onblock_roundStep hc.enough hI.lastRow ?_ hc.version_lt (hI.bounds c.bpname).1 (by omega) h
  rcases hf.2 with ⟨hv, -⟩ | hv <;> omega

/-- **Step lemma.** A block keeps the counts. -/
theorem Counting.step {d : BlockCall} {sch : ScheduleInfo} {br : BlockReward}
    (hI : Counting p d sch br) (h : Produce p c q) : ∃ sch' br', Counting q c sch' br' := by
  obtain ⟨hc, hf, hcalls, fx, h⟩ := h
  have hf := hf d hI.last
  have hlen := hI.length
  have hblock := hf.1
  have hlt : c.block < 2 ^ 32 := c.env.currentBlockNum_lt
  have hstep := hI.roundStep hc hf h
  cases hstep with
  | change hv hrow hs =>
    obtain ⟨⟨br', hbr', -, hset⟩, -⟩ := id hs
    refine ⟨_, br', Counting.start hc hcalls (fun x hx => ?_) (by omega)
      (fun w hw => hI.lastRow.later w (by omega)) hI.rows hrow
      (newSchedule_names _ _) (RowCounts.new c hc fun x hx => ?_) hbr' hset fun x => ?_⟩
    · have := hI.versions x hx; omega
    · have := hI.versions x hx; omega
    · rw [preBlockOut_newSchedule, hI.settled_monitor hs, if_pos rfl, Nat.zero_add]
      rfl
  | settle hv hmade hrow hs =>
    have hroster := hf.roster_eq hv
    have hmem : c.bpname ∈ sch.names := by rw [hI.names, ← hroster]; exact hc.mem
    have hrowc := hI.rows _ _ hI.lastRow.row
    rw [hv] at hrowc
    obtain ⟨⟨br', hbr', -, hset⟩, -⟩ := id hs
    refine ⟨_, br', Counting.start hc hcalls (fun x hx => hv ▸ hI.versions x hx) (by omega)
      (fun w hw => hI.lastRow.later w (by omega)) hI.rows hrow
      ((count_names _ _).trans (hI.names.trans hroster.symm)) (hrowc.count hmem (by omega)) hbr' hset
      fun x => ?_⟩
    rw [hI.preBlockOut_count hroster hc.mem (by omega), hI.settled_monitor hs]
    rfl
  | within hv hmade hrow hr hm hd =>
    have hroster := hf.roster_eq hv
    have hmem : c.bpname ∈ sch.names := by rw [hI.names, ← hroster]; exact hc.mem
    have hrowc := hI.rows _ _ hI.lastRow.row
    rw [hv] at hrowc
    have hnew := hrowc.count hmem (by omega)
    have hmon : ∀ x, q.state.monitor x = p.state.monitor x := fun x => by
      unfold State.monitor; rw [hm]
    have hcount := hI.preBlockOut_count (c := c) hroster hc.mem (by omega)
    have hset := hI.settled
    refine ⟨sch.count c.bpname, br, by rw [hcalls]; rfl, hc,
      ⟨?_, fun w hw => ?_, hr.trans hI.lastRow.reward, hnew.nodup⟩,
      (count_names _ _).trans (hI.names.trans hroster.symm), fun x hx => ?_, fun v s hs => ?_, ?_,
      fun x => ?_, by omega, ?_⟩
    · rw [hrow, Table.find_put_self]
    · rw [hrow, Table.find_put_ne _ _ hw.ne]
      exact hI.lastRow.later w (by omega)
    · rw [hcalls] at hx
      rcases List.mem_cons.mp hx with rfl | hx
      · exact le_refl _
      · exact hv ▸ hI.versions x hx
    · rw [hcalls]
      exact rowCounts_put hI.rows hnew (hrow ▸ hs)
    · rw [hcalls, List.length_cons]
      omega
    · have hb := hI.bounds x
      rw [hmon, hcount]
      unfold madeSince at hmade
      split
      · rename_i hx
        obtain ⟨-, rfl⟩ := hx
        omega
      · omega
    · have hadd : roundBlocks q.state (sch.count c.bpname) = roundBlocks p.state sch + 1 := by
        unfold roundBlocks
        rw [count_names]
        refine sum_add_one hmem fun x hx => ?_
        have hb := hI.bounds x
        have hx' : x ∈ c.roster := by rw [hroster, ← hI.names]; exact hx
        unfold madeSince
        rw [hmon, hcount]
        simp only [hx', true_and]
        omega
      have := hI.round
      omega

/-! ## Settlements -/

theorem Counting.settledRow_eq {d : BlockCall} {sch : ScheduleInfo} {br : BlockReward}
    (hI : Counting p d sch br) (hc : c.WellFormed) (hf : c.Follows d) :
    settledRow p.state c.version = some sch := by
  have hver := hc.version_lt
  unfold settledRow
  by_cases hv : d.version = c.version
  · rw [← hv, hI.lastRow.row]
    exact hI.lastRow.row
  · have hv' : c.version = d.version + 1 := by
      rcases hf.2 with ⟨e, -⟩ | e <;> omega
    rw [hI.lastRow.later c.version (by omega), Option.isNone_none, if_pos rfl,
      u32sub_of_le (by omega) hver, hv', Nat.add_sub_cancel]
    exact hI.lastRow.row

/-- A block settles a round, and is then the last settlement, or leaves the last one as it is. -/
theorem Counting.settlement {d : BlockCall} {sch : ScheduleInfo} {br : BlockReward}
    (hI : Counting p d sch br) (h : Produce p c q) :
    (IsSettlement (p, c, q) ∧
      ∃ br', q.state.blockreward = some br' ∧ br'.lastRewardBlockNum = c.block) ∨
    ¬IsSettlement (p, c, q) ∧ q.state.blockreward = p.state.blockreward := by
  obtain ⟨hc, hf, hcalls, fx, h⟩ := h
  have hf := hf d hI.last
  have hle := (hI.rows _ _ hI.lastRow.row).le_length c.bpname
  have hlen := hI.length
  have hblock := hf.1
  have hlt : c.block < 2 ^ 32 := c.env.currentBlockNum_lt
  have hcalls' : d.version = c.version → (callsRewardBlock p.state c.bpname c.version = true ↔
      0 < madeSince p.state sch c.bpname) := fun hv => by
    unfold callsRewardBlock
    rw [← hv, hI.lastRow.row]
    simp only [isRewardBlock_eq (hI.bounds c.bpname).1 (show _ < 2 ^ 32 by omega),
      decide_eq_true_eq]
  have hstep := hI.roundStep hc hf h
  cases hstep with
  | change hv hrow hs =>
    obtain ⟨br', hbr', -, hset⟩ := hs.reward
    refine .inl ⟨?_, br', hbr', hset⟩
    unfold IsSettlement callsRewardBlock
    rw [hI.lastRow.later c.version (by omega)]
  | settle hv hmade hrow hs =>
    obtain ⟨br', hbr', -, hset⟩ := hs.reward
    exact .inl ⟨(hcalls' hv).mpr hmade, br', hbr', hset⟩
  | within hv hmade hrow hr hm hd =>
    exact .inr ⟨fun hx => absurd ((hcalls' hv).mp hx) (by omega), hr⟩

/-- The next block comes at most 23 blocks after the last settlement. -/
theorem Counting.block_le {d : BlockCall} {sch : ScheduleInfo} {br : BlockReward}
    (hI : Counting p d sch br) (hf : c.Follows d) :
    c.block ≤ br.lastRewardBlockNum + 23 := by
  have hround := hI.round
  have hle := hI.roundBlocks_le
  have hblock := hf.1
  have h23 : numOfTopBps = 23 := rfl
  omega

end Step

theorem Produce.inv {p q : Production} {c : BlockCall} (hp : ProductionInv p)
    (h : Produce p c q) : ∃ sch br, Counting q c sch br := by
  rcases hp with hp | ⟨d, sch, br, hI⟩
  · obtain ⟨sch, br, hI, -⟩ := hp.counting h
    exact ⟨sch, br, hI⟩
  · exact hI.step h

/-- After a settlement, the row keeps its block. -/
theorem Produce.settlement {p q : Production} {c : BlockCall} (hp : ProductionInv p)
    (h : Produce p c q) (hset : IsSettlement (p, c, q)) :
    ∃ sch br, Counting q c sch br ∧ br.lastRewardBlockNum = c.block := by
  rcases hp with hp | ⟨d, sch, br, hI⟩
  · exact hp.counting h
  · obtain ⟨sch', br', hI'⟩ := hI.step h
    refine ⟨sch', br', hI', ?_⟩
    rcases hI.settlement h with ⟨-, br₂, hbr₂, hb⟩ | ⟨hn, -⟩
    · rw [hI'.lastRow.reward] at hbr₂
      exact Option.some.inj hbr₂ ▸ hb
    · exact absurd hset hn

theorem Run.productionInv {p q : Production} {tr : List (Production × BlockCall × Production)}
    (hp : ProductionInv p) (h : Run Produce p tr q) : ProductionInv q :=
  (h.inv hp fun _ c _ ht hs => .inr ⟨c, Produce.inv ht hs⟩).1

/-- After a settlement, `br` keeps its block until the next one. -/
theorem Run.reward_unsettled {p q : Production} {tr : List (Production × BlockCall × Production)}
    (h : Run Produce p tr q) {c : BlockCall} {sch : ScheduleInfo} {br : BlockReward}
    (hp : Counting p c sch br) (hno : ∀ x ∈ tr, ¬IsSettlement x) :
    ∃ c' sch', Counting q c' sch' br := by
  refine ((h.restrict hno).inv (I := fun q => ∃ c' sch', Counting q c' sch' br) ⟨c, sch, hp⟩
    ?_).1
  rintro t c' u ⟨d, sch', hI⟩ ⟨hs, hn⟩
  obtain ⟨sch₂, br₂, hI₂⟩ := hI.step hs
  rcases hI.settlement hs with ⟨hyes, -⟩ | ⟨-, hbr⟩
  · exact absurd hyes hn
  · rw [hI.lastRow.reward, hI₂.lastRow.reward] at hbr
    obtain rfl := Option.some.inj hbr
    exact ⟨c', sch₂, hI₂⟩

/-! ## The counts of a run -/

/-- What the rows say of the calls so far. -/
structure BlocksCounted (p : Production) : Prop where
  amounts : ∀ v sch, p.state.schedules.find v = some sch →
    ∀ x ∈ sch.producers, x.amount = callsOf p.calls v x.bpname
  latest : ∀ br v sch, p.state.blockreward = some br → p.state.schedules.last = some (v, sch) →
    ∀ x ∈ sch.producers, (p.state.monitor x.bpname).lastBlockNum ≤ x.amount ∧
      x.amount ≤ (p.state.monitor x.bpname).lastBlockNum + 1

/-- A settlement that finds a `blockreward` row reads counts that are at most one block ahead of the
monitor rows. -/
def SettlesOneBlock (e : Production × BlockCall × Production) : Prop :=
  ∀ br sch, e.1.state.blockreward = some br → settledRow e.1.state e.2.1.version = some sch →
    ∀ x ∈ sch.producers, (e.1.state.monitor x.bpname).lastBlockNum ≤ x.amount ∧
      e.1.state.producerNum x ≤ 1

theorem Counting.amount_bounds {p : Production} {c : BlockCall} {sch : ScheduleInfo}
    {br : BlockReward} (h : Counting p c sch br) {x : Producer} (hx : x ∈ sch.producers) :
    (p.state.monitor x.bpname).lastBlockNum ≤ x.amount ∧
      x.amount ≤ (p.state.monitor x.bpname).lastBlockNum + 1 := by
  have hb := h.bounds x.bpname
  rwa [preBlockOut_of_mem h.lastRow.nodup hx] at hb

theorem ProductionInv.blocksCounted {p : Production} (h : ProductionInv p) : BlocksCounted p := by
  rcases h with hp | ⟨c, sch, br, hI⟩
  · refine ⟨fun v sch hs => ?_, fun br v sch hbr => ?_⟩
    · rw [hp.schedules] at hs; cases hs
    · rw [hp.blockreward] at hbr; cases hbr
  · refine ⟨fun v sch hs x hx => (hI.rows v sch hs).amount_eq hx, fun br' v sch' _ hlast x hx => ?_⟩
    have hv : v = c.version := by
      have hle := Table.le_last hlast hI.lastRow.row
      by_contra hne
      have hnone := hI.lastRow.later v (by omega)
      rw [Table.find_last hlast] at hnone
      cases hnone
    have hrow := Table.find_last hlast
    rw [hv, hI.lastRow.row] at hrow
    obtain rfl := Option.some.inj hrow
    exact hI.amount_bounds hx

theorem ProductionInv.settlesOneBlock {p q : Production} {c : BlockCall} (h : ProductionInv p)
    (hs : Produce p c q) : SettlesOneBlock (p, c, q) := by
  intro br sch hbr hsch x hx
  obtain ⟨hc, hf, -⟩ := hs
  rcases h with hp | ⟨d, sch', br', hI⟩
  · rw [hp.blockreward] at hbr; cases hbr
  · have hf := hf d hI.last
    rw [hI.settledRow_eq hc hf] at hsch
    obtain rfl := Option.some.inj hsch
    obtain ⟨h1, h2⟩ := hI.amount_bounds hx
    have hle := (hI.rows _ _ hI.lastRow.row).le_length x.bpname
    rw [preBlockOut_of_mem hI.lastRow.nodup hx] at hle
    have hlen := hI.length
    have hlt : d.block < 2 ^ 32 := d.env.currentBlockNum_lt
    refine ⟨h1, ?_⟩
    unfold State.producerNum
    rw [u32sub_of_le h1 (by omega)]
    omega

/-- In a run of blocks, each row counts the calls for its version and each producer, the latest row
is at most one block ahead of the monitor rows when a round is settled and at any other time, and two
consecutive settlements are at most 23 blocks apart. -/
theorem blocks_counted {p q : Production} {tr : List (Production × BlockCall × Production)}
    (hp : p.Fresh) (h : Run Produce p tr q) :
    BlocksCounted q ∧ (∀ e ∈ tr, SettlesOneBlock e) ∧
      ∀ l₁ e l₂ e' l₃, tr = l₁ ++ e :: (l₂ ++ e' :: l₃) → IsSettlement e → IsSettlement e' →
        (∀ x ∈ l₂, ¬IsSettlement x) → e'.2.1.block ≤ e.2.1.block + 23 := by
  have hinv := Run.productionInv (.inl hp) h
  refine ⟨hinv.blocksCounted, fun e he => ?_, ?_⟩
  · obtain ⟨l, l', rfl⟩ := List.append_of_mem he
    obtain ⟨hr, hs, -⟩ := h.split_at
    exact (Run.productionInv (.inl hp) hr).settlesOneBlock hs
  · rintro l₁ e l₂ e' l₃ rfl hset - hno
    obtain ⟨hr, hs, hr'⟩ := h.split_at
    obtain ⟨hr₂, hs', -⟩ := hr'.split_at
    obtain ⟨sch, br, hI, hlast⟩ := Produce.settlement (Run.productionInv (.inl hp) hr) hs hset
    obtain ⟨c', sch', hI'⟩ := Run.reward_unsettled hr₂ hI hno
    have := hI'.block_le (hs'.2.1 c' hI'.last)
    omega

/-! ### Two rounds -/

/-- After a block of a producer. -/
def Production.block (p : Production) (block : Nat) (b : Name) (v : Nat) : Production :=
  ⟨execTo (Env.block block) p.state (.onblock b v), ⟨Env.block block, b, v⟩ :: p.calls⟩

theorem Production.block_produce {p : Production} {block v : Nat} {b : Name}
    (hb : b < 23) (hv : v < 2 ^ 32) (hpos : 0 < u32 block)
    (hf : ∀ d ∈ p.calls.head?, BlockCall.Follows ⟨Env.block block, b, v⟩ d)
    (hx : (exec (Env.block block) p.state (.onblock b v)).isOk = true) :
    Produce p ⟨Env.block block, b, v⟩ (p.block block b v) :=
  ⟨⟨le_refl _, List.nodup_range, List.mem_range.mpr hb, hv, hpos⟩, hf, rfl, exec_execTo hx⟩

/-- Producer 0 makes the first block, and the next two are of producer 1: the third one settles the
round. -/
theorem blocks_counted_threeBlocks :
    let p₁ := (Production.mk {} []).block 1 0 1
    let p₂ := p₁.block 2 1 1
    let p₃ := p₂.block 3 1 1
    BlocksCounted p₃ ∧ SettlesOneBlock (p₂, ⟨Env.block 3, 1, 1⟩, p₃) ∧ u32 3 ≤ u32 1 + 23 := by
  intro p₁ p₂ p₃
  have hfollow : ∀ n b b', u32 (n + 1) = u32 n + 1 →
      BlockCall.Follows ⟨Env.block (n + 1), b, 1⟩ ⟨Env.block n, b', 1⟩ :=
    fun n b b' hn => ⟨hn, .inl ⟨rfl, rfl⟩⟩
  have hrun : Run Produce ⟨{}, []⟩ [(⟨{}, []⟩, ⟨Env.block 1, 0, 1⟩, p₁),
      (p₁, ⟨Env.block 2, 1, 1⟩, p₂), (p₂, ⟨Env.block 3, 1, 1⟩, p₃)] p₃ := by
    refine .snoc (.snoc (.snoc .nil ?_) ?_) ?_
    · exact Production.block_produce (by decide) (by decide) (by decide) (by simp) (by decide)
    · refine Production.block_produce (by decide) (by decide) (by decide) ?_ (by decide +kernel)
      rintro d hd
      cases hd
      exact hfollow 1 1 0 (by decide)
    · refine Production.block_produce (by decide) (by decide) (by decide) ?_ (by decide +kernel)
      rintro d hd
      cases hd
      exact hfollow 2 1 1 (by decide)
  obtain ⟨hc, hs, hd⟩ := blocks_counted ⟨rfl, rfl, rfl, rfl⟩ hrun
  exact ⟨hc, hs _ (by simp), hd [] _ [_] _ [] rfl rfl (by unfold IsSettlement; decide +kernel)
    (by unfold IsSettlement; simp only [List.mem_singleton, forall_eq]; decide +kernel)⟩

end Eosforce.System
