import Eosforce.System.BlockAge
import Eosforce.System.Versions

/-!
# A bound of the block ages

A block adds at most `2 ^ 32 - 1` to the ages: it is one block of one producer, and its age counts
once, when its round is settled. A chain has fewer than `2 ^ 32` blocks, so the sum of the ages stays
below `2 ^ 64`.

* `OnChain`: what a chain gives to `onblock`: distinct active producers, and versions that never fall.
* `unsettled`: the blocks of a schedule row that no settlement has counted.
* `AgesBounded`, `AgesBounded.step`: the invariant, with the number of counted blocks.
-/

namespace Eosforce.System

open Fallible Keyed Runs

variable {env : Env} {s s' : State} {b : Name} {v : Nat}

/-! ## The age of a block -/

/-- The largest age of one block. -/
def maxBlockAge : Nat := 2 ^ 32 - 1

theorem bpAge_le (env : Env) (b : Name) (n stability : Nat) :
    bpAge env b n stability ≤ maxBlockAge * n := by
  unfold bpAge
  split
  · exact Nat.zero_le _
  · split
    · exact Nat.zero_le _
    · rcases Nat.eq_zero_or_pos n with rfl | hn
      · rw [Nat.zero_mul]
        exact le_refl _
      · have hlt := u32_lt (n * stability)
        exact (show u32 (n * stability) ≤ maxBlockAge by unfold maxBlockAge; omega).trans
          (Nat.le_mul_of_pos_right _ hn)

/-- The blocks of these producers that no settlement has counted. -/
def unsettled (s : State) (l : List Producer) : Nat :=
  (l.map fun x => x.amount - (s.monitor x.bpname).lastBlockNum).sum

theorem unsettled_cons (s : State) (x : Producer) (l : List Producer) :
    unsettled s (x :: l) = x.amount - (s.monitor x.bpname).lastBlockNum + unsettled s l := by
  rw [unsettled, List.map_cons, List.sum_cons]
  rfl

theorem unsettled_congr {t : State} {l : List Producer}
    (h : ∀ x ∈ l, t.monitor x.bpname = s.monitor x.bpname) : unsettled t l = unsettled s l := by
  unfold unsettled
  exact congrArg List.sum (List.map_congr_left fun x hx => by rw [h x hx])

/-- A settlement adds at most `2 ^ 32 - 1` for each block. -/
theorem settleLoop_ageSum {c : Settlement} (l : List Producer) :
    ∀ {k : Nat} {acc acc' : State × Nat × List Effect}, (l.map Producer.bpname).Nodup →
      (∀ x ∈ l, (acc.1.monitor x.bpname).lastBlockNum ≤ x.amount ∧ x.amount < 2 ^ 32) →
      (l.zipIdx k).foldlM (settleProducer env c) acc = .ok acc' →
      ageSum acc'.1.bpmonitor ≤ ageSum acc.1.bpmonitor + maxBlockAge * unsettled acc.1 l := by
  induction l with
  | nil =>
    intro k acc acc' _ _ h
    cases h
    simp [unsettled]
  | cons p l ih =>
    intro k acc acc' hnd hle h
    obtain ⟨hp, hnd⟩ := List.nodup_cons.mp hnd
    rw [List.zipIdx_cons, List.foldlM_cons, bind_eq_ok] at h
    obtain ⟨t, ht, h⟩ := h
    obtain ⟨⟨m, hm, hput⟩, -⟩ := settleProducer_ages ht
    simp only at hm hput
    -- the iteration leaves the rows of the rest alone
    have hsame : ∀ x ∈ l, t.1.monitor x.bpname = acc.1.monitor x.bpname := fun x hx => by
      have hne : p.bpname ≠ x.bpname := fun e => hp (e ▸ List.mem_map_of_mem hx)
      unfold State.monitor
      rw [hput, Table.find_put_ne _ _ hne]
    have hrest := ih hnd (fun x hx => by
      rw [hsame x hx]
      exact hle x (List.mem_cons_of_mem _ hx)) h
    rw [unsettled_congr hsame, hput, ageSum_put, hm] at hrest
    obtain ⟨hlast, hlt⟩ := hle p List.mem_cons_self
    have hage : acc.1.ageOf env p ≤
        maxBlockAge * (p.amount - (acc.1.monitor p.bpname).lastBlockNum) := by
      unfold State.ageOf State.producerNum
      rw [u32sub_of_le hlast hlt]
      exact bpAge_le _ _ _ _
    have hwrap : u64 ((acc.1.monitor p.bpname).bockAge + acc.1.ageOf env p) ≤
        (acc.1.monitor p.bpname).bockAge + acc.1.ageOf env p := Nat.mod_le _ _
    rw [unsettled_cons, Nat.cast_add, Int.mul_add]
    have hage' : (acc.1.ageOf env p : Int) ≤
        maxBlockAge * ((p.amount - (acc.1.monitor p.bpname).lastBlockNum : Nat) : Int) := by
      exact_mod_cast hage
    omega

/-! ## The invariant -/

/-- What a chain gives to `onblock`: its active producers are distinct, and the `uint32_t` version of
the schedule is never below an earlier one. -/
def OnChain (s : State) (a : Env × Action) : Prop :=
  ∀ b v, a.2 = .onblock b v → a.1.activeProducers.Nodup ∧ v < 2 ^ 32 ∧
    ∀ w sch, s.schedules.find w = some sch → w ≤ v

/-- The producers of the row of the last version. -/
def lastProducers (s : State) : List Producer :=
  match s.schedules.last with
  | none => []
  | some r => r.2.producers

theorem lastProducers_of_last {r : Nat × ScheduleInfo} (h : s.schedules.last = some r) :
    lastProducers s = r.2.producers := by
  unfold lastProducers
  rw [h]

/-- After `n` counted blocks: the rows of the last version are not behind their monitor rows, and the
ages with the unsettled blocks are at most those of `n` blocks. -/
structure AgesBounded (n : Nat) (s : State) : Prop where
  reward : s.blockreward = none → s.schedules.last = none
  nodup : ((lastProducers s).map Producer.bpname).Nodup
  amounts : ∀ x ∈ lastProducers s, (s.monitor x.bpname).lastBlockNum ≤ x.amount ∧ x.amount ≤ n
  others : ∀ q, q ∉ (lastProducers s).map Producer.bpname → (s.monitor q).lastBlockNum = 0
  ages : ageSum s.bpmonitor + maxBlockAge * unsettled s (lastProducers s) ≤ maxBlockAge * n

theorem AgesBounded.lt {n : Nat} (h : AgesBounded n s) (hn : n < 2 ^ 32) :
    ageSum s.bpmonitor < 2 ^ 64 := by
  have hages := h.ages
  have hpos : (0 : Int) ≤ maxBlockAge * unsettled s (lastProducers s) := Int.natCast_nonneg _
  have hle : (maxBlockAge : Int) * n ≤ (2 ^ 32 - 1) * (2 ^ 32 - 1) :=
    mul_le_mul (by decide) (by omega) (Int.natCast_nonneg _) (by decide)
  omega

theorem Genesis.agesBounded (hg : Genesis s) : AgesBounded 0 s := by
  have hrow : lastProducers s = [] := by
    unfold lastProducers
    rw [hg.schedules]
    rfl
  refine ⟨fun _ => by rw [hg.schedules]; rfl, ?_, ?_, fun q _ => ?_, ?_⟩
  · rw [hrow]
    exact List.nodup_nil
  · rw [hrow]
    exact fun x hx => by cases hx
  · rw [State.monitor, hg.bpmonitor]
    rfl
  · rw [hrow, hg.bpmonitor]
    simp [ageSum, unsettled]

/-- Another action, which leaves the rows and their counters alone. -/
theorem AgesBounded.congr {n : Nat} (h : AgesBounded n s) (hsch : s'.schedules = s.schedules)
    (hbr : s'.blockreward = none → s.blockreward = none)
    (hlast : ∀ q, (s'.monitor q).lastBlockNum = (s.monitor q).lastBlockNum)
    (hage : ageSum s'.bpmonitor ≤ ageSum s.bpmonitor) : AgesBounded n s' := by
  have hrow : lastProducers s' = lastProducers s := by
    unfold lastProducers
    rw [hsch]
  have hun : unsettled s' (lastProducers s) = unsettled s (lastProducers s) := by
    unfold unsettled
    exact congrArg List.sum (List.map_congr_left fun x _ => by rw [hlast])
  refine ⟨fun hn => ?_, hrow ▸ h.nodup, fun x hx => ?_, fun q hq => ?_, ?_⟩
  · rw [hsch]
    exact h.reward (hbr hn)
  · rw [hlast]
    exact h.amounts x (hrow ▸ hx)
  · rw [hlast]
    exact h.others q (hrow ▸ hq)
  · rw [hrow, hun]
    have := h.ages
    omega

/-- A settlement of the last row counts all its blocks. -/
theorem AgesBounded.settle {n : Nat} (h : AgesBounded n s) (hn : n < 2 ^ 32) {c : Settlement}
    {t u : State} {age : Nat} {fx : List Effect}
    (hloop : (lastProducers s).zipIdx.foldlM (settleProducer env c) (u, 0, []) = .ok (t, age, fx))
    (hu : u.bpmonitor = s.bpmonitor) :
    ageSum t.bpmonitor ≤ maxBlockAge * n ∧ ∀ q, (t.monitor q).lastBlockNum =
      if c.isChangeProducers then 0 else preBlockOut (lastProducers s) q := by
  have hm : ∀ q, u.monitor q = s.monitor q := fun q => by rw [State.monitor, hu]; rfl
  have hsum := settleLoop_ageSum (lastProducers s) h.nodup
    (fun x hx => by
      rw [hm]
      exact ⟨(h.amounts x hx).1, lt_of_le_of_lt (h.amounts x hx).2 hn⟩) hloop
  rw [unsettled_congr fun x _ => hm x.bpname, hu] at hsum
  obtain ⟨-, fx', -, hset⟩ := settleLoop_spec (lastProducers s) h.nodup hloop
  refine ⟨hsum.trans h.ages, fun q => ?_⟩
  by_cases hq : q ∈ (lastProducers s).map Producer.bpname
  · obtain ⟨age', hrow⟩ := hset.rows q hq
    rw [State.monitor, hrow, Option.getD_some, settleMonitor_lastBlockNum]
  · rw [State.monitor, hset.others q hq, preBlockOut_of_not_mem hq, ite_self]
    refine Eq.trans ?_ (h.others q hq)
    rw [← hm q]
    rfl

/-! ### A new version -/

theorem unsettled_new {l : List Name} (hl : l.Nodup) (hm : ∀ q, (s.monitor q).lastBlockNum = 0) :
    unsettled s (l.map fun n => ⟨n, if n = b then 1 else 0⟩) ≤ 1 := by
  have hone : unsettled s (l.map fun n => ⟨n, if n = b then 1 else 0⟩) = l.count b := by
    clear hl
    induction l with
    | nil => rfl
    | cons q l ih =>
      rw [List.map_cons, unsettled_cons, ih, hm, List.count_cons, Nat.sub_zero, Nat.add_comm]
      simp only [beq_iff_eq]
  rw [hone]
  exact List.nodup_iff_count_le_one.mp hl b

/-- The first block of a new version, after a settlement that the change brought. -/
theorem AgesBounded.opened {n : Nat} {t : State} (hnd : env.activeProducers.Nodup)
    (hreward : s'.blockreward ≠ none) (hmon : s'.bpmonitor = t.bpmonitor)
    (hrow : lastProducers s' = (newSchedule env b).producers)
    (hages : ageSum t.bpmonitor ≤ maxBlockAge * n) (hlast : ∀ q, (t.monitor q).lastBlockNum = 0) :
    AgesBounded (n + 1) s' := by
  have hlast' : ∀ q, (s'.monitor q).lastBlockNum = 0 := fun q => by
    rw [State.monitor, hmon]
    exact hlast q
  have htake := hnd.sublist (List.take_sublist numOfTopBps env.activeProducers)
  refine ⟨fun hn => absurd hn hreward, ?_, fun x hx => ?_, fun q _ => hlast' q, ?_⟩
  · rw [hrow, show (newSchedule env b).producers.map Producer.bpname = _ from
      newSchedule_names env b]
    exact htake
  · rw [hlast']
    refine ⟨Nat.zero_le _, ?_⟩
    rw [hrow] at hx
    obtain ⟨q, -, rfl⟩ := List.mem_map.mp hx
    simp only
    split <;> omega
  · have hone : unsettled s' (lastProducers s') ≤ 1 := by
      rw [hrow]
      exact unsettled_new htake hlast'
    rw [hmon, Nat.cast_add, Int.mul_add]
    have hle : (maxBlockAge : Int) * unsettled s' (lastProducers s') ≤ maxBlockAge * (1 : Nat) :=
      mul_le_mul_of_nonneg_left (by exact_mod_cast hone) (by decide)
    omega

/-! ### One more block of a version -/

theorem mem_addBlock {l : List Producer} {x : Producer} (h : x ∈ addBlock b l) :
    ∃ y ∈ l, y.bpname = x.bpname ∧ (x.amount = y.amount ∨ x.amount = u32 (y.amount + 1)) := by
  induction l with
  | nil => cases h
  | cons p l ih =>
    unfold addBlock at h
    split at h
    · rcases List.mem_cons.mp h with rfl | h
      · exact ⟨p, List.mem_cons_self, rfl, .inr rfl⟩
      · exact ⟨x, List.mem_cons_of_mem _ h, rfl, .inl rfl⟩
    · rcases List.mem_cons.mp h with rfl | h
      · exact ⟨x, List.mem_cons_self, rfl, .inl rfl⟩
      · obtain ⟨y, hy, heq⟩ := ih h
        exact ⟨y, List.mem_cons_of_mem _ hy, heq⟩

theorem unsettled_addBlock (s : State) (b : Name) (l : List Producer) :
    unsettled s (addBlock b l) ≤ unsettled s l + 1 := by
  induction l with
  | nil => exact Nat.zero_le _
  | cons p l ih =>
    unfold addBlock
    split
    · have hle : u32 (p.amount + 1) ≤ p.amount + 1 := Nat.mod_le _ _
      rw [unsettled_cons, unsettled_cons]
      simp only
      omega
    · rw [unsettled_cons, unsettled_cons]
      omega

/-- A block of the last version, after a settlement or within the round. -/
theorem AgesBounded.counted {n : Nat} {t : State} (h : AgesBounded n s) (hn : n + 1 < 2 ^ 32)
    (hreward : s'.blockreward ≠ none) (hmon : s'.bpmonitor = t.bpmonitor)
    (hrow : lastProducers s' = addBlock b (lastProducers s))
    (hle : ∀ x ∈ lastProducers s, (t.monitor x.bpname).lastBlockNum ≤ x.amount)
    (hothers : ∀ q, q ∉ (lastProducers s).map Producer.bpname → (t.monitor q).lastBlockNum = 0)
    (hages : ageSum t.bpmonitor + maxBlockAge * unsettled t (lastProducers s) ≤ maxBlockAge * n) :
    AgesBounded (n + 1) s' := by
  have hm : ∀ q, s'.monitor q = t.monitor q := fun q => by rw [State.monitor, hmon]; rfl
  refine ⟨fun hn => absurd hn hreward, ?_, fun x hx => ?_, fun q hq => ?_, ?_⟩
  · rw [hrow, map_addBlock]
    exact h.nodup
  · rw [hrow] at hx
    obtain ⟨y, hy, hname, hamount⟩ := mem_addBlock hx
    have hy' := hle y hy
    have hn' := (h.amounts y hy).2
    rw [u32_of_lt (by omega)] at hamount
    rw [hm, ← hname]
    omega
  · rw [hrow, map_addBlock] at hq
    rw [hm]
    exact hothers q hq
  · have hone : unsettled s' (lastProducers s') ≤ unsettled t (lastProducers s) + 1 := by
      rw [hrow, ← unsettled_congr (s := s') (t := t) fun x _ => (hm x.bpname).symm]
      exact unsettled_addBlock _ _ _
    have hmul : (maxBlockAge : Int) * unsettled s' (lastProducers s') ≤
        maxBlockAge * unsettled t (lastProducers s) + maxBlockAge := by
      have := mul_le_mul_of_nonneg_left (a := (maxBlockAge : Int))
        (show ((unsettled s' (lastProducers s') : Nat) : Int) ≤ unsettled t (lastProducers s) + 1 by
          exact_mod_cast hone) (by decide)
      rwa [Int.mul_add, Int.mul_one] at this
    rw [hmon, Nat.cast_add, Int.mul_add, Nat.cast_one, Int.mul_one]
    omega

/-! ### Steps -/

/-- The settlement that the first block of a new version brings. -/
theorem AgesBounded.change {n : Nat} (h : AgesBounded n s) (hn : n < 2 ^ 32) {sch : ScheduleInfo}
    {t : State} {fx : List Effect} (hv : v < 2 ^ 32)
    (hmax : ∀ w r, s.schedules.find w = some r → w ≤ v) (hnone : s.schedules.find v = none)
    (ht : rewardBlock env { s with schedules := s.schedules.put v sch } b v true = .ok (t, fx)) :
    ageSum t.bpmonitor ≤ maxBlockAge * n ∧ ∀ q, (t.monitor q).lastBlockNum = 0 := by
  cases hbr : s.blockreward with
  | none =>
    have hrow : lastProducers s = [] := by
      unfold lastProducers
      rw [h.reward hbr]
    have hmon : t.bpmonitor = s.bpmonitor := by
      rw [rewardBlock, hbr] at ht
      cases ht
      rfl
    have hages := h.ages
    have hothers := h.others
    rw [hrow] at hages hothers
    refine ⟨?_, fun q => ?_⟩
    · rw [hmon]
      simpa [unsettled] using hages
    · rw [State.monitor, hmon]
      exact hothers q (by simp)
  | some br =>
    simp only [rewardBlock, hbr, if_true, bind_eq_ok, fetch_eq_ok, pure_eq_ok, Prod.exists,
      Prod.mk.injEq] at ht
    obtain ⟨sch', hfind, u, age, fx', hloop, _, -, rfl, -⟩ := ht
    -- the row that the settlement reads is the one of the last version
    have hne : v ≠ u32sub v 1 := by
      unfold u32sub u32OfInt
      omega
    rw [Table.find_put_ne _ _ hne] at hfind
    have hpos : 0 < v := by
      have hle := hmax _ _ hfind
      unfold u32sub u32OfInt at hle
      omega
    have hlast : s.schedules.last = some (v - 1, sch') := by
      rw [u32sub_of_le (by omega) hv] at hfind
      refine Table.last_of_max hfind fun w r hw => ?_
      have hle := hmax w r hw
      have hwv : w ≠ v := fun e => by
        rw [e, hnone] at hw
        cases hw
      omega
    have hrow : lastProducers s = sch'.producers := lastProducers_of_last hlast
    rw [← hrow] at hloop
    exact h.settle hn hloop rfl

/-- A block of the last version settles its round or is within it. -/
theorem AgesBounded.round {n : Nat} (h : AgesBounded n s) (hn : n < 2 ^ 32) {sch : ScheduleInfo}
    {t : State} {fx : List Effect} (hlast : s.schedules.last = some (v, sch))
    (ht : t = s ∨ rewardBlock env s b v false = .ok (t, fx)) :
    (∀ x ∈ lastProducers s, (t.monitor x.bpname).lastBlockNum ≤ x.amount) ∧
      (∀ q, q ∉ (lastProducers s).map Producer.bpname → (t.monitor q).lastBlockNum = 0) ∧
      ageSum t.bpmonitor + maxBlockAge * unsettled t (lastProducers s) ≤ maxBlockAge * n := by
  rcases ht with rfl | ht
  · exact ⟨fun x hx => (h.amounts x hx).1, h.others, h.ages⟩
  cases hbr : s.blockreward with
  | none =>
    have hnone := h.reward hbr
    rw [hlast] at hnone
    cases hnone
  | some br =>
    simp only [rewardBlock, hbr, Bool.false_eq_true, if_false, bind_eq_ok, fetch_eq_ok, pure_eq_ok,
      Prod.exists, Prod.mk.injEq] at ht
    obtain ⟨sch', hfind, u, age, fx', hloop, _, -, rfl, -⟩ := ht
    obtain rfl : sch = sch' := Option.some.inj ((Table.find_last hlast).symm.trans hfind)
    have hrow : lastProducers s = sch.producers := lastProducers_of_last hlast
    rw [← hrow] at hloop
    obtain ⟨hages, hset⟩ := h.settle hn hloop rfl
    -- every row has the count of its producer, so no block is left
    have hamount : ∀ x ∈ lastProducers s, (u.monitor x.bpname).lastBlockNum = x.amount :=
      fun x hx => (hset x.bpname).trans (preBlockOut_of_mem h.nodup hx)
    have hzero : unsettled u (lastProducers s) = 0 := by
      apply List.sum_eq_zero
      intro m hm
      obtain ⟨x, hx, rfl⟩ := List.mem_map.mp hm
      rw [hamount x hx, Nat.sub_self]
    refine ⟨fun x hx => (hamount x hx).le, fun q hq => ?_, ?_⟩
    · exact (hset q).trans (preBlockOut_of_not_mem hq)
    · show ageSum u.bpmonitor + maxBlockAge * unsettled u (lastProducers s) ≤ maxBlockAge * n
      rw [hzero]
      simpa using hages

theorem AgesBounded.onblock {n : Nat} (h : AgesBounded n s) (hn : n + 1 < 2 ^ 32)
    (hchain : OnChain s (env, .onblock b v)) {fx : List Effect}
    (hact : numOfTopBps ≤ env.activeProducers.length) (hx : onblock env s b v = .ok (s', fx)) :
    AgesBounded (n + 1) s' := by
  obtain ⟨hnd, hv, hmax⟩ := hchain b v rfl
  obtain ⟨t, ded, ht, -, hr⟩ := onblock_rounds hact hx
  have hsch := congrArg Rounds.schedules hr
  have hmon : s'.bpmonitor = t.bpmonitor := congrArg Rounds.bpmonitor hr
  simp only [State.rounds] at hsch
  have hreward : s'.blockreward ≠ none := by
    rw [Option.ne_none_iff_isSome, (onblock_rows hact hx).2]
    cases hf : s.schedules.find v with
    | none => exact .inr rfl
    | some sch =>
      refine .inl (Option.isSome_iff_ne_none.mpr fun hbr => ?_)
      have hlast := Table.last_of_max hf hmax
      rw [h.reward hbr] at hlast
      cases hlast
  cases hf : s.schedules.find v with
  | none =>
    rw [hf] at hsch
    simp only [settleRound, hf] at ht
    have ht' := rewardBlock_frame (f := State.schedules) (fun _ _ _ _ => rfl) ht
    obtain ⟨hages, hzero⟩ := h.change (Nat.lt_of_succ_lt hn) hv hmax hf ht
    have hrow : lastProducers s' = (newSchedule env b).producers :=
      lastProducers_of_last (by rw [hsch, ht']; exact Table.last_put hmax _)
    exact AgesBounded.opened hnd hreward hmon hrow hages hzero
  | some sch =>
    rw [hf] at hsch
    have hlast := Table.last_of_max hf hmax
    have ht' : t.schedules = s.schedules ∧ (t = s ∨ rewardBlock env s b v false = .ok (t, ded)) := by
      simp only [settleRound, hf, ite_eq_ok, pure_eq_ok, Prod.mk.injEq] at ht
      rcases ht with ⟨-, ht⟩ | ⟨-, rfl, -⟩
      · exact ⟨rewardBlock_frame (f := State.schedules) (fun _ _ _ _ => rfl) ht, .inr ht⟩
      · exact ⟨rfl, .inl rfl⟩
    obtain ⟨hle, hothers, hages⟩ := h.round (Nat.lt_of_succ_lt hn) hlast ht'.2
    have hrow : lastProducers s' = addBlock b (lastProducers s) := by
      rw [lastProducers_of_last hlast]
      exact lastProducers_of_last (by rw [hsch, ht'.1]; exact Table.last_put hmax _)
    exact h.counted hn hreward hmon hrow hle hothers hages

/-- An action that is no counted block. -/
theorem AgesBounded.other {n : Nat} (h : AgesBounded n s) {a : Action} {fx : List Effect}
    (ha : countedBlock (env, a) = none) (hx : exec env s a = .ok (s', fx)) : AgesBounded n s' := by
  obtain ⟨hsch, hbr⟩ := exec_rows ha hx
  have hnone : s'.blockreward = none → s.blockreward = none := fun hn => by
    rw [hn] at hbr
    exact Option.isNone_iff_eq_none.mp (Option.isSome_eq_false_iff.mp hbr.symm)
  by_cases hblock : ∃ b v, a = .onblock b v
  · obtain ⟨b, v, rfl⟩ := hblock
    have hact : env.activeProducers.length < numOfTopBps := by
      by_contra hact
      rw [show countedBlock (env, .onblock b v) = some b from if_neg hact] at ha
      cases ha
    obtain ⟨rfl, -⟩ := onblock_idle hact hx
    exact h
  by_cases hclaim : ∃ b, a = .bpclaim b
  · obtain ⟨b, rfl⟩ := hclaim
    obtain ⟨t, x, ht, hr⟩ := bpclaim_rounds (silent_eq_ok.mp hx).1
    have hmon : s'.bpmonitor = t.bpmonitor := congrArg Rounds.bpmonitor hr
    have hm : ∀ q, s'.monitor q = t.monitor q := fun q => by rw [State.monitor, hmon]; rfl
    rcases claimBlockOut_ages ht with ⟨rfl, -⟩ | ⟨br, m, br', -, hrow, -, -, -, rfl⟩
    · exact h.congr hsch hnone (fun q => by rw [hm]) (by rw [hmon])
    · refine h.congr hsch hnone (fun q => ?_) ?_
      · rw [hm, State.monitor, Table.find_put]
        split
        · subst_vars
          rw [State.monitor, hrow]
          rfl
        · rfl
      · have h0 : ({ m with bockAge := 0 } : BpMonitor).bockAge = 0 := rfl
        rw [hmon, ageSum_put, h0]
        omega
  · have hc := exec_counters (fun b v e => hblock ⟨b, v, e⟩) (fun b e => hclaim ⟨b, e⟩) hx
    exact h.congr hsch hnone hc.last hc.ageSum.le

/-- **Step lemma.** -/
theorem AgesBounded.step {tr : Trace} {p q : Point} {a : Env × Action}
    (hI : AgesBounded (countedBlocks tr).length p.state)
    (hlen : (countedBlocks (tr ++ [(p, a, q)])).length < 2 ^ 32) (hchain : OnChain p.state a)
    (h : Step p a q) : AgesBounded (countedBlocks (tr ++ [(p, a, q)])).length q.state := by
  obtain ⟨env, act⟩ := a
  obtain ⟨-, -, fx, hx⟩ := h
  have hsnoc : countedBlocks (tr ++ [(p, (env, act), q)]) =
      countedBlocks tr ++ (countedBlock (env, act)).toList := by
    rw [countedBlocks, List.filterMap_append]
    cases hc : countedBlock (env, act) <;> simp [countedBlocks, hc]
  rw [hsnoc, List.length_append] at hlen ⊢
  cases hc : countedBlock (env, act) with
  | none => exact hI.other hc hx
  | some b =>
    rw [hc] at hlen
    unfold countedBlock at hc
    split at hc
    · rename_i b v ha
      simp only at ha
      subst ha
      have hact : ¬env.activeProducers.length < numOfTopBps := fun hlt => by
        rw [if_pos hlt] at hc
        cases hc
      exact hI.onblock hlen hchain (Nat.not_lt.mp hact) hx
    · cases hc

/-- On a chain, whose blocks have `uint32_t` numbers, the sum of the ages is a `uint64_t`. -/
theorem Run.ageSum_lt {tr : Trace} {q : Point} (hg : Genesis s) (h : Run Step ⟨s, 0⟩ tr q)
    (hchain : ∀ e ∈ tr, OnChain e.1.state e.2.1) (hlen : (countedBlocks tr).length < 2 ^ 32) :
    ageSum q.state.bpmonitor < 2 ^ 64 := by
  have hmono : ∀ (l : Trace) (e : Point × (Env × Action) × Point),
      (countedBlocks l).length ≤ (countedBlocks (l ++ [e])).length := fun l e => by
    rw [countedBlocks, countedBlocks, List.filterMap_append, List.length_append]
    exact Nat.le_add_right _ _
  have hI := (h.restrict hchain).history
    (I := fun tr p => (countedBlocks tr).length < 2 ^ 32 →
      AgesBounded (countedBlocks tr).length p.state) (fun _ => hg.agesBounded)
    fun tr t a u hI hs hlt => (hI (lt_of_le_of_lt (hmono _ _) hlt)).step hlt hs.2 hs.1
  exact (hI hlen).lt hlen

end Eosforce.System
