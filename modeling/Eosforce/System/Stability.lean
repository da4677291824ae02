import Eosforce.System.BlockAge

/-!
# The stability of a producer

A settlement counts the blocks that a producer makes in a row, gives its stability a bonus, and sets
the stability back to the base after too many drain blocks.

* `RowEvent`: a settlement of the monitor row of a producer, or a write of its other fields.
* `Watched`: the row with what has happened since the last reset and the last drain block.
* `stability_iff`: the stability is the base and the multiples of 9 that the count was raised to, up
  to the limit, exactly if no settlement below the limit raises the count to a multiple of 9 or
  leaves it one before a multiple of 9.
* `run_watches`: a run of the contract is a run of such events for the row of each producer.
-/

namespace Eosforce.System

open Fallible Keyed Runs

variable {env : Env} {s s' : State} {c : Settlement} {m m' : BpMonitor} {limit : Nat}

/-! ## Settlements of a row -/

/-- The blocks that a settlement counts for a producer. -/
def producedNum (amount : Nat) (m : BpMonitor) : Nat := u32sub amount m.lastBlockNum

/-- The blocks in a row after a settlement. -/
def producedInRow (m : BpMonitor) (amount : Nat) (d : Int) : Nat :=
  if d > 0 then 0 else u32 (m.consecutiveProduceBlock + producedNum amount m)

/-- The drain blocks in a row after a settlement. -/
def drainedInRow (m : BpMonitor) (d : Int) : Nat :=
  if d > 0 then u32OfInt (m.consecutiveDrainBlock + d) else 0

/-- Whether a settlement that leaves a count of blocks in a row gives the bonus. -/
def givesBonus (count : Nat) : Prop := u32 (count + 1) % bpPubishDrainNum = 0

instance (count : Nat) : Decidable (givesBonus count) := inferInstanceAs (Decidable (_ = _))

/-- What the bonus and the reset read of a row: the blocks and drain blocks in a row, and the
stability. -/
def BpMonitor.inRow (m : BpMonitor) : Nat × Nat × Nat :=
  (m.consecutiveProduceBlock, m.consecutiveDrainBlock, m.stability)

theorem countRound_inRow {m : BpMonitor} (m' : BpMonitor) (h : m'.inRow = m.inRow) (amount : Nat)
    (d : Int) :
    (countRound m' d (producedNum amount m)).inRow =
      (producedInRow m amount d, drainedInRow m d, m.stability) := by
  simp only [BpMonitor.inRow, Prod.mk.injEq] at h
  obtain ⟨h1, h2, h3⟩ := h
  unfold countRound producedInRow drainedInRow
  rw [h1, h2]
  split <;> exact congrArg (fun x => (_, _, x)) h3

theorem markLackPledge_inRow (m : BpMonitor) : (markLackPledge m).inRow = m.inRow := by
  unfold markLackPledge; split <;> rfl

theorem adjustStability_inRow {m : BpMonitor} {produced drained stability : Nat}
    (h : m.inRow = (produced, drained, stability)) (c : Settlement) :
    (adjustStability c m).inRow = (produced, drained, min c.blockoutWeightLimit
      (if drained > c.resetBlockOutWeightNum then baseBlockOutWeight
      else if givesBonus produced ∧ stability < c.blockoutWeightLimit then stability + 1
      else stability)) := by
  have hmin : ∀ x : Nat, (if x > c.blockoutWeightLimit then c.blockoutWeightLimit else x) =
      min c.blockoutWeightLimit x := fun x => by split <;> omega
  cases h
  simp only [adjustStability, hmin]
  rfl

/-- The blocks and drain blocks in a row and the stability after a settlement. -/
theorem settleMonitor_inRow (c : Settlement) (m : BpMonitor) (amount age : Nat) (d : Int) :
    (settleMonitor c m amount age d).inRow =
      (producedInRow m amount d, drainedInRow m d, min c.blockoutWeightLimit
        (if drainedInRow m d > c.resetBlockOutWeightNum then baseBlockOutWeight
        else if givesBonus (producedInRow m amount d) ∧ m.stability < c.blockoutWeightLimit then
          m.stability + 1
        else m.stability)) := by
  let m' : BpMonitor :=
    { m with
      lastBlockNum := if c.isChangeProducers then 0 else amount
      bockAge := u64 (m.bockAge + age) }
  have hcount := countRound_inRow (m := m) m' rfl amount d
  exact adjustStability_inRow ((markLackPledge_inRow _).trans hcount) c

/-! ## The events of a row -/

/-- What happens to the monitor row of a producer. -/
inductive RowEvent where
  /-- A settlement, for the index of the producer and its amount in the schedule. -/
  | settle (c : Settlement) (index amount age : Nat)
  /-- A write of the other fields. -/
  | write (m : BpMonitor)

namespace RowEvent

/-- The row after an event. -/
def row (m : BpMonitor) : RowEvent → BpMonitor
  | settle c index amount age => settleMonitor c m amount age (c.drainNum index amount m)
  | write m' => m'

/-- What happens under a limit of the stability. -/
def Under (limit : Nat) (m : BpMonitor) : RowEvent → Prop
  | settle c _ _ _ => c.blockoutWeightLimit = limit
  | write m' => m'.stability = m.stability ∧
    m'.consecutiveProduceBlock = m.consecutiveProduceBlock

/-- The blocks of the producer that the event counts. -/
def produced (m : BpMonitor) : RowEvent → Nat
  | settle _ _ amount _ => producedNum amount m
  | write _ => 0

/-- The event counts a drain block of the producer. -/
def Drains (m : BpMonitor) : RowEvent → Prop
  | settle c index amount _ => 0 < c.drainNum index amount m
  | write _ => False

/-- The event sets the stability back. -/
def Resets (m : BpMonitor) : RowEvent → Prop
  | settle c index amount _ =>
    c.resetBlockOutWeightNum < drainedInRow m (c.drainNum index amount m)
  | write _ => False

/-- The event raises the blocks in a row to a multiple of 9. -/
def Raises (m : BpMonitor) (e : RowEvent) : Prop :=
  m.consecutiveProduceBlock < (e.row m).consecutiveProduceBlock ∧
    bpPubishDrainNum ∣ (e.row m).consecutiveProduceBlock

instance (limit : Nat) (m : BpMonitor) (e : RowEvent) : Decidable (e.Under limit m) := by
  cases e <;> unfold Under <;> infer_instance

instance (m : BpMonitor) (e : RowEvent) : Decidable (e.Drains m) := by
  cases e <;> unfold Drains <;> infer_instance

instance (m : BpMonitor) (e : RowEvent) : Decidable (e.Resets m) := by
  cases e <;> unfold Resets <;> infer_instance

instance (m : BpMonitor) (e : RowEvent) : Decidable (e.Raises m) :=
  inferInstanceAs (Decidable (_ ∧ _))

/-- The stability is at the limit, or a drain block ends the blocks in a row, or the event neither
raises them to a multiple of 9 nor leaves them one before a multiple of 9. -/
def Steady (m : BpMonitor) : RowEvent → Prop
  | settle c index amount _ =>
    c.blockoutWeightLimit ≤ m.stability ∨ 0 < c.drainNum index amount m ∨
      let count := u32 (m.consecutiveProduceBlock + producedNum amount m)
      ¬givesBonus count ∧ ¬(m.consecutiveProduceBlock < count ∧ bpPubishDrainNum ∣ count)
  | write _ => True

instance (m : BpMonitor) (e : RowEvent) : Decidable (e.Steady m) := by
  cases e <;> unfold Steady <;> infer_instance

end RowEvent

/-! ## What has happened to a row -/

/-- A row with what has happened to it. -/
structure Watched where
  row : BpMonitor
  /-- How often the blocks in a row were raised to a multiple of 9, since the last reset. -/
  raised : Nat := 0
  /-- The blocks made since the last drain block. -/
  streak : Nat := 0
  /-- What the stability has risen by since the last drain block. -/
  bonuses : Nat := 0

/-- A row whose stability is at the base. -/
def Watched.start (m : BpMonitor) : Watched where
  row := m
  streak := m.consecutiveProduceBlock

/-- The row after one more event. -/
def Watched.next (w : Watched) (e : RowEvent) : Watched where
  row := e.row w.row
  raised := if e.Resets w.row then 0 else if e.Raises w.row then w.raised + 1 else w.raised
  streak := if e.Drains w.row then 0 else w.streak + e.produced w.row
  bonuses := if e.Drains w.row then 0
    else w.bonuses + ((e.row w.row).stability - w.row.stability)

/-- A step of a watched row under a limit. -/
def WatchStep (limit : Nat) (w : Watched) (e : RowEvent) (w' : Watched) : Prop :=
  e.Under limit w.row ∧ w' = w.next e

/-- The stability is the base and the multiples of 9 since the last reset, up to the limit, and it
has risen by at most one for each 9 blocks in a row. -/
structure Watched.Earned (limit : Nat) (w : Watched) : Prop where
  value : w.row.stability = min limit (baseBlockOutWeight + w.raised)
  ninth : bpPubishDrainNum * w.bonuses ≤ w.streak

/-- No count gives the bonus and is a multiple of 9. -/
theorem givesBonus_not_dvd {count : Nat} (hlt : count < 2 ^ 32) (h : givesBonus count) :
    ¬bpPubishDrainNum ∣ count := by
  have h9 : bpPubishDrainNum = 9 := rfl
  unfold givesBonus at h
  rw [h9] at h ⊢
  by_cases hmax : count + 1 < 2 ^ 32
  · rw [u32_of_lt hmax] at h
    omega
  · omega

/-- A settlement with a drain block ends the blocks in a row. -/
theorem settle_drains {index amount : Nat} (age : Nat) (hd : 0 < c.drainNum index amount m) :
    ¬(RowEvent.settle c index amount age).Raises m ∧
      ((RowEvent.settle c index amount age).row m).stability = min c.blockoutWeightLimit
        (if (RowEvent.settle c index amount age).Resets m then baseBlockOutWeight
        else m.stability) := by
  have hrow := settleMonitor_inRow c m amount age (c.drainNum index amount m)
  have hp0 : producedInRow m amount (c.drainNum index amount m) = 0 := if_pos hd
  have hb : ¬givesBonus 0 := by decide
  simp only [BpMonitor.inRow, Prod.mk.injEq, hp0, hb, false_and, ↓reduceIte] at hrow
  obtain ⟨hp, -, hs⟩ := hrow
  refine ⟨fun h => ?_, hs⟩
  have hlt := h.1
  simp only [RowEvent.row, hp] at hlt
  omega

/-- A settlement without a drain block does not reset the stability. -/
theorem settle_counts {index amount : Nat} (age : Nat) (hd : ¬0 < c.drainNum index amount m)
    {count : Nat} (hcount : count = u32 (m.consecutiveProduceBlock + producedNum amount m)) :
    ¬(RowEvent.settle c index amount age).Resets m ∧
      ((RowEvent.settle c index amount age).row m).consecutiveProduceBlock = count ∧
      ((RowEvent.settle c index amount age).row m).stability = min c.blockoutWeightLimit
        (if givesBonus count ∧ m.stability < c.blockoutWeightLimit then m.stability + 1
        else m.stability) := by
  have hrow := settleMonitor_inRow c m amount age (c.drainNum index amount m)
  have hp : producedInRow m amount (c.drainNum index amount m) = count :=
    (if_neg hd).trans hcount.symm
  have hd0 : drainedInRow m (c.drainNum index amount m) = 0 := if_neg hd
  have hno : ¬0 > c.resetBlockOutWeightNum := Nat.not_lt_zero _
  simp only [BpMonitor.inRow, Prod.mk.injEq, hp, hd0, hno, ↓reduceIte] at hrow
  obtain ⟨hp, -, hs⟩ := hrow
  refine ⟨fun h => ?_, hp, hs⟩
  have h : c.resetBlockOutWeightNum < drainedInRow m (c.drainNum index amount m) := h
  omega

/-- A steady settlement without a drain block leaves the stability as it is. -/
theorem settle_keeps {index amount : Nat} (age : Nat) (hd : ¬0 < c.drainNum index amount m)
    (hs : (RowEvent.settle c index amount age).Steady m)
    (hle : m.stability ≤ c.blockoutWeightLimit) :
    ((RowEvent.settle c index amount age).row m).stability = m.stability := by
  rw [(settle_counts age hd rfl).2.2]
  rcases hs with hfull | hd' | ⟨hb, -⟩
  · rw [if_neg fun h => absurd h.2 (not_lt.mpr hfull)]
    exact Nat.min_eq_right hle
  · exact absurd hd' hd
  · rw [if_neg fun h => hb h.1]
    exact Nat.min_eq_right hle

/-- From an earned stability, a settlement without a drain block leads to an earned one exactly if
it is steady. -/
theorem Watched.Earned.counts_iff {w : Watched} {index amount : Nat} (age : Nat)
    (hw : w.Earned c.blockoutWeightLimit) (hd : ¬0 < c.drainNum index amount w.row) :
    (w.next (.settle c index amount age)).Earned c.blockoutWeightLimit ↔
      (RowEvent.settle c index amount age).Steady w.row := by
  obtain ⟨hv, hn⟩ := hw
  generalize hcount : u32 (w.row.consecutiveProduceBlock + producedNum amount w.row) = count
  obtain ⟨hr, hp, hs⟩ := settle_counts age hd hcount.symm
  have hdr : ¬(RowEvent.settle c index amount age).Drains w.row := hd
  have hraised : (w.next (.settle c index amount age)).raised =
      if (RowEvent.settle c index amount age).Raises w.row then w.raised + 1 else w.raised :=
    if_neg hr
  constructor
  · intro hnext
    -- no count gives the bonus and raises to a multiple of 9, so below the limit either one shows
    have hex : givesBonus count → ¬(RowEvent.settle c index amount age).Raises w.row :=
      fun hb h => givesBonus_not_dvd (hcount ▸ u32_lt _) hb (hp ▸ h.2)
    have hst : (RowEvent.settle c index amount age).Steady w.row ↔
        c.blockoutWeightLimit ≤ w.row.stability ∨
          ¬givesBonus count ∧ ¬(RowEvent.settle c index amount age).Raises w.row := by
      simp only [RowEvent.Steady, RowEvent.Raises, hp, hd, false_or, hcount]
    have hv' := hnext.value
    rw [hraised] at hv'
    change (w.next (.settle c index amount age)).row.stability = _ at hs
    rw [hs] at hv'
    rw [hst]
    by_cases hfull : c.blockoutWeightLimit ≤ w.row.stability
    · exact .inl hfull
    · refine .inr ⟨fun hb => ?_, fun hr' => ?_⟩
      · rw [if_pos ⟨hb, not_le.mp hfull⟩, if_neg (hex hb)] at hv'
        omega
      · rw [if_neg fun h => hex h.1 hr', if_pos hr'] at hv'
        omega
  · intro hsteady
    have hsame : (w.next (.settle c index amount age)).row.stability = w.row.stability :=
      settle_keeps age hd hsteady (by omega)
    have hbonus : (w.next (.settle c index amount age)).bonuses = w.bonuses +
        ((w.next (.settle c index amount age)).row.stability - w.row.stability) := if_neg hdr
    have hstreak : w.streak ≤ (w.next (.settle c index amount age)).streak :=
      (Nat.le_add_right _ _).trans (if_neg hdr).ge
    refine ⟨?_, ?_⟩
    · rw [hsame, hraised]
      rcases hsteady with hfull | hd' | ⟨-, hr'⟩
      · split <;> omega
      · exact absurd hd' hd
      · rw [if_neg (by rw [RowEvent.Raises, hp, ← hcount]; exact hr'), hv]
    · rw [hbonus, hsame, Nat.sub_self, Nat.add_zero]
      exact hn.trans hstreak

/-- An event from an earned stability leads to an earned one exactly if it is steady. -/
theorem Watched.Earned.next_iff {w : Watched} (hl : baseBlockOutWeight ≤ limit)
    (hw : w.Earned limit) {e : RowEvent} (he : e.Under limit w.row) :
    (w.next e).Earned limit ↔ e.Steady w.row := by
  cases e with
  | write m =>
    obtain ⟨hv, hn⟩ := hw
    obtain ⟨h1, h2⟩ := he
    have hr : ¬(RowEvent.write m).Raises w.row := fun h => absurd h.1 (h2 ▸ Nat.lt_irrefl _)
    refine iff_of_true ⟨?_, ?_⟩ trivial
    · simp only [next, RowEvent.row, RowEvent.Resets, hr, ↓reduceIte, h1, hv]
    · simp only [next, RowEvent.row, RowEvent.Drains, RowEvent.produced, h1, Nat.sub_self, hn,
        ↓reduceIte, Nat.add_zero]
  | settle c i a g =>
    have hlim : c.blockoutWeightLimit = limit := he
    subst hlim
    by_cases hd : 0 < c.drainNum i a w.row
    · have hv := hw.value
      obtain ⟨hr, hs⟩ := settle_drains g hd
      have hdr : (RowEvent.settle c i a g).Drains w.row := hd
      refine iff_of_true ⟨?_, ?_⟩ (.inr (.inl hd))
      · simp only [next, hr, hs, ↓reduceIte]
        split <;> omega
      · simp only [next, hdr, ↓reduceIte]
        exact Nat.zero_le _
    · exact hw.counts_iff g hd

/-- A steady event does not raise an earned stability. -/
theorem Watched.Earned.no_rise {w : Watched} (hl : baseBlockOutWeight ≤ limit)
    (hw : w.Earned limit) {e : RowEvent} (he : e.Under limit w.row) (hs : e.Steady w.row) :
    (w.next e).row.stability ≤ w.row.stability := by
  have hv := hw.value
  cases e with
  | write m => exact he.1.le
  | settle c i a g =>
    have hlim : c.blockoutWeightLimit = limit := he
    subst hlim
    by_cases hd : 0 < c.drainNum i a w.row
    · have hrow := (settle_drains g hd).2
      show ((RowEvent.settle c i a g).row w.row).stability ≤ _
      rw [hrow]
      split <;> omega
    · exact (settle_keeps g hd hs (by omega)).le

/-- A step earns what it adds to the stability: the stability is earned after it, and has risen only
with a block of the producer, and by one. -/
structure Earns (limit : Nat) (e : Watched × RowEvent × Watched) : Prop where
  earned : e.2.2.Earned limit
  rise : e.1.row.stability < e.2.2.row.stability →
    0 < e.2.1.produced e.1.row ∧ e.2.2.row.stability = e.1.row.stability + 1

/-- In a run of the row of a producer with a limit of at least the base, from a stability at the
base on: all steps earn what they add to the stability exactly if all are steady. -/
theorem stability_iff {m : BpMonitor} {tr : List (Watched × RowEvent × Watched)} {w : Watched}
    (hl : baseBlockOutWeight ≤ limit) (hm : m.stability = baseBlockOutWeight)
    (hr : Run (WatchStep limit) (.start m) tr w) :
    (∀ e ∈ tr, Earns limit e) ↔ ∀ e ∈ tr, e.2.1.Steady e.1.row := by
  have hstart : (Watched.start m).Earned limit :=
    ⟨hm.trans (Nat.min_eq_right hl).symm, Nat.zero_le _⟩
  have hiff := hr.always_iff (P := Watched.Earned limit) (C := fun w e => e.Steady w.row) hstart
    (by rintro w e _ hw ⟨he, rfl⟩; exact hw.next_iff hl he)
  refine ⟨fun h => hiff.mp fun e he => (h e he).earned, fun h e he => ?_⟩
  have hpost := hiff.mpr h
  obtain ⟨hunder, hnext⟩ := hr.steps e he
  have hle := (hr.pre hstart hpost e he).no_rise hl hunder (h e he)
  refine ⟨hpost e he, fun hlt => ?_⟩
  rw [hnext] at hlt
  exact absurd hlt (not_lt.mpr hle)

/-- The run of the events of a row. -/
def Watched.trace (w : Watched) : List RowEvent → List (Watched × RowEvent × Watched)
  | [] => []
  | e :: evs => (w, e, w.next e) :: (w.next e).trace evs

theorem Watched.run_trace (evs : List RowEvent) (w : Watched)
    (h : ∀ e ∈ w.trace evs, e.2.1.Under limit e.1.row) :
    ∃ w', Run (WatchStep limit) w (w.trace evs) w' := by
  induction evs generalizing w with
  | nil => exact ⟨w, .nil⟩
  | cons e evs ih =>
    obtain ⟨w', hr⟩ := ih (w.next e) fun x hx => h x (List.mem_cons_of_mem _ hx)
    have hone : Run (WatchStep limit) w [(w, e, w.next e)] (w.next e) :=
      .snoc .nil ⟨h _ List.mem_cons_self, rfl⟩
    exact ⟨w', hone.append hr⟩

/-- Settlements of `n` rounds with one block each. -/
def rounds (n : Nat) : List RowEvent :=
  (List.range n).map fun k => .settle ⟨false, 0, 1, 4800, 1⟩ 2 (k + 1) 0

/-- Seven rounds with a block each are steady, so they earn what they add. -/
theorem stability_iff_rounds : ((Watched.start {}).trace (rounds 7)).length = 7 ∧
    ∀ e ∈ (Watched.start {}).trace (rounds 7), Earns blockOutWeightLimit e := by
  have hunder : ∀ e ∈ (Watched.start {}).trace (rounds 7),
      e.2.1.Under blockOutWeightLimit e.1.row := by decide +kernel
  obtain ⟨w, hr⟩ := Watched.run_trace (rounds 7) _ hunder
  exact ⟨rfl, (stability_iff (by decide) rfl hr).mpr (by decide +kernel)⟩

/-- Eight blocks in a row, and a new schedule in which the producer makes none. -/
def eightBlocks : List RowEvent := rounds 8 ++ [.settle ⟨true, 0, 1, 4800, 1⟩ 2 8 0]

/-- The eighth block in a row raises the stability, and the settlement of the new schedule raises it
again for the same blocks. -/
theorem stability_not_earned : (¬∀ limit m tr w, baseBlockOutWeight ≤ limit →
    m.stability = baseBlockOutWeight → Run (WatchStep limit) (.start m) tr w →
      ∀ e ∈ tr, Earns limit e) ∧
    ∃ e ∈ (Watched.start {}).trace eightBlocks,
      e.2.1.produced e.1.row = 0 ∧ e.1.row.stability < e.2.2.row.stability := by
  have hunder : ∀ e ∈ (Watched.start {}).trace eightBlocks,
      e.2.1.Under blockOutWeightLimit e.1.row := by decide +kernel
  obtain ⟨w, hr⟩ := Watched.run_trace eightBlocks _ hunder
  refine ⟨fun h => ?_, _, List.get_mem _ ⟨8, by decide +kernel⟩, by decide +kernel,
    by decide +kernel⟩
  have he := h _ _ _ _ (by decide) rfl hr _ (List.get_mem _ ⟨7, by decide +kernel⟩)
  exact absurd he.earned.value (by decide +kernel)

/-! ## The rows of the contract -/

/-- From every watched row of the producer in `s`, events lead to its row in `s'`. -/
def Watches (limit : Nat) (q : Name) (s s' : State) : Prop :=
  ∀ w : Watched, w.row = s.monitor q →
    ∃ tr w', Run (WatchStep limit) w tr w' ∧ w'.row = s'.monitor q

section Watches

variable {q b : Name} {v : Nat}

theorem Watches.refl (limit : Nat) (q : Name) (s : State) : Watches limit q s s :=
  fun w hw => ⟨[], w, .nil, hw⟩

theorem Watches.trans {t u : State} (h : Watches limit q s t) (h' : Watches limit q t u) :
    Watches limit q s u := fun w hw => by
  obtain ⟨tr, w₁, hr, hw₁⟩ := h w hw
  obtain ⟨tr', w₂, hr', hw₂⟩ := h' w₁ hw₁
  exact ⟨_, w₂, hr.append hr', hw₂⟩

theorem Watches.congr {t t' : State} (h : Watches limit q s t) (hm : t'.bpmonitor = t.bpmonitor) :
    Watches limit q s t' := fun w hw => by
  obtain ⟨tr, w', hr, hw'⟩ := h w hw
  refine ⟨tr, w', hr, hw'.trans ?_⟩
  unfold State.monitor
  rw [hm]

/-- What a write of the other fields leaves alone. -/
def BpMonitor.earning (m : BpMonitor) : Nat × Nat := (m.stability, m.consecutiveProduceBlock)

theorem Watches.write (h : SameOn BpMonitor.earning s.bpmonitor s'.bpmonitor) :
    Watches limit q s s' := fun w hw => by
  have hq := congrArg (Option.getD · (BpMonitor.earning {})) (h q)
  simp only [Option.getD_map] at hq
  obtain ⟨h1, h2⟩ := Prod.mk.inj hq
  let e : RowEvent := .write (s'.monitor q)
  have hunder : e.Under limit w.row := by
    rw [hw]
    exact ⟨h1, h2⟩
  exact ⟨[(w, e, w.next e)], w.next e, .snoc .nil ⟨hunder, rfl⟩, rfl⟩

/-- An iteration of the loop of `reward_block` settles one row. -/
theorem settleProducer_watches {acc acc' : State × Nat × List Effect} {p : Producer × Nat}
    (h : settleProducer env c acc p = .ok acc') :
    Watches c.blockoutWeightLimit q acc.1 acc'.1 := fun w hw => by
  obtain ⟨-, ⟨age, hmon⟩, -⟩ := settleProducer_ok h
  have hrow : acc'.1.monitor q = if p.1.bpname = q then settleMonitor c (acc.1.monitor q)
      p.1.amount age (c.drainNum p.2 p.1.amount (acc.1.monitor q)) else acc.1.monitor q := by
    unfold State.monitor at hmon ⊢
    rw [hmon, Table.find_put]
    split
    · subst_vars; rfl
    · rfl
  by_cases hq : p.1.bpname = q
  · rw [if_pos hq, ← hw] at hrow
    let e : RowEvent := .settle c p.2 p.1.amount age
    exact ⟨[(w, e, w.next e)], w.next e, .snoc .nil ⟨rfl, rfl⟩, hrow.symm⟩
  · rw [if_neg hq] at hrow
    exact ⟨[], w, .nil, hw.trans hrow.symm⟩

theorem rewardBlock_watches {ch : Bool} {fx : List Effect}
    (h : rewardBlock env s b v ch = .ok (s', fx)) :
    Watches (blockOutWeightLimitInForce s) q s s' := by
  unfold rewardBlock at h
  split at h
  · cases h
    refine (Watches.refl _ q s).congr ?_
    split <;> rfl
  · simp only [bind_eq_ok, pure_eq_ok, Prod.exists, Prod.mk.injEq] at h
    obtain ⟨sch, -, t, age, fx', hloop, br', -, rfl, -⟩ := h
    have hI := foldlM_inv (P := fun acc : State × Nat × List Effect =>
      Watches (blockOutWeightLimitInForce s) q s acc.1) (Watches.refl _ q s)
      (fun acc p acc' _ hI hstep => hI.trans (settleProducer_watches hstep)) hloop
    exact hI.congr rfl

theorem onblock_watches {fx : List Effect} (h : onblock env s b v = .ok (s', fx)) :
    Watches (blockOutWeightLimitInForce s) q s s' := by
  by_cases hact : env.activeProducers.length < numOfTopBps
  · obtain ⟨rfl, -⟩ := onblock_idle hact h
    exact Watches.refl _ q s'
  · obtain ⟨t, ded, ht, -, hr⟩ := onblock_rounds (Nat.not_lt.mp hact) h
    have hmon : s'.bpmonitor = t.bpmonitor := congrArg Rounds.bpmonitor hr
    refine Watches.congr ?_ hmon
    unfold settleRound at ht
    split at ht
    · have hw := rewardBlock_watches (q := q) ht
      exact hw
    · split at ht
      · exact rewardBlock_watches ht
      · cases ht
        exact Watches.refl _ q s

theorem bpclaim_watches (h : bpclaim env s b = .ok s') : Watches limit q s s' := by
  obtain ⟨t, x, ht, hr⟩ := bpclaim_rounds h
  refine Watches.congr (Watches.write ?_) (congrArg Rounds.bpmonitor hr)
  rcases claimBlockOut_ages ht with ⟨rfl, -⟩ | ⟨br, m, br', -, hm, -, -, -, rfl⟩
  · exact SameOn.refl _
  · exact (SameOn.refl _).put hm rfl

/-- Every action is a run of events for the row of each producer. -/
theorem exec_watches {a : Action} {fx : List Effect} (h : exec env s a = .ok (s', fx)) :
    Watches (blockOutWeightLimitInForce s) q s s' := by
  by_cases hblock : ∃ b v, a = .onblock b v
  · obtain ⟨b, v, rfl⟩ := hblock
    exact onblock_watches h
  · by_cases hclaim : ∃ b, a = .bpclaim b
    · obtain ⟨b, rfl⟩ := hclaim
      exact bpclaim_watches (silent_eq_ok.mp h).1
    · exact Watches.write (exec_same (fun _ _ _ _ => rfl) (fun b v e => hblock ⟨b, v, e⟩)
        (fun b e => hclaim ⟨b, e⟩) h)

/-- A run of the contract under one limit is a run of events for the row of each producer. -/
theorem run_watches {p p' : Point} {tr : List (Point × (Env × Action) × Point)}
    (hr : Run Step p tr p') (hlim : ∀ e ∈ tr, blockOutWeightLimitInForce e.1.state = limit) :
    Watches limit q p.state p'.state := by
  induction hr with
  | nil => exact Watches.refl _ q p.state
  | @snoc tr t u a _ hst ih =>
    obtain ⟨-, -, fx, hx⟩ := hst
    have hl : blockOutWeightLimitInForce t.state = limit := hlim (t, a, u) (by simp)
    exact (ih fun e he => hlim e (List.mem_append_left _ he)).trans (hl ▸ exec_watches hx)

end Watches

end Eosforce.System
