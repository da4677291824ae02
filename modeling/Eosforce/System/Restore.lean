import Eosforce.Lib.Ring
import Eosforce.System.Punish

/-!
# Restoring a producer that lacks pledge

A producer restores itself with `removepunish`, if it is in the ring of the last producers.

* `Run.ringOf`: the ring holds the producers of the last 120 blocks that `onblock` counts.
* `removepunish_ok_iff`: when a restoration succeeds.
* `restored_by_producing_iff`: a restoration is preceded by a block that the producer has made since
  it was marked, exactly when it made none of the last 120 blocks at the settlement that marked it.
-/

namespace Eosforce.System

open Fallible Keyed Runs Rings

variable {env : Env} {s s' : State} {b : Name}

/-! ## The ring of the last producers -/

/-- The producer of a block that `onblock` counts. -/
def countedBlock (a : Env × Action) : Option Name :=
  match a.2 with
  | .onblock b _ => if a.1.activeProducers.length < numOfTopBps then none else some b
  | _ => none

/-- The producers of the counted blocks of a run, the oldest first. -/
def countedBlocks (tr : Trace) : List Name := tr.filterMap fun e => countedBlock e.2.1

/-- What the ring has been filled with: empty names, then the producers. -/
def ringHistory (tr : Trace) : List Name :=
  List.replicate maxLastProducerSize 0 ++ countedBlocks tr

/-- The producers of the last 120 counted blocks, with empty names for the blocks that lack. -/
def lastBlocks (tr : Trace) : List Name := recent maxLastProducerSize (ringHistory tr)

theorem ringHistory_append (tr tr' : Trace) :
    ringHistory (tr ++ tr') = ringHistory tr ++ countedBlocks tr' := by
  rw [ringHistory, ringHistory, countedBlocks, List.filterMap_append, ← List.append_assoc]
  rfl

/-- The row `lastproducer` after a run: none before the first counted block. -/
def RingOf (tr : Trace) (row : Option LastProducer) : Prop :=
  match row with
  | none => countedBlocks tr = []
  | some r => r.producers.length = maxLastProducerSize ∧
    IsRing r.producers r.nextIndex (ringHistory tr)

/-- The first entry of the ring. -/
theorem RingOf.first {tr : Trace} (h : countedBlocks tr = []) (b : Name) :
    IsRing (b :: List.replicate (maxLastProducerSize - 1) 0) 1 (ringHistory tr ++ [b]) := by
  have hstart := (IsRing.replicate (n := maxLastProducerSize) (by decide) (0 : Name)).push b
  rw [List.length_replicate] at hstart
  rw [ringHistory, h, List.append_nil]
  exact hstart

/-- A new entry of the ring. -/
theorem RingOf.push {tr : Trace} (h : RingOf tr s.lastproducer)
    {e : Point × (Env × Action) × Point} (he : countedBlock e.2.1 = some b) :
    RingOf (tr ++ [e]) (recordProducer s b).lastproducer := by
  have hnew : countedBlocks [e] = [b] := by simp [countedBlocks, he]
  unfold recordProducer RingOf
  rw [ringHistory_append, hnew]
  cases hr : s.lastproducer with
  | none =>
    rw [hr] at h
    refine ⟨?_, RingOf.first h b⟩
    rw [List.length_cons, List.length_replicate]
    rfl
  | some r =>
    rw [hr] at h
    obtain ⟨hlen, hring⟩ := h
    refine ⟨List.length_set.trans hlen, ?_⟩
    have hslot : r.nextIndex + 1 < 2 ^ 32 := by
      have hlt := hring.slot
      rw [hlen] at hlt
      exact lt_of_le_of_lt hlt (by decide)
    simp only
    rw [u32_of_lt hslot, ← hlen]
    exact hring.push b

theorem onblock_lastproducer {v : Nat} {fx : List Effect}
    (hact : ¬env.activeProducers.length < numOfTopBps) (h : onblock env s b v = .ok (s', fx)) :
    s'.lastproducer = (recordProducer s b).lastproducer := by
  obtain ⟨t, ded, u, elected, ht, hu, -, rfl, -⟩ := onblock_parts (Nat.not_lt.mp hact) h
  have hl : u.lastproducer = s.lastproducer := by
    refine (rewardBps_frame (f := State.lastproducer) (fun _ _ _ _ _ => rfl) hu).trans ?_
    refine Eq.trans ?_ (settleRound_frame (f := State.lastproducer) (fun _ _ _ _ => rfl)
      (fun _ _ => rfl) ht)
    unfold heartbeatImp makeGlobalVotestate getGlobalVotestate
    split <;> rfl
  have hrec : (recordProducer u b).lastproducer = (recordProducer s b).lastproducer := by
    unfold recordProducer
    rw [hl]
  refine Eq.trans ?_ hrec
  cases s.schedules.find v <;> rfl

/-- Counted blocks are recorded in the ring, and nothing else is. -/
theorem exec_lastproducer {a : Action} {fx : List Effect} (h : exec env s a = .ok (s', fx)) :
    s'.lastproducer = match countedBlock (env, a) with
      | none => s.lastproducer
      | some b => (recordProducer s b).lastproducer := by
  have other (ha : ∀ b v, a ≠ .onblock b v) : s'.lastproducer = s.lastproducer :=
    exec_onblockFrame (f := State.lastproducer) (fun _ _ _ _ _ _ _ _ _ => rfl) (fun _ _ => rfl)
      (fun _ _ _ _ _ _ => rfl) (fun _ _ _ _ _ => rfl) ha h
  cases a
  case onblock b v =>
    by_cases hact : env.activeProducers.length < numOfTopBps
    · simp only [countedBlock, if_pos hact]
      rw [(onblock_idle hact h).1]
    · simp only [countedBlock, if_neg hact]
      exact onblock_lastproducer hact h
  all_goals exact other fun _ _ e => by cases e

/-- **Step lemma.** -/
theorem RingOf.step {tr : Trace} {p q : Point} {a : Env × Action}
    (hI : RingOf tr p.state.lastproducer) (h : Step p a q) :
    RingOf (tr ++ [(p, a, q)]) q.state.lastproducer := by
  obtain ⟨-, -, fx, hx⟩ := h
  rw [exec_lastproducer hx]
  cases hc : countedBlock (a.1, a.2) with
  | some b => exact hI.push hc
  | none =>
    have hnil : countedBlocks [(p, a, q)] = [] := by simp [countedBlocks, hc]
    revert hI
    cases p.state.lastproducer with
    | none =>
      intro hI
      exact (List.filterMap_append).trans (by rw [show List.filterMap _ tr = [] from hI]; exact hnil)
    | some r =>
      rintro ⟨hlen, hring⟩
      refine ⟨hlen, ?_⟩
      rw [ringHistory_append, hnil, List.append_nil]
      exact hring

/-- In a run that starts without the row, the ring holds the producers of the last counted blocks. -/
theorem Run.ringOf_of_none {tr : Trace} {p q : Point} (hp : p.state.lastproducer = none)
    (h : Run Step p tr q) : RingOf tr q.state.lastproducer :=
  h.history (I := fun tr p => RingOf tr p.state.lastproducer)
    (show RingOf [] p.state.lastproducer by rw [hp]; exact rfl)
    fun _ _ _ _ hI hs => hI.step hs

theorem Run.ringOf {tr : Trace} {q : Point} (hg : Genesis s) (h : Run Step ⟨s, 0⟩ tr q) :
    RingOf tr q.state.lastproducer := Run.ringOf_of_none hg.lastproducer h

/-! ## Marks and restorations -/

/-- The step marks the bp: its status becomes `LACK_PLEDGE`. -/
def Marks (b : Name) (e : Point × (Env × Action) × Point) : Prop :=
  statusOf e.1.state.bpmonitor b ≠ .lackPledge ∧ statusOf e.2.2.state.bpmonitor b = .lackPledge

/-- Only a counted block marks. -/
theorem Marks.counted {e : Point × (Env × Action) × Point} (hs : Step e.1 e.2.1 e.2.2)
    (h : Marks b e) : ∃ x, countedBlock e.2.1 = some x := by
  obtain ⟨p, ⟨env, act⟩, q⟩ := e
  obtain ⟨-, -, fx, hx⟩ := hs
  obtain ⟨hno, hyes⟩ := h
  rcases (exec_discipline hx).status b with e | ⟨⟨x, v, rfl⟩, -⟩ | ⟨-, -, e⟩ | ⟨-, e⟩
  · exact absurd (e.symm.trans hyes) hno
  · by_cases hact : env.activeProducers.length < numOfTopBps
    · rw [(onblock_idle hact hx).1] at hyes
      exact absurd hyes hno
    · exact ⟨x, if_neg hact⟩
  · exact absurd (e.symm.trans hyes) (by decide)
  · exact absurd (e.symm.trans hyes) (by decide)

/-- When a bp can restore itself. -/
theorem removepunish_ok_iff : (∃ s', removepunish env s b = .ok s') ↔ b ∈ env.auths ∧
    statusOf s.bpmonitor b = .lackPledge ∧ ∃ r, s.lastproducer = some r ∧ b ∈ r.producers := by
  simp only [removepunish, requireAuth, bind_eq_ok, fetch_eq_ok, check_eq_ok, pure_eq_ok,
    exists_const]
  constructor
  · rintro ⟨_, hauth, m, hm, hst, r, hr, hmem, -⟩
    exact ⟨hauth, (statusOf_of_find hm).trans hst, r, hr, hmem⟩
  · rintro ⟨hauth, hst, r, hr, hmem⟩
    cases hm : s.bpmonitor.find b with
    | none =>
      rw [statusOf, hm] at hst
      cases hst
    | some m =>
      rw [statusOf_of_find hm] at hst
      exact ⟨_, hauth, m, rfl, hst, r, hr, hmem, rfl⟩

/-- After the mark of a step, and until a later one, the bp restores itself only with a block that it
has made since. -/
def RestoresByProducing (b : Name) (e : Point × (Env × Action) × Point) : Prop :=
  ∀ l q env r, Run Step e.2.2 l q → (∀ y ∈ l, ¬Marks b y) → Step q (env, .removepunish b) r →
    ∃ y ∈ l, ∃ v, y.2.1.2 = .onblock b v

theorem mem_countedBlocks {tr : Trace} (h : b ∈ countedBlocks tr) :
    ∃ y ∈ tr, ∃ v, y.2.1.2 = .onblock b v := by
  obtain ⟨⟨p, ⟨env, a⟩, q⟩, hy, hb⟩ := List.mem_filterMap.mp h
  refine ⟨_, hy, ?_⟩
  unfold countedBlock at hb
  split at hb
  · rename_i x v ha
    split at hb
    · cases hb
    · cases hb
      exact ⟨v, ha⟩
  · cases hb

theorem RingOf.mem_iff {tr : Trace} {r : LastProducer} (h : RingOf tr (some r)) :
    b ∈ r.producers ↔ b ∈ lastBlocks tr := by
  rw [h.2.mem_iff, h.1, lastBlocks]

/-- A bp that restores itself lacks pledge, and is in the ring. -/
theorem Step.restores {p r : Point} (h : Step p (env, .removepunish b) r) :
    statusOf p.state.bpmonitor b = .lackPledge ∧
      ∃ row, p.state.lastproducer = some row ∧ b ∈ row.producers := by
  obtain ⟨-, -, fx, hx⟩ := h
  exact (removepunish_ok_iff.mp ⟨_, (silent_eq_ok.mp hx).1⟩).2

/-- A bp that lacks pledge was marked, and not again since. -/
theorem Run.marked {tr : Trace} {q : Point} (hg : Genesis s) (h : Run Step ⟨s, 0⟩ tr q)
    (hq : statusOf q.state.bpmonitor b = .lackPledge) :
    ∃ l e l', tr = l ++ e :: l' ∧ Marks b e ∧ ∀ y ∈ l', ¬Marks b y := by
  obtain ⟨l, e, l', rfl, hno, hyes, hall⟩ := h.entered
    (P := fun t => statusOf t.state.bpmonitor b = .lackPledge)
    (by show statusOf s.bpmonitor b ≠ _; rw [hg.bpmonitor]; exact nofun) hq
  -- no step marks a bp that is marked
  have hpre := h.split_at.2.2.pre (P := fun t => statusOf t.state.bpmonitor b = .lackPledge)
    hyes hall
  exact ⟨l, e, l', rfl, ⟨hno, hyes⟩, fun y hy hm => hm.1 (hpre y hy)⟩

section Marked

variable {l : Trace} {e : Point × (Env × Action) × Point}

/-- Among the last producers at its mark, a bp restores itself in the block of the mark. -/
theorem restores_at_once (hg : Genesis s) (hrun : Run Step ⟨s, 0⟩ (l ++ [e]) e.2.2)
    (hs : Step e.1 e.2.1 e.2.2) (hm : Marks b e) (hmem : b ∈ lastBlocks (l ++ [e])) :
    ∃ env r, Step e.2.2 (env, .removepunish b) r := by
  obtain ⟨x, hx⟩ := hm.counted hs
  have hring := Run.ringOf hg hrun
  cases hrow : e.2.2.state.lastproducer with
  | none =>
    rw [hrow] at hring
    have hne : x ∈ countedBlocks (l ++ [e]) :=
      List.mem_filterMap.mpr ⟨e, List.mem_append_right _ (List.mem_singleton.mpr rfl), hx⟩
    rw [show countedBlocks (l ++ [e]) = [] from hring] at hne
    cases hne
  | some row =>
    rw [hrow] at hring
    let env : Env := { e.2.1.1 with auths := [b] }
    have hauth : b ∈ env.auths := List.mem_singleton.mpr rfl
    obtain ⟨s', hs'⟩ :=
      removepunish_ok_iff.mpr ⟨hauth, hm.2, row, hrow, hring.mem_iff.mpr hmem⟩
    exact ⟨env, ⟨s', env.currentBlockNum⟩, hs.2.1.le, rfl, _, silent_eq_ok.mpr ⟨hs', rfl⟩⟩

/-- A bp that was not among the last producers at its mark needs a block since to restore itself. -/
theorem restores_by_block (hg : Genesis s) (hrun : Run Step ⟨s, 0⟩ (l ++ [e]) e.2.2)
    (hno : b ∉ lastBlocks (l ++ [e])) : RestoresByProducing b e := by
  intro l₂ q env r hr₂ _ hs
  obtain ⟨row, hrow, hmem⟩ := hs.restores.2
  have hring := Run.ringOf hg (hrun.append hr₂)
  rw [hrow] at hring
  have hlast := hring.mem_iff.mp hmem
  rw [lastBlocks, ringHistory_append] at hlast
  rcases mem_recent_append hlast with hold | hnew
  · exact absurd hold hno
  · exact mem_countedBlocks hnew

end Marked

/-- In every run, a restoration follows a mark, and after a mark the bp has to produce for it exactly
when it made none of the last 120 blocks at the mark. -/
theorem restored_by_producing_iff {tr : Trace} {q : Point} (hg : Genesis s)
    (h : Run Step ⟨s, 0⟩ tr q) (b : Name) :
    (∀ env r, Step q (env, .removepunish b) r →
      ∃ l e l', tr = l ++ e :: l' ∧ Marks b e ∧ ∀ y ∈ l', ¬Marks b y) ∧
    ∀ l e l', tr = l ++ e :: l' → Marks b e →
      (RestoresByProducing b e ↔ b ∉ lastBlocks (l ++ [e])) := by
  refine ⟨fun env r hs => Run.marked hg h hs.restores.1, ?_⟩
  rintro l e l' rfl hm
  obtain ⟨hr, hse, -⟩ := h.split_at
  have hrun := hr.snoc hse
  refine ⟨fun hall hmem => ?_, restores_by_block hg hrun⟩
  obtain ⟨env, r, hs⟩ := restores_at_once hg hrun hse hm hmem
  obtain ⟨y, hy, -⟩ := hall [] _ env r .nil (by simp) hs
  cases hy

/-- After 12 blocks, the last 11 without producer 1, it restores itself. -/
theorem drained_restores :
    ∃ r, Step (drained 12) (Env.of 1 12, .removepunish 1) r := by
  have heval : (drained 12).height ≤ (Env.of 1 12).currentBlockNum ∧
      (exec (Env.of 1 12) (drained 12).state (.removepunish 1)).isOk = true := by decide +kernel
  exact ⟨_, Point.next_step _ _ _ heval.1 heval.2⟩

/-- The mark of producer 1 in that run. -/
theorem restored_by_producing_iff_drained : ∃ l e, Marks 1 e ∧
    (RestoresByProducing 1 e ↔ 1 ∉ lastBlocks (l ++ [e])) := by
  obtain ⟨tr, hrun, -⟩ := drained_run
  obtain ⟨r, hr⟩ := drained_restores
  obtain ⟨hmark, hiff⟩ := restored_by_producing_iff empty_genesis
    (hrun.mono fun _ _ _ h => h.1) 1
  obtain ⟨l, e, l', htr, hm, -⟩ := hmark _ _ hr
  exact ⟨l, e, hm, hiff l e l' htr hm⟩

/-- Producer 1 made the first block only, before its mark, and restores itself. -/
theorem restored_without_producing : ¬∀ (s : State) (tr : Trace) (q : Point) (b : Name) (env : Env)
    (r : Point), Genesis s → Run Step ⟨s, 0⟩ tr q → Step q (env, .removepunish b) r →
    ∃ l e l', tr = l ++ e :: l' ∧ Marks b e ∧ ∃ y ∈ l', ∃ v, y.2.1.2 = .onblock b v := by
  intro hall
  obtain ⟨tr, hrun, hsteps⟩ := drained_run
  have hrun : Run Step ⟨{}, 0⟩ tr (drained 12) := hrun.mono fun _ _ _ h => h.1
  obtain ⟨r, hr⟩ := drained_restores
  obtain ⟨l, e, l', rfl, -, y, hy, v, hact⟩ := hall _ _ _ 1 _ _ empty_genesis hrun hr
  -- a later block is one of producer 0
  have hlow : ∀ y ∈ l', 1 ≤ y.1.height := by
    have hone : 1 ≤ e.2.2.height := by
      obtain ⟨n, hn, rfl⟩ := hsteps e (by simp)
      show 1 ≤ u32 (n + 1)
      rw [u32_of_lt (by omega)]
      omega
    refine fun y hy => ((hrun.split_at.2.2.inv (I := fun t => 1 ≤ t.height) hone ?_).2 y hy).1
    exact fun t a u ht hs => ht.trans (hs.1.trans hs.2.1.ge)
  obtain ⟨n, hn, rfl⟩ := hsteps y (by simp [hy])
  cases n with
  | zero => exact absurd (hlow _ hy) (by decide)
  | succ n => cases hact

end Eosforce.System
