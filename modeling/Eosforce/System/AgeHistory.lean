import Eosforce.Lib.History
import Eosforce.System.VoteAge

/-!
# The ages as sums over blocks

The code settles the ages of votes and bps at the blocks that change them. The model of an age is
the history of these changes (`Lib/History.lean`): in every block, the whole tokens held in it
accrue.

* `AgeEvent`, `BpEvent`: what is done to an asset age and to the age of a bp; a fix-time vote is
  cast once, and its age is cleaned at some heights.
* `AgeEvent.runs_follow`, `BpEvent.runs_follow`, `cleanAges_follows`: the rows follow the histories.
* `claim_claimed`, `votefix_castAt`: what `claim` and `votefix` do are such events.
* `ages_eq_sums`: the code's ages are the sums. A fix-time vote adds up the blocks before its
  withdrawal height, if it was cast before it.
-/

namespace Eosforce.System

open Fallible Keyed Accruals

variable {env : Env} {s s' : State} {hist : History} {t h : Nat}

/-! ## Asset ages -/

/-- What is done to an asset age. -/
inductive AgeEvent where
  | changeStakedTo (newStaked : Asset)
  | addStakedBy (s : Asset)
  | minusStakedBy (s : Asset)
  | cleanAge

namespace AgeEvent

/-- The entry of an event in the history of staked amounts. -/
def entry : AgeEvent → Entry
  | changeStakedTo newStaked => .change (.to newStaked.amount)
  | addStakedBy s => .change (.by s.amount)
  | minusStakedBy s => .change (.by (-s.amount))
  | cleanAge => .reset

/-- A new stake is one of core tokens. -/
def InCore : AgeEvent → Prop
  | changeStakedTo newStaked => newStaked.symbol = coreSymbol
  | _ => True

/-- An event at a height. -/
def exec (a : AssetAge) (e : Nat × AgeEvent) : Except String AssetAge :=
  match e.2 with
  | changeStakedTo newStaked => pure (a.changeStakedTo e.1 newStaked)
  | addStakedBy s => a.addStakedBy e.1 s
  | minusStakedBy s => a.minusStakedBy e.1 s
  | cleanAge => pure (a.cleanAge e.1)

/-- Events, from a new asset age on. -/
def run (evs : List (Nat × AgeEvent)) : Except String AssetAge := evs.foldlM exec {}

/-- The history of staked amounts that events make. -/
def history (evs : List (Nat × AgeEvent)) : History := evs.map fun e => (e.1, e.2.entry)

theorem history_snoc (evs : List (Nat × AgeEvent)) (e : Nat × AgeEvent) :
    history (evs ++ [e]) = history evs ++ [(e.1, e.2.entry)] := by
  simp only [history, List.map_append, List.map_cons, List.map_nil]

theorem taken_history (evs : List (Nat × AgeEvent)) : taken (history evs) = 0 := by
  apply taken_eq_zero
  intro e he y
  obtain ⟨⟨t, e⟩, -, rfl⟩ := List.mem_map.mp he
  cases e <;> exact nofun

/-- An asset age of core tokens that is settled up to the end of a history. -/
structure Settled (hist : History) (a : AssetAge) : Prop where
  core : a.staked.symbol = coreSymbol
  follows : Follows whole hist a.staked.amount a.accrual

/-- A change of the staked core tokens at `t`. -/
theorem Settled.change {a : AssetAge} (ha : Settled hist a) (hle : a.updateHeight ≤ t)
    (hlt : t < 2 ^ 32) (new : Asset) (hn : new.symbol = coreSymbol) (c : Update)
    (hc : c.of a.staked.amount = new.amount) :
    Settled (hist ++ [(t, .change c)]) ⟨new, a.getAge t, t⟩ := by
  refine ⟨hn, ?_⟩
  have hf := ha.follows.change hle c
  rw [hc, ← AssetAge.changeStakedTo_accrual ha.core hn hle hlt] at hf
  exact hf

/-- One event. -/
theorem Settled.exec {a a' : AssetAge} {e : Nat × AgeEvent} (ha : Settled hist a)
    (hle : a.updateHeight ≤ e.1) (hlt : e.1 < 2 ^ 32) (hcore : e.2.InCore)
    (he : exec a e = .ok a') :
    Settled (hist ++ [(e.1, e.2.entry)]) a' ∧ a'.updateHeight = e.1 := by
  obtain ⟨t, e⟩ := e
  cases e with
  | changeStakedTo new =>
    cases he
    exact ⟨ha.change hle hlt new hcore _ rfl, rfl⟩
  | addStakedBy s =>
    obtain ⟨hsym, -, rfl⟩ := AssetAge.addStakedBy_eq_ok.mp he
    have hc := ha.change hle hlt ⟨a.staked.amount + s.amount, a.staked.symbol⟩ ha.core
      (.by s.amount) rfl
    exact ⟨hc, rfl⟩
  | minusStakedBy s =>
    obtain ⟨hsym, -, rfl⟩ := AssetAge.minusStakedBy_eq_ok.mp he
    have hc := ha.change hle hlt ⟨a.staked.amount - s.amount, a.staked.symbol⟩ ha.core
      (.by (-s.amount)) Int.sub_eq_add_neg.symm
    exact ⟨hc, rfl⟩
  | cleanAge =>
    cases he
    exact ⟨⟨ha.core, ha.follows.clear hle⟩, rfl⟩

/-- An asset age follows the history of its events. -/
theorem runs_follow {evs : List (Nat × AgeEvent)} {a : AssetAge} (hr : run evs = .ok a)
    (ho : InOrder 0 evs h) (hlt : h < 2 ^ 32) (hcore : ∀ e ∈ evs, e.2.InCore) :
    Settled (history evs) a ∧ a.updateHeight ≤ h := by
  induction evs using List.reverseRecOn generalizing a h with
  | nil =>
    cases hr
    exact ⟨⟨rfl, Follows.start whole_zero 0⟩, Nat.zero_le _⟩
  | append_singleton evs e ih =>
    simp only [run, List.foldlM_append, List.foldlM_cons, List.foldlM_nil, bind_eq_ok,
      pure_eq_ok] at hr
    obtain ⟨b, hb, a, he, rfl⟩ := hr
    obtain ⟨ho, hle⟩ := ho.snoc
    obtain ⟨hs, hh⟩ := ih hb ho (by omega) fun e he => hcore e (List.mem_append_left _ he)
    obtain ⟨hs, hh⟩ := hs.exec hh (by omega) (hcore e (by simp)) he
    rw [history_snoc]
    exact ⟨hs, hh.trans_le hle⟩

end AgeEvent

/-! ## The ages of bps -/

theorem claim_claimed {voter b : Name} (hs : claim env s voter b = .ok s') :
    ∃ bp pool, s.bps.find b = some bp ∧ s'.bps.find b =
      some (bp.claimed env.currentBlockNum pool (newestVoteage env.currentBlockNum s voter b).1) := by
  simp only [claim, bind_eq_ok, fetch_eq_ok, check_eq_ok, pure_eq_ok] at hs
  obtain ⟨_, -, act, -, bp, hbp, _, -, reward, -, _, -, _, -, pool, -, rfl⟩ := hs
  exact ⟨bp, pool, hbp, Table.find_put_self _ _ _⟩

/-- What is done to the age of a bp. -/
inductive BpEvent where
  | addTotalStaked (sa : Int)
  | claim (rewardsPool : Asset) (newest : Int)

namespace BpEvent

/-- The entry of an event in the history of staked amounts. -/
def entry : BpEvent → Entry
  | addTotalStaked sa => .change (.by sa)
  | claim _ newest => .take newest

/-- The staked amount changes by whole tokens. -/
def IsWhole : BpEvent → Prop
  | addTotalStaked sa => coreSymbolPrecision ∣ sa
  | claim _ _ => True

/-- An event at a height. -/
def exec (b : BpInfo) (e : Nat × BpEvent) : BpInfo :=
  match e.2 with
  | addTotalStaked sa => b.addTotalStaked e.1 sa
  | claim rewardsPool newest => b.claimed e.1 rewardsPool newest

/-- Events of a bp. -/
def run (b : BpInfo) (evs : List (Nat × BpEvent)) : BpInfo := evs.foldl exec b

/-- The history of staked amounts that events make. -/
def history (evs : List (Nat × BpEvent)) : History := evs.map fun e => (e.1, e.2.entry)

theorem history_snoc (evs : List (Nat × BpEvent)) (e : Nat × BpEvent) :
    history (evs ++ [e]) = history evs ++ [(e.1, e.2.entry)] := by
  simp only [history, List.map_append, List.map_cons, List.map_nil]

/-- A bp without stake and age, at height `t`. -/
structure Fresh (b : BpInfo) (t : Nat) : Prop where
  stake : b.totalStaked = 0
  age : b.totalVoteage = 0
  height : b.voteageUpdateHeight = t

/-- A bp with a whole stake that is settled up to the end of a history. -/
def Settled (hist : History) (b : BpInfo) : Prop :=
  ∃ x, coreSymbolPrecision ∣ x ∧ Follows whole hist x b.accrual

theorem Fresh.settled {b : BpInfo} (hb : Fresh b t) : Settled [] b := by
  have he : b.accrual = ⟨0, 0, t⟩ := by simp only [BpInfo.accrual, hb.stake, hb.age, hb.height]
  refine ⟨0, Int.dvd_zero _, ?_⟩
  rw [he]
  exact Follows.start whole_zero t

/-- One event. -/
theorem Settled.exec {b : BpInfo} {e : Nat × BpEvent} (hb : Settled hist b)
    (hle : b.voteageUpdateHeight ≤ e.1) (hlt : e.1 < 2 ^ 32) (hwhole : e.2.IsWhole) :
    Settled (hist ++ [(e.1, e.2.entry)]) (exec b e) ∧ (exec b e).voteageUpdateHeight = e.1 := by
  obtain ⟨x, hx, hf⟩ := hb
  obtain ⟨t, e⟩ := e
  cases e with
  | addTotalStaked sa =>
    have hc := hf.change hle (.by sa)
    have hd : whole (x + sa) - whole x = whole sa := by
      rw [whole_add hx hwhole]; omega
    refine ⟨⟨x + sa, Int.dvd_add hx hwhole, ?_⟩, rfl⟩
    show Follows _ _ _ (b.addTotalStaked t sa).accrual
    rw [BpInfo.addTotalStaked_accrual hle hlt, ← hd]
    exact hc
  | claim pool newest =>
    refine ⟨⟨x, hx, ?_⟩, rfl⟩
    show Follows _ _ _ (b.claimed t pool newest).accrual
    rw [BpInfo.claimed_accrual hle hlt]
    exact hf.take hle newest

/-- The age of a bp follows the history of its events. -/
theorem runs_follow {b : BpInfo} (hb : Fresh b t) {evs : List (Nat × BpEvent)}
    (ho : InOrder t evs h) (hlt : h < 2 ^ 32) (hw : ∀ e ∈ evs, e.2.IsWhole) :
    Settled (history evs) (run b evs) ∧ (run b evs).voteageUpdateHeight ≤ h := by
  induction evs using List.reverseRecOn generalizing h with
  | nil => exact ⟨hb.settled, hb.height.le.trans ho⟩
  | append_singleton evs e ih =>
    obtain ⟨ho, hle⟩ := ho.snoc
    obtain ⟨hs, hh⟩ := ih ho (by omega) fun e he => hw e (List.mem_append_left _ he)
    have hrun : run b (evs ++ [e]) = exec (run b evs) e := by
      simp only [run, List.foldl_append, List.foldl_cons, List.foldl_nil]
    obtain ⟨hs, hh⟩ := hs.exec hh (by omega) (hw e (by simp))
    rw [hrun, history_snoc]
    exact ⟨hs, hh.trans_le hle⟩

end BpEvent

/-! ## The ages of fix-time votes -/

namespace FixTimeVoteInfo

/-- A vote as `votefix` casts it at height `t`: powered core tokens without an age. -/
structure CastAt (v : FixTimeVoteInfo) (t : Nat) : Prop where
  core : v.votepowerAge.staked.symbol = coreSymbol
  age : v.votepowerAge.age = 0
  height : v.votepowerAge.updateHeight = t

/-- The vote that `votefix` makes is cast at the block, before its withdrawal height if that is
below `2^32`. -/
theorem votefix_castAt {voter bpname typ : Name} {stake : Asset} {stakeTyp : Nat}
    (hs : votefix env s voter bpname typ stake stakeTyp = .ok s') :
    ∃ key v d, s'.fixvotes.find voter key = some v ∧ v.CastAt env.currentBlockNum ∧
      getDataByTyp typ = some d ∧ (env.currentBlockNum + d.days * blockNumPerDay < 2 ^ 32 →
        env.currentBlockNum ≤ v.withdrawBlockNum) := by
  simp only [votefix, bind_eq_ok, fetch_eq_ok, check_eq_ok, exists_const, Asset.mul_eq_ok,
    onChangeTotalStaked_eq] at hs
  obtain ⟨_, -, d, hd, act, -, bp, -, hsym, -, -, u, -, -, _, ⟨-, rfl⟩, key, -, hs⟩ := hs
  cases hs
  exact ⟨key, _, d, Scoped.find_put_self _ _ _ _, ⟨hsym, rfl, rfl⟩, hd, le_withdrawBlockNum⟩

/-- The age is cleaned at the given heights. -/
def cleanAges (v : FixTimeVoteInfo) (cs : List Nat) : FixTimeVoteInfo := cs.foldl cleanAge v

/-- The history of a vote that is cast at height `t`, whose age is cleaned at the given heights. -/
def history (v : FixTimeVoteInfo) (t : Nat) (cs : List Nat) : History :=
  (t, .change (.to v.votepowerAge.staked.amount)) :: cs.map fun c => (c, .reset)

theorem history_snoc (v : FixTimeVoteInfo) (t : Nat) (cs : List Nat) (c : Nat) :
    v.history t (cs ++ [c]) = v.history t cs ++ [(c, .reset)] := by
  simp only [history, List.map_append, List.map_cons, List.map_nil, List.cons_append]

theorem taken_history (v : FixTimeVoteInfo) (t w : Nat) (cs : List Nat) :
    taken (capped w (v.history t cs)) = 0 := by
  apply taken_eq_zero
  intro e he y
  obtain ⟨f, hf, rfl⟩ := List.mem_map.mp he
  rcases List.mem_cons.mp hf with rfl | hf
  · exact nofun
  · obtain ⟨c, -, rfl⟩ := List.mem_map.mp hf
    exact nofun

theorem calcBlockNum_eq (v : FixTimeVoteInfo) (c : Nat) :
    v.calcBlockNum c = min c v.withdrawBlockNum := by
  unfold calcBlockNum
  split <;> omega

/-- A vote at the block that casts it. -/
theorem CastAt.follows {v : FixTimeVoteInfo} (hv : v.CastAt t) :
    Follows whole [(t, .change (.to v.votepowerAge.staked.amount))] v.votepowerAge.staked.amount
      v.votepowerAge.accrual := by
  have he : v.votepowerAge.accrual =
      (⟨0, 0, t⟩ : Accrual).addRate t (whole v.votepowerAge.staked.amount - whole 0) := by
    simp only [AssetAge.accrual, AssetAge.rate_eq hv.core, hv.age, hv.height, Accrual.addRate,
      Accrual.value, whole_zero, Int.sub_zero, Int.zero_add, Int.zero_mul]
  rw [he]
  exact (Follows.start whole_zero t).change (le_refl t) (.to v.votepowerAge.staked.amount)

/-- A vote that is cast before its withdrawal height follows its history up to that height. -/
theorem cleanAges_follows {v : FixTimeVoteInfo} (hv : v.CastAt t) (hw : t ≤ v.withdrawBlockNum)
    {cs : List Nat} (ho : InOrder t (cs.map fun c => (c, ())) h) :
    (v.cleanAges cs).withdrawBlockNum = v.withdrawBlockNum ∧
      (v.cleanAges cs).votepowerAge.updateHeight ≤ min h v.withdrawBlockNum ∧
      Follows whole (capped v.withdrawBlockNum (v.history t cs)) v.votepowerAge.staked.amount
        (v.cleanAges cs).votepowerAge.accrual := by
  induction cs using List.reverseRecOn generalizing h with
  | nil =>
    refine ⟨rfl, ?_, ?_⟩
    · show v.votepowerAge.updateHeight ≤ _
      rw [hv.height]
      exact Nat.le_min.mpr ⟨ho, hw⟩
    · show Follows _ (capped _ [(t, _)]) _ v.votepowerAge.accrual
      simp only [capped, List.map_cons, List.map_nil, Nat.min_eq_left hw]
      exact hv.follows
  | append_singleton cs c ih =>
    rw [List.map_append] at ho
    obtain ⟨ho, hle⟩ := ho.snoc
    obtain ⟨hwd, hh, hf⟩ := ih ho
    have hrun : v.cleanAges (cs ++ [c]) = (v.cleanAges cs).cleanAge c := by
      simp only [cleanAges, List.foldl_append, List.foldl_cons, List.foldl_nil]
    have hc : (v.cleanAges cs).calcBlockNum c = min c v.withdrawBlockNum := by
      rw [calcBlockNum_eq, hwd]
    rw [hrun, history_snoc, capped_snoc]
    refine ⟨hwd, ?_, ?_⟩
    · show (v.cleanAges cs).calcBlockNum c ≤ _
      rw [hc]
      exact min_le_min_right _ hle
    · show Follows _ _ _ (((v.cleanAges cs).votepowerAge.cleanAge
        ((v.cleanAges cs).calcBlockNum c)).accrual)
      rw [hc, AssetAge.cleanAge_accrual]
      exact hf.clear hh

end FixTimeVoteInfo

/-! ## The sums -/

/-- What an age adds up for a history: the whole tokens held in each block since the last reset,
less what was taken. -/
def blockSum (hist : History) (h : Nat) : Int :=
  ∑ k ∈ Finset.Ico (lastReset hist) h, whole (amountAt hist k) - taken hist

/-- The same for the blocks before `w`. -/
def blockSumBefore (w : Nat) (hist : History) (h : Nat) : Int :=
  ∑ k ∈ (Finset.Ico (lastReset hist) h).filter (· < w), whole (amountAt hist k)

/-- For events at non-decreasing heights, read at a height from the last of them on: the code's age
of an asset age is the sum over the blocks since the last reset of the whole tokens held; that of a
bp, less the ages that `claim` took; that of a fix-time vote which is cast before its withdrawal
height, over the blocks before that height. -/
theorem ages_eq_sums (h : Nat) (hlt : h < 2 ^ 32) :
    (∀ evs a, InOrder 0 evs h → (∀ e ∈ evs, e.2.InCore) → AgeEvent.run evs = .ok a →
      a.getAge h = blockSum (AgeEvent.history evs) h ∧ taken (AgeEvent.history evs) = 0) ∧
    (∀ b t evs, BpEvent.Fresh b t → InOrder t evs h → (∀ e ∈ evs, e.2.IsWhole) →
      (BpEvent.run b evs).getAge h = blockSum (BpEvent.history evs) h) ∧
    ∀ (v : FixTimeVoteInfo) t cs, v.CastAt t → t ≤ v.withdrawBlockNum →
      InOrder t (cs.map fun c => (c, ())) h →
      (v.cleanAges cs).getAge h = blockSumBefore v.withdrawBlockNum (v.history t cs) h := by
  refine ⟨fun evs a ho hcore hr => ?_, fun b t evs hb ho hw => ?_, fun v t cs hv hw ho => ?_⟩
  · obtain ⟨hs, hle⟩ := AgeEvent.runs_follow hr ho hlt hcore
    refine ⟨?_, AgeEvent.taken_history evs⟩
    rw [AssetAge.getAge_eq hle hlt]
    exact hs.follows.value hle
  · obtain ⟨⟨x, -, hf⟩, hle⟩ := BpEvent.runs_follow hb ho hlt hw
    rw [BpInfo.getAge_eq hle hlt]
    exact hf.value hle
  · obtain ⟨hwd, hh, hf⟩ := FixTimeVoteInfo.cleanAges_follows hv hw ho
    have hval := hf.value hh
    rw [FixTimeVoteInfo.taken_history, Int.sub_zero, heldSum_capped] at hval
    rw [FixTimeVoteInfo.getAge_eq (by omega) (by omega) hlt, FixTimeVoteInfo.calcBlockNum_eq, hwd,
      hval]
    rfl

/-- Two changes in one block and a reset, a bp with a claim, and a fix-time vote read after its
withdrawal height. -/
theorem ages_eq_sums_twenty :
    (∃ a, AgeEvent.run [(3, .changeStakedTo ⟨50000, coreSymbol⟩), (8, .cleanAge),
        (10, .addStakedBy ⟨20000, coreSymbol⟩), (10, .minusStakedBy ⟨30000, coreSymbol⟩)] = .ok a ∧
      a.getAge 20 = blockSum (AgeEvent.history [(3, .changeStakedTo ⟨50000, coreSymbol⟩),
        (8, .cleanAge), (10, .addStakedBy ⟨20000, coreSymbol⟩),
        (10, .minusStakedBy ⟨30000, coreSymbol⟩)]) 20 ∧ a.getAge 20 = 50) ∧
    (BpEvent.run {} [(3, .addTotalStaked 50000), (8, .claim Asset.zero 25)]).getAge 20 =
      blockSum (BpEvent.history [(3, .addTotalStaked 50000), (8, .claim Asset.zero 25)]) 20 ∧
    ∃ v : FixTimeVoteInfo, v.withdrawBlockNum = 12 ∧
      (v.cleanAges [5]).getAge 20 = blockSumBefore 12 (v.history 3 [5]) 20 ∧
      (v.cleanAges [5]).getAge 20 = 35 := by
  obtain ⟨ha, hb, hf⟩ := ages_eq_sums 20 (by decide)
  refine ⟨⟨_, rfl, (ha _ _ ?_ ?_ rfl).1, by decide⟩, hb {} 0 _ ⟨rfl, rfl, rfl⟩ ?_ ?_,
    ⟨7, fvoteA, { staked := ⟨50000, coreSymbol⟩, updateHeight := 3 }, Asset.zero, 3, 12, false⟩,
    rfl, hf _ 3 [5] ⟨rfl, rfl, rfl⟩ ?_ ?_, by decide⟩ <;>
  simp [InOrder, AgeEvent.InCore, BpEvent.IsWhole, coreSymbolPrecision_eq]

/-- The row of the late vote in `lateVotefix`. -/
def lateRow : FixTimeVoteInfo :=
  { bpname := 7
    fvoteTyp := fvoteD
    startBlockNum := 4294967286
    withdrawBlockNum := 20735990
    vote := ⟨10000, coreSymbol⟩
    votepowerAge := { staked := ⟨400000, coreSymbol⟩, updateHeight := 4294967286 } }

/-- The withdrawal height of a late vote wraps, so the vote ages at once though no block is before
that height. -/
theorem ages_not_sums : Reachable ⟨lateVotefix, 4294967286⟩ ∧
    lateVotefix.fixvotes.find 1 0 = some lateRow ∧ lateRow.CastAt 4294967286 ∧
    ¬∀ h < 2 ^ 32, 4294967286 ≤ h → lateRow.getAge h =
      blockSumBefore lateRow.withdrawBlockNum (lateRow.history 4294967286 []) h := by
  refine ⟨lateVotefix_reachable, by decide, ⟨rfl, rfl, rfl⟩, fun hall => ?_⟩
  have he := hall 4294967287 (by decide) (by decide)
  have h0 : blockSumBefore lateRow.withdrawBlockNum (lateRow.history 4294967286 []) 4294967287 =
      0 := by
    apply Finset.sum_eq_zero
    intro k hk
    have hk := (Finset.mem_filter.mp hk).2
    have hlt : k < 20735990 := hk
    have ha : amountAt (lateRow.history 4294967286 []) k = 0 := by
      show (if 4294967286 ≤ k then _ else 0) = (0 : Int)
      rw [if_neg (by omega)]
    rw [ha, whole_zero]
  rw [h0] at he
  exact absurd he (by decide)

end Eosforce.System
