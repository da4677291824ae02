import Eosforce.System.BlockCount
import Eosforce.System.Restore

/-!
# The row that a settlement reads

On a change of the schedule, `reward_block` reads the row of the version before the new one, and only
calls of `onblock` with enough active producers make rows.

* `Attempt`: a call of an action, which succeeds or changes nothing.
* `Run.rowsOf`: there are rows for the versions of the counted calls, and the row of the rewards from
  the first of them on.
* `row_found_iff`: where each call has the version of the last one or the next, `reward_block` finds
  its row exactly when this also holds among the calls that count.
-/

namespace Eosforce.System

open Fallible Keyed Runs

variable {env : Env} {s s' : State} {b : Name} {v : Nat}

/-! ## Calls -/

/-- A call of an action: it succeeds, or it fails and changes nothing. -/
def Attempt (p : Point) (a : Env × Action) (q : Point) : Prop :=
  p.height ≤ a.1.currentBlockNum ∧ q.height = a.1.currentBlockNum ∧
    ((∃ fx, exec a.1 p.state a.2 = .ok (q.state, fx)) ∨
      (∃ e, exec a.1 p.state a.2 = .error e) ∧ q.state = p.state)

/-- The version that a call of `onblock` has. -/
def calledVersion (a : Env × Action) : Option Nat :=
  match a.2 with
  | .onblock _ v => some v
  | _ => none

/-- The call is one of `onblock` that succeeds with enough active producers. -/
def counts (e : Point × (Env × Action) × Point) : Bool :=
  (countedBlock e.2.1).isSome && (exec e.2.1.1 e.1.state e.2.1.2).isOk

/-- The versions of the calls of `onblock`, the oldest first. -/
def calledVersions (tr : Trace) : List Nat := tr.filterMap fun e => calledVersion e.2.1

/-- The versions of the calls that count. -/
def countedVersions (tr : Trace) : List Nat :=
  (tr.filter counts).filterMap fun e => calledVersion e.2.1

theorem countedVersions_sublist (tr : Trace) : (countedVersions tr).Sublist (calledVersions tr) :=
  List.filter_sublist.filterMap _

theorem countedVersions_snoc (tr : Trace) (e : Point × (Env × Action) × Point) :
    countedVersions (tr ++ [e]) =
      countedVersions tr ++ if counts e then (calledVersion e.2.1).toList else [] := by
  unfold countedVersions
  rw [List.filter_append, List.filterMap_append]
  congr 1
  cases h : counts e with
  | true => cases hv : calledVersion e.2.1 <;> simp [h, hv]
  | false => simp [h]

/-! ## The rows -/

theorem rewardBlock_isSome {ch : Bool} {fx : List Effect}
    (h : rewardBlock env s b v ch = .ok (s', fx)) :
    s'.blockreward.isSome = true ↔ s.blockreward.isSome = true ∨ ch = true := by
  unfold rewardBlock at h
  split at h
  · rename_i hnone
    cases h
    cases ch <;> simp [hnone]
  · rename_i br hbr
    simp only [bind_eq_ok, pure_eq_ok, Prod.exists, Prod.mk.injEq] at h
    obtain ⟨_, -, _, _, _, -, _, -, rfl, -⟩ := h
    simp [hbr]

/-- A counted call makes the row of its version, if there is none, and then the one of the rewards. -/
theorem onblock_rows {fx : List Effect} (hact : numOfTopBps ≤ env.activeProducers.length)
    (h : onblock env s b v = .ok (s', fx)) :
    (∀ w, (s'.schedules.find w).isSome = true ↔ w = v ∨ (s.schedules.find w).isSome = true) ∧
      (s'.blockreward.isSome = true ↔
        s.blockreward.isSome = true ∨ (s.schedules.find v).isNone = true) := by
  obtain ⟨t, ded, ht, -, hr⟩ := onblock_rounds hact h
  have hsch := congrArg Rounds.schedules hr
  have hbr : s'.blockreward = t.blockreward := congrArg Rounds.blockreward hr
  simp only [State.rounds] at hsch
  have hput : ∀ (x : ScheduleInfo) (w : Nat), ((s.schedules.put v x).find w).isSome = true ↔
      w = v ∨ (s.schedules.find w).isSome = true := fun x w => by
    rw [Table.find_put]
    split
    · rename_i hvw
      exact iff_of_true rfl (.inl hvw.symm)
    · rename_i hvw
      exact ⟨.inr, fun h => h.resolve_left fun e => hvw e.symm⟩
  unfold settleRound at ht
  cases hf : s.schedules.find v with
  | none =>
    rw [hf] at hsch ht
    have hs := rewardBlock_frame (f := State.schedules) (fun _ _ _ _ => rfl) ht
    refine ⟨fun w => ?_, ?_⟩
    · rw [hsch, hs]
      exact hput _ w
    · rw [hbr, rewardBlock_isSome ht]
      simp
  | some sch =>
    rw [hf] at hsch ht
    have hs : t.schedules = s.schedules ∧
        (t.blockreward.isSome = true ↔ s.blockreward.isSome = true) := by
      simp only [ite_eq_ok, pure_eq_ok, Prod.mk.injEq] at ht
      rcases ht with ⟨-, ht⟩ | ⟨-, rfl, -⟩
      · exact ⟨rewardBlock_frame (f := State.schedules) (fun _ _ _ _ => rfl) ht,
          (rewardBlock_isSome ht).trans (by simp)⟩
      · exact ⟨rfl, Iff.rfl⟩
    refine ⟨fun w => ?_, ?_⟩
    · rw [hsch, hs.1]
      exact hput _ w
    · rw [hbr, hs.2]
      simp

/-- There are rows for these versions, and a row of the rewards if there is one of them. -/
structure RowsOf (versions : List Nat) (s : State) : Prop where
  rows : ∀ w, (s.schedules.find w).isSome = true ↔ w ∈ versions
  reward : s.blockreward.isSome = true ↔ versions ≠ []

/-- One more counted call. -/
theorem RowsOf.onblock {l : List Nat} {fx : List Effect} (hI : RowsOf l s)
    (hact : numOfTopBps ≤ env.activeProducers.length) (h : onblock env s b v = .ok (s', fx)) :
    RowsOf (l ++ [v]) s' := by
  obtain ⟨hrows, hreward⟩ := onblock_rows hact h
  refine ⟨fun w => ?_, ?_⟩
  · rw [hrows, hI.rows, List.mem_append, List.mem_singleton, or_comm]
  · rw [hreward, hI.reward]
    refine iff_of_true ?_ (by simp)
    -- without a row for version `v` the row of the rewards is made, and else it is there
    cases hf : s.schedules.find v with
    | none => exact .inr rfl
    | some sch => exact .inl (List.ne_nil_of_mem ((hI.rows v).mp (by rw [hf]; rfl)))

/-- A call that does not count changes neither. -/
theorem exec_rows {a : Action} {fx : List Effect} (ha : countedBlock (env, a) = none)
    (h : exec env s a = .ok (s', fx)) :
    s'.schedules = s.schedules ∧ (s'.blockreward.isSome = s.blockreward.isSome) := by
  have other (hb : ∀ b v, a ≠ .onblock b v) : s'.schedules = s.schedules :=
    exec_onblockFrame (f := State.schedules) (fun _ _ _ _ _ _ _ _ _ => rfl) (fun _ _ => rfl)
      (fun _ _ _ _ _ _ => rfl) (fun _ _ _ _ _ => rfl) hb h
  cases a
  case onblock b v =>
    have hact : env.activeProducers.length < numOfTopBps := by
      by_contra hact
      rw [show countedBlock (env, .onblock b v) = some b from if_neg hact] at ha
      cases ha
    obtain ⟨rfl, -⟩ := onblock_idle hact h
    exact ⟨rfl, rfl⟩
  case bpclaim b =>
    refine ⟨other nofun, ?_⟩
    simp only [exec, silent_eq_ok, bpclaim, bind_eq_ok, pure_eq_ok, Prod.exists] at h
    obtain ⟨⟨_, -, _, -, t, x, ht, _, -, _, -, _, -, rfl⟩, -⟩ := h
    have hc : (claimBpsReward t b).1.blockreward = t.blockreward := by
      unfold claimBpsReward; split <;> rfl
    rw [show State.blockreward _ = t.blockreward from hc]
    unfold claimBlockOut at ht
    split at ht
    · rename_i br m hbr _
      simp only [bind_eq_ok, pure_eq_ok, Prod.mk.injEq] at ht
      obtain ⟨_, -, _, -, _, -, _, -, rfl, -⟩ := ht
      rw [hbr]
      rfl
    · cases ht
      rfl
  all_goals
    have hsame := exec_blockreward (fun _ _ e => by cases e) (fun _ e => by cases e) h
    exact ⟨other (fun _ _ e => by cases e), by rw [hsame]⟩

/-- **Step lemma.** -/
theorem RowsOf.step {tr : Trace} {p q : Point} {a : Env × Action}
    (hI : RowsOf (countedVersions tr) p.state) (h : Attempt p a q) :
    RowsOf (countedVersions (tr ++ [(p, a, q)])) q.state := by
  obtain ⟨env, act⟩ := a
  obtain ⟨-, -, ⟨fx, hx⟩ | ⟨⟨e, hx⟩, hq⟩⟩ := h
  · rw [countedVersions_snoc]
    cases hc : countedBlock (env, act) with
    | none =>
      obtain ⟨hsch, hbr⟩ := exec_rows hc hx
      rw [if_neg (by simp [counts, hc]), List.append_nil]
      exact ⟨fun w => hsch ▸ hI.rows w, hbr ▸ hI.reward⟩
    | some b =>
      rw [if_pos (by simp [counts, hc, hx, Except.isOk, Except.toBool])]
      unfold countedBlock at hc
      split at hc
      · rename_i b v ha
        simp only at ha
        subst ha
        have hact : ¬env.activeProducers.length < numOfTopBps := fun hlt => by
          rw [if_pos hlt] at hc
          cases hc
        exact hI.onblock (Nat.not_lt.mp hact) hx
      · cases hc
  · rw [countedVersions_snoc, if_neg (by simp [counts, hx, Except.isOk, Except.toBool]),
      List.append_nil, hq]
    exact hI

/-- The rows after a run. -/
theorem Run.rowsOf {tr : Trace} {q : Point} (hg : Genesis s) (h : Run Attempt ⟨s, 0⟩ tr q) :
    RowsOf (countedVersions tr) q.state := by
  refine h.history (I := fun tr p => RowsOf (countedVersions tr) p.state) ⟨fun w => ?_, ?_⟩
    fun _ _ _ _ hI hs => hI.step hs
  · rw [hg.schedules]
    simp [countedVersions, Table.find_empty]
  · rw [hg.blockreward]
    simp [countedVersions]

/-! ## The lookup -/

/-- If the call settles a round, the row that the settlement reads is there. -/
def FindsRow (s : State) (b : Name) (v : Nat) : Prop :=
  callsRewardBlock s b v = true → s.blockreward.isSome = true → (settledRow s v).isSome = true

theorem findsRow_iff : FindsRow s b v ↔ (s.schedules.find v).isSome = true ∨
    s.blockreward.isSome = false ∨ (s.schedules.find (u32sub v 1)).isSome = true := by
  unfold FindsRow callsRewardBlock settledRow
  cases hf : s.schedules.find v with
  | some sch => simp [hf]
  | none => cases s.blockreward <;> simp

/-- Without the row, the call is the access of a missing row. -/
theorem onblock_dangling (hact : numOfTopBps ≤ env.activeProducers.length)
    (h : ¬FindsRow s b v) : onblock env s b v = .error danglingIterator := by
  simp only [findsRow_iff, not_or, Bool.not_eq_true, Option.isSome_eq_false_iff,
    Option.isNone_iff_eq_none] at h
  obtain ⟨hv, hbr, hlast⟩ := h
  obtain ⟨br, hbr⟩ := Option.ne_none_iff_exists'.mp hbr
  have hne : v ≠ u32sub v 1 := by
    unfold u32sub u32OfInt
    omega
  have hset : settleRound env s b v = .error danglingIterator := by
    simp only [settleRound, hv, rewardBlock, hbr, if_true, Table.find_put_ne _ _ hne, hlast, fetch]
    rfl
  simp only [onblock, Nat.not_lt.mpr hact, if_false, hset]
  rfl

/-- The version of the last call that counts, if there is one, is the one of this call or the one
before. -/
def NextVersion (tr : Trace) (v : Nat) : Prop :=
  ∀ w, (countedVersions tr).getLast? = some w → v = w ∨ v = w + 1

/-- The versions of the calls rise, so those that counted do, up to the version of the next call. -/
theorem countedVersions_rise {l l' : Trace} {e : Point × (Env × Action) × Point}
    (hnext : (calledVersions (l ++ e :: l')).IsChain fun v w => w = v ∨ w = v + 1)
    (he : calledVersion e.2.1 = some v) :
    (countedVersions l).Pairwise (· ≤ ·) ∧ ∀ x ∈ countedVersions l, x ≤ v := by
  have hcalled : calledVersions (l ++ e :: l') = calledVersions l ++ v :: calledVersions l' := by
    rw [calledVersions, List.filterMap_append, List.filterMap_cons, he]
    rfl
  rw [hcalled] at hnext
  have hsorted : (calledVersions l ++ v :: calledVersions l').Pairwise (· ≤ ·) :=
    List.isChain_iff_pairwise.mp (hnext.imp fun x y hxy => by omega)
  obtain ⟨hsl, -, hle⟩ := List.pairwise_append.mp hsorted
  have hsub := countedVersions_sublist l
  exact ⟨hsl.sublist hsub, fun x hx => hle x (hsub.subset hx) v (by simp)⟩

/-- In a list that rises, the version or the one before is there exactly when it is the last one or
the next. -/
theorem version_mem_iff {l : List Nat} (hl : l.Pairwise (· ≤ ·)) (hle : ∀ x ∈ l, x ≤ v)
    (hv : v < 2 ^ 32) : v ∈ l ∨ l = [] ∨ u32sub v 1 ∈ l ↔
      ∀ w, l.getLast? = some w → v = w ∨ v = w + 1 := by
  rcases List.eq_nil_or_concat l with rfl | ⟨c, w, rfl⟩
  · simp
  rw [List.concat_eq_append] at *
  have hmax : ∀ x ∈ c ++ [w], x ≤ w := fun x hx => by
    rcases List.mem_append.mp hx with hx | hx
    · exact (List.pairwise_append.mp hl).2.2 x hx w (by simp)
    · exact (List.mem_singleton.mp hx).le
  have hw : w ∈ c ++ [w] := by simp
  have hwv := hle w hw
  rw [List.getLast?_concat]
  constructor
  · rintro (hin | hnil | hin) w' ⟨⟩
    · exact .inl (le_antisymm (hmax v hin) hwv)
    · exact absurd hnil (by simp)
    · have h1 := hmax _ hin
      have h2 := hle _ hin
      unfold u32sub u32OfInt at h1 h2
      omega
  · intro hall
    rcases hall w rfl with rfl | rfl
    · exact .inl hw
    · refine .inr (.inr ?_)
      rwa [u32sub_of_le (by omega) hv, Nat.add_sub_cancel]

/-- In a run of calls that each have the version of the one before or the next, a call with enough
active producers finds its row exactly when its version is that of the last call that counted or the
next, and else accesses a missing row. -/
theorem row_found_iff {tr : Trace} {q : Point} (hg : Genesis s) (h : Run Attempt ⟨s, 0⟩ tr q)
    (hnext : (calledVersions tr).IsChain fun v w => w = v ∨ w = v + 1)
    (hlt : ∀ v ∈ calledVersions tr, v < 2 ^ 32) {l l' : Trace} {e : Point × (Env × Action) × Point}
    (htr : tr = l ++ e :: l') (he : e.2.1.2 = .onblock b v)
    (hact : numOfTopBps ≤ e.2.1.1.activeProducers.length) :
    (FindsRow e.1.state b v ↔ NextVersion l v) ∧
      (¬NextVersion l v → onblock e.2.1.1 e.1.state b v = .error danglingIterator) := by
  suffices hiff : FindsRow e.1.state b v ↔ NextVersion l v from
    ⟨hiff, fun hno => onblock_dangling hact (hiff.not.mpr hno)⟩
  subst htr
  have hI := Run.rowsOf hg h.split_at.1
  have hcalled : calledVersion e.2.1 = some v := by rw [calledVersion, he]
  obtain ⟨hrise, hle⟩ := countedVersions_rise hnext hcalled
  have hv : v < 2 ^ 32 := hlt v (List.mem_filterMap.mpr ⟨e, by simp, hcalled⟩)
  rw [findsRow_iff, hI.rows, hI.rows, ← Bool.not_eq_true, hI.reward, not_not]
  exact version_mem_iff hrise hle hv

/-- The context of a block in which no producer is active. -/
def Env.idleBlock (block : Nat) : Env :=
  { currentBlockNum := u32 block, currentBlockNum_lt := u32_lt block }

/-- A block of version 1 that counts. -/
def versionOne : Point := (Point.mk {} 0).next (Env.block 1) (.onblock 0 1)

/-- A block of version 2, with too few active producers. -/
def versionTwo : Point := versionOne.next (Env.idleBlock 2) (.onblock 0 2)

/-- A block of version 3 fails. -/
def versionThree : Point := ⟨versionTwo.state, 3⟩

theorem version_eval :
    (exec (Env.block 1) {} (.onblock 0 1)).isOk = true ∧
    (exec (Env.idleBlock 2) versionOne.state (.onblock 0 2)).isOk = true ∧
    exec (Env.block 3) versionTwo.state (.onblock 0 3) = .error danglingIterator ∧
    ¬FindsRow versionTwo.state 0 3 := by
  refine ⟨by decide +kernel, by decide +kernel, ?_⟩
  have hno : ¬FindsRow versionTwo.state 0 3 := by
    rw [findsRow_iff]
    decide +kernel
  exact ⟨onblock_dangling (by decide) hno, hno⟩

theorem Attempt.next (p : Point) (env : Env) (a : Action) (h : p.height ≤ env.currentBlockNum)
    (hok : (exec env p.state a).isOk = true) : Attempt p (env, a) (p.next env a) :=
  ⟨h, rfl, .inl (exec_execTo hok)⟩

/-- The run of these three calls. -/
theorem versions_run : Run Attempt ⟨{}, 0⟩
    [(⟨{}, 0⟩, (Env.block 1, .onblock 0 1), versionOne),
      (versionOne, (Env.idleBlock 2, .onblock 0 2), versionTwo),
      (versionTwo, (Env.block 3, .onblock 0 3), versionThree)] versionThree := by
  obtain ⟨h₁, h₂, h₃, -⟩ := version_eval
  have hthree : Attempt versionTwo (Env.block 3, .onblock 0 3) versionThree :=
    ⟨by decide, rfl, .inr ⟨⟨_, h₃⟩, rfl⟩⟩
  exact ((Run.nil.snoc (Attempt.next _ _ _ (by decide) h₁)).snoc
    (Attempt.next _ _ _ (by decide) h₂)).snoc hthree

/-- The call of version 3, after one that counted with version 1. -/
theorem row_found_iff_three : (FindsRow versionTwo.state 0 3 ↔ NextVersion
    [(⟨{}, 0⟩, (Env.block 1, .onblock 0 1), versionOne),
      (versionOne, (Env.idleBlock 2, .onblock 0 2), versionTwo)] 3) :=
  (row_found_iff empty_genesis versions_run (by simp [calledVersions, calledVersion])
    (by simp [calledVersions, calledVersion])
    (e := (versionTwo, (Env.block 3, .onblock 0 3), versionThree)) rfl rfl (by decide)).1

/-- Version 2 has no row, and the first call of version 3 looks it up. -/
theorem version_skipped : ¬∀ (s : State) (tr : Trace) (q : Point), Genesis s →
    Run Attempt ⟨s, 0⟩ tr q → ((calledVersions tr).IsChain fun v w => w = v ∨ w = v + 1) →
    (∀ v ∈ calledVersions tr, v < 2 ^ 32) → ∀ e ∈ tr, ∀ b v, e.2.1.2 = .onblock b v →
    numOfTopBps ≤ e.2.1.1.activeProducers.length → FindsRow e.1.state b v := by
  intro h
  refine version_eval.2.2.2 (h _ _ _ empty_genesis versions_run
    (by simp [calledVersions, calledVersion]) (by simp [calledVersions, calledVersion])
    (versionTwo, (Env.block 3, .onblock 0 3), versionThree) (by simp) _ _ rfl (by decide))

end Eosforce.System
