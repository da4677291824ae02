import Eosforce.Budget.Account

/-!
# Motions and their approvers

* `Poll`, `exec_poll`: what an action does to the motions and to the `approvers` rows.
* `Paired`: a motion and an `approvers` row belong together when they have one id, and the row is in
  the scope of the motion's proposer.
* `motions_paired`: in every state reached, each motion has its `approvers` row and there are no
  other rows. No action fails for a row that is missing or for one that is there already.
* `turned_down_stays_iff`: a motion that was turned down stays so exactly when no later vote against
  it finds more than a third against it.
-/

namespace Eosforce.Budget

open Fallible Keyed Runs

/-- The contract before its first action. -/
structure Deployed (b : State) : Prop extends Genesis b where
  approvers : b.approvers = ∅

theorem seated_deployed : Deployed seated := ⟨seated_genesis, rfl⟩

/-- What an action does to the motions and to their approvers. -/
inductive Poll (b : State) : Action → Table Nat MotionInfo → Scoped Name Nat Ballot → Prop
  | handover {committeers : List Name} {memo : String} :
    Poll b (.handover committeers memo) b.motions b.approvers
  | propose {proposer : Name} {title content : String} {quantity : Asset} {id : Nat}
    {m : MotionInfo} {c : List Name} (hid : availablePrimaryKey b.motions = .ok id)
    (hp : m.proposer = proposer) (h0 : m.section = 0)
    (hnone : b.approvers.find proposer id = none) (hc : b.committee = some c) :
    Poll b (.propose proposer title content quantity) (b.motions.put id m)
      (b.approvers.put proposer id { requested := c })
  | approve {approver : Name} {id : Nat} {memo : String} {m : MotionInfo} {ballot : Ballot}
    (hm : b.motions.find id = some m) (h0 : m.section = 0)
    (hb : b.approvers.find m.proposer id = some ballot) (hr : approver ∈ ballot.requested) :
    Poll b (.approve approver id memo)
      (if (ballot.agree approver).Passed then b.motions.put id { m with «section» := 1 }
        else b.motions)
      (b.approvers.put m.proposer id (ballot.agree approver))
  | unapprove {approver : Name} {id : Nat} {memo : String} {m : MotionInfo} {ballot : Ballot}
    (hm : b.motions.find id = some m) (hb : b.approvers.find m.proposer id = some ballot)
    (hr : approver ∈ ballot.requested) :
    Poll b (.unapprove approver id memo)
      (if (ballot.refuse approver).Refused then b.motions.put id { m with «section» := 2 }
        else b.motions)
      (b.approvers.put m.proposer id (ballot.refuse approver))
  | takecoin {proposer : Name} {id : Nat} {content : String} {quantity : Asset} :
    Poll b (.takecoin proposer id content quantity) b.motions b.approvers
  | agreecoin {approver proposer : Name} {k : Nat} {memo : String} :
    Poll b (.agreecoin approver proposer k memo) b.motions b.approvers
  /-- The deciding vote pays a request out of its motion. -/
  | pay {approver proposer : Name} {k id : Nat} {memo : String} {m : MotionInfo} {quantity : Asset}
    (hm : b.motions.find id = some m) :
    Poll b (.agreecoin approver proposer k memo) (b.motions.put id { m with quantity })
      b.approvers
  | unagreecoin {approver proposer : Name} {k : Nat} {memo : String} :
    Poll b (.unagreecoin approver proposer k memo) b.motions b.approvers
  | turndown {id : Nat} {memo : String} {m : MotionInfo} (hm : b.motions.find id = some m) :
    Poll b (.turndown id memo) (b.motions.put id { m with «section» := 3 }) b.approvers
  | closemotion {id : Nat} {memo : String} {m : MotionInfo} (hm : b.motions.find id = some m) :
    Poll b (.closemotion id memo) (b.motions.erase id) (b.approvers.erase m.proposer id)
  | closecoin {proposer : Name} {k : Nat} {memo : String} :
    Poll b (.closecoin proposer k memo) b.motions b.approvers
  | updateconfig {config : Name} {numberValue : Nat} {stringValue : String} :
    Poll b (.updateconfig config numberValue stringValue) b.motions b.approvers

/-! ## Inversion -/

variable {env : Env} {b b' : State}

theorem requestedBallot_ok {m : MotionInfo} {id : Nat} {approver : Name} {ballot : Ballot}
    (h : requestedBallot b m id approver = .ok ballot) :
    b.approvers.find m.proposer id = some ballot ∧ approver ∈ ballot.requested := by
  simp only [requestedBallot, bind_eq_ok, fetch_eq_ok, check_eq_ok, pure_eq_ok] at h
  obtain ⟨_, hb, _, hr, rfl⟩ := h
  exact ⟨hb, hr⟩

theorem agreecoin_poll {approver proposer : Name} {k : Nat} {memo : String} {fx : List Effect}
    (h : agreecoin env b approver proposer k memo = .ok (b', fx)) :
    Poll b (.agreecoin approver proposer k memo) b'.motions b'.approvers := by
  simp only [agreecoin, bind_eq_ok] at h
  obtain ⟨_, -, t, -, h⟩ := h
  split at h
  · simp only [payTakecoin, bind_eq_ok, fetch_eq_ok, pure_eq_ok, Prod.mk.injEq] at h
    obtain ⟨m, hm, _, -, _, -, _, -, q, -, rfl, -⟩ := h
    exact .pay hm
  · cases h
    exact .agreecoin

@[simp] theorem decideMotion_approvers (id : Nat) (m : MotionInfo) (decided : Bool) (n : Nat) :
    (decideMotion b id m decided n).approvers = b.approvers := by
  cases decided <;> rfl

theorem decideMotion_motions (id : Nat) (m : MotionInfo) (p : Prop) [Decidable p] (n : Nat) :
    (decideMotion b id m (decide p) n).motions =
      if p then b.motions.put id { m with «section» := n } else b.motions := by
  unfold decideMotion
  by_cases hp : p <;> simp [hp]

theorem approve_poll {approver : Name} {id : Nat} {memo : String}
    (h : approve env b approver id memo = .ok b') :
    Poll b (.approve approver id memo) b'.motions b'.approvers := by
  simp only [approve, bind_eq_ok, check_eq_ok, pure_eq_ok] at h
  obtain ⟨_, -, m, hm, _, h0, ballot, hb, rfl⟩ := h
  obtain ⟨hb, hr⟩ := requestedBallot_ok hb
  rw [decideMotion_motions, decideMotion_approvers]
  exact .approve (motionUnderVote_ok hm) h0 hb hr

theorem unapprove_poll {approver : Name} {id : Nat} {memo : String}
    (h : unapprove env b approver id memo = .ok b') :
    Poll b (.unapprove approver id memo) b'.motions b'.approvers := by
  simp only [unapprove, bind_eq_ok, pure_eq_ok] at h
  obtain ⟨_, -, m, hm, ballot, hb, rfl⟩ := h
  obtain ⟨hb, hr⟩ := requestedBallot_ok hb
  rw [decideMotion_motions, decideMotion_approvers]
  exact .unapprove (motionUnderVote_ok hm) hb hr

/-- What a successful action does. -/
theorem exec_poll {a : Action} {fx : List Effect} (h : exec env b a = .ok (b', fx)) :
    Poll b a b'.motions b'.approvers := by
  cases a <;> simp only [exec, silent_eq_ok] at h
  case agreecoin => exact agreecoin_poll h
  all_goals obtain ⟨h, -⟩ := h
  case unagreecoin =>
    simp only [unagreecoin, bind_eq_ok, pure_eq_ok] at h
    obtain ⟨_, -, _, -, rfl⟩ := h
    exact .unagreecoin
  case handover =>
    simp only [handover, bind_eq_ok, pure_eq_ok] at h
    obtain ⟨_, -, rfl⟩ := h
    exact .handover
  case updateconfig =>
    simp only [updateconfig, bind_eq_ok, pure_eq_ok] at h
    obtain ⟨_, -, rfl⟩ := h
    exact .updateconfig
  case propose =>
    simp only [propose, bind_eq_ok, fetch_eq_ok, pure_eq_ok, emplace_eq_ok] at h
    obtain ⟨_, -, _, -, id, hid, _, ⟨-, rfl⟩, c, hc, _, ⟨hnone, rfl⟩, rfl⟩ := h
    exact .propose hid rfl rfl hnone hc
  case approve => exact approve_poll h
  case unapprove => exact unapprove_poll h
  case takecoin =>
    simp only [takecoin, bind_eq_ok, pure_eq_ok] at h
    obtain ⟨_, -, _, -, _, -, _, -, _, -, _, -, _, -, _, -, _, -, _, -, _, -, _, -, rfl⟩ := h
    exact .takecoin
  case turndown =>
    simp only [turndown, bind_eq_ok, fetch_eq_ok, pure_eq_ok] at h
    obtain ⟨_, -, m, hm, rfl⟩ := h
    exact .turndown hm
  case closemotion =>
    simp only [closemotion, bind_eq_ok, fetch_eq_ok, pure_eq_ok] at h
    obtain ⟨m, hm, _, -, _, -, rfl⟩ := h
    exact .closemotion hm
  case closecoin =>
    simp only [closecoin, bind_eq_ok, pure_eq_ok] at h
    obtain ⟨_, -, _, -, rfl⟩ := h
    exact .closecoin

/-! ## A row for each motion -/

/-- The `approvers` rows are those of the motions, in the scopes of their proposers. -/
def Paired (motions : Table Nat MotionInfo) (approvers : Scoped Name Nat Ballot) : Prop :=
  ∀ p i, (∃ m, motions.find i = some m ∧ m.proposer = p) ↔ (approvers.find p i).isSome = true

section Paired

variable {a : Action} {motions : Table Nat MotionInfo} {approvers : Scoped Name Nat Ballot}

/-- The row of a motion. -/
theorem Paired.find (h : Paired motions approvers) {i : Nat} {m : MotionInfo}
    (hm : motions.find i = some m) : ∃ ballot, approvers.find m.proposer i = some ballot :=
  Option.isSome_iff_exists.mp ((h m.proposer i).mp ⟨m, hm, rfl⟩)

/-- Without a motion there is no row. -/
theorem Paired.find_none (h : Paired motions approvers) {i : Nat} (hi : motions.find i = none)
    (p : Name) : approvers.find p i = none := by
  rw [← Option.not_isSome_iff_eq_none, ← h p i]
  rintro ⟨m, hm, -⟩
  rw [hi] at hm
  cases hm

/-- A motion written over one of the same proposer. -/
theorem Paired.put_motion (h : Paired motions approvers) {id : Nat} {m m' : MotionInfo}
    (hm : motions.find id = some m) (hp : m'.proposer = m.proposer) :
    Paired (motions.put id m') approvers := by
  intro p i
  rw [← h p i, Table.find_put]
  by_cases hi : id = i
  · subst hi
    simp [hm, hp]
  · simp [hi]

/-- A ballot written over another. -/
theorem Paired.put_ballot (h : Paired motions approvers) {p : Name} {id : Nat} {ballot : Ballot}
    (hb : approvers.find p id = some ballot) (ballot' : Ballot) :
    Paired motions (approvers.put p id ballot') := by
  intro q i
  rw [h q i, Scoped.find_put]
  by_cases hi : p = q ∧ id = i
  · obtain ⟨rfl, rfl⟩ := hi
    simp [hb]
  · simp [hi]

/-- A new motion with its row. -/
theorem Paired.add (h : Paired motions approvers) {id : Nat} (hid : motions.find id = none)
    (m : MotionInfo) (ballot : Ballot) :
    Paired (motions.put id m) (approvers.put m.proposer id ballot) := by
  intro p i
  rw [Table.find_put, Scoped.find_put]
  by_cases hi : id = i
  · subst hi
    by_cases hp : m.proposer = p <;> simp [hp, h.find_none hid]
  · simp [hi, h p i]

/-- A motion erased with its row. -/
theorem Paired.remove (h : Paired motions approvers) {id : Nat} {m : MotionInfo}
    (hm : motions.find id = some m) :
    Paired (motions.erase id) (approvers.erase m.proposer id) := by
  intro p i
  rw [Table.find_erase, Scoped.find_erase]
  by_cases hi : id = i
  · subst hi
    by_cases hp : m.proposer = p
    · simp [hp]
    · have hnone : ¬(approvers.find p id).isSome = true := by
        rw [← h p id]
        rintro ⟨m', hm', hp'⟩
        cases hm.symm.trans hm'
        exact hp hp'
      simpa [hp] using hnone
  · simp [hi, h p i]

/-- **Step lemma.** -/
theorem Poll.paired (hb : Paired b.motions b.approvers) (h : Poll b a motions approvers) :
    Paired motions approvers := by
  cases h with
  | handover | takecoin | agreecoin | unagreecoin | closecoin | updateconfig => exact hb
  | @propose _ _ _ _ id m c hid hp h0 hnone hc =>
    rw [← hp]
    exact hb.add (availablePrimaryKey_fresh hid) m _
  | approve hm h0 hballot hr =>
    split
    · exact (hb.put_ballot hballot _).put_motion hm rfl
    · exact hb.put_ballot hballot _
  | unapprove hm hballot hr =>
    split
    · exact (hb.put_ballot hballot _).put_motion hm rfl
    · exact hb.put_ballot hballot _
  | pay hm | turndown hm => exact hb.put_motion hm rfl
  | closemotion hm => exact hb.remove hm

end Paired

/-- **Run lemma.** -/
theorem Deployed.paired {tr : List (State × Call × State)} (hb : Deployed b)
    (h : Run Step b tr b') : Paired b'.motions b'.approvers :=
  (h.inv (I := fun b => Paired b.motions b.approvers)
    (fun p i => by simp [hb.motions, hb.approvers])
    fun _ _ _ ht hst => (exec_poll hst.1).paired ht).1

/-! ## Failures -/

/-- The row of a motion is found. -/
theorem Paired.requestedBallot_finds (hb : Paired b.motions b.approvers) {m : MotionInfo} {id : Nat}
    {approver : Name} (hm : motionUnderVote env b id = .ok m) :
    requestedBallot b m id approver ≠ .error "no approve find" := by
  obtain ⟨ballot, hballot⟩ := hb.find (motionUnderVote_ok hm)
  intro h
  simp only [requestedBallot, bind_eq_error, fetch_eq_error, check_eq_error, pure_eq_error,
    hballot] at h
  simp at h

theorem Paired.approve_finds (hb : Paired b.motions b.approvers) (env : Env) (approver : Name)
    (id : Nat) (memo : String) : approve env b approver id memo ≠ .error "no approve find" := by
  intro h
  simp only [approve, requireAuth, motionUnderVote, bind_eq_error, check_eq_error, fetch_eq_error,
    pure_eq_error] at h
  simp at h
  obtain ⟨-, m, hm, -, h⟩ := h
  exact hb.requestedBallot_finds hm h

theorem Paired.unapprove_finds (hb : Paired b.motions b.approvers) (env : Env) (approver : Name)
    (id : Nat) (memo : String) : unapprove env b approver id memo ≠ .error "no approve find" := by
  intro h
  simp only [unapprove, requireAuth, motionUnderVote, bind_eq_error, check_eq_error, fetch_eq_error,
    pure_eq_error] at h
  simp at h
  obtain ⟨-, m, hm, h⟩ := h
  exact hb.requestedBallot_finds hm h

theorem Paired.closemotion_finds (hb : Paired b.motions b.approvers) (env : Env) (id : Nat)
    (memo : String) : closemotion env b id memo ≠ .error "no approve find" := by
  intro h
  simp only [closemotion, requireAuth, bind_eq_error, check_eq_error, fetch_eq_error, fetch_eq_ok,
    pure_eq_error] at h
  simp at h
  obtain ⟨m, hm, -, h⟩ := h
  obtain ⟨ballot, hballot⟩ := hb.find hm
  rw [hballot] at h
  cases h

/-- The rows of a proposal do not collide with rows that are there. -/
theorem Paired.propose_adds (hb : Paired b.motions b.approvers) (env : Env) (proposer : Name)
    (title content : String) (quantity : Asset) :
    propose env b proposer title content quantity ≠
      .error "could not insert object, most likely a uniqueness constraint was violated" := by
  intro h
  simp only [propose, requireAuth, checkPledge, bind_eq_error, check_eq_error, fetch_eq_error,
    fetch_eq_ok, emplace_eq_error, emplace_eq_ok, pure_eq_error] at h
  simp at h
  obtain ⟨-, -, h⟩ := h
  rcases h with h | ⟨id, hid, h⟩
  · exact absurd (availablePrimaryKey_error h) (by decide)
  · have hnone := availablePrimaryKey_fresh hid
    rcases h with h | ⟨-, -, h⟩
    · rw [hnone] at h
      cases h
    · have hrow := hb.find_none hnone proposer
      rw [Scoped.find] at hrow
      rw [hrow] at h
      cases h

/-- In every state that is reached, the `approvers` row of a motion is in the scope of its proposer
and there are no other rows. A proposal does not collide with a row that is left, and a vote about
a motion or its close finds the row. -/
theorem motions_paired {tr : List (State × Call × State)} (hb : Deployed b)
    (h : Run Step b tr b') :
    (∀ p i, (∃ m, b'.motions.find i = some m ∧ m.proposer = p) ↔
      (b'.approvers.find p i).isSome = true ∧ ∀ q ≠ p, b'.approvers.find q i = none) ∧
    ∀ env,
      (∀ proposer title content quantity, propose env b' proposer title content quantity ≠
        .error "could not insert object, most likely a uniqueness constraint was violated") ∧
      (∀ approver id memo, approve env b' approver id memo ≠ .error "no approve find") ∧
      (∀ approver id memo, unapprove env b' approver id memo ≠ .error "no approve find") ∧
      ∀ id memo, closemotion env b' id memo ≠ .error "no approve find" := by
  have hp := hb.paired h
  refine ⟨fun p i => ⟨fun hm => ⟨(hp p i).mp hm, fun q hq => ?_⟩, fun hs => (hp p i).mpr hs.1⟩,
    fun env => ⟨hp.propose_adds env, hp.approve_finds env, hp.unapprove_finds env,
      hp.closemotion_finds env⟩⟩
  obtain ⟨m, hm, rfl⟩ := hm
  rw [← Option.not_isSome_iff_eq_none, ← hp q i]
  rintro ⟨m', hm', rfl⟩
  cases hm.symm.trans hm'
  exact hq rfl

/-- A motion that has passed keeps its row. -/
theorem motions_paired_passed : ∃ tr, Run Step seated tr passed ∧
    (∃ m, passed.motions.find 0 = some m ∧ m.proposer = 1) ∧
    (passed.approvers.find 1 0).isSome = true ∧ ∀ q ≠ 1, passed.approvers.find q 0 = none := by
  have hr : Run Step seated _ passed := .snoc (.snoc .nil proposed_step) passed_step
  have hm : ∃ m, passed.motions.find 0 = some m ∧ m.proposer = 1 := ⟨_, rfl, rfl⟩
  exact ⟨_, hr, hm, ((motions_paired seated_deployed hr).1 1 0).mp hm⟩

/-! ## A motion that was turned down -/

/-- Motion `id` is turned down. -/
def TurnedDown (motions : Table Nat MotionInfo) (id : Nat) : Prop :=
  ∃ m, motions.find id = some m ∧ m.section = 3

/-- The action is not a vote against motion `id` after which more than a third are against it. -/
def LeavesRefusal (id : Nat) (b : State) (c : Call) : Prop :=
  ∀ approver memo m ballot, c.action = .unapprove approver id memo →
    b.motions.find id = some m → b.approvers.find m.proposer id = some ballot →
    ¬(ballot.refuse approver).Refused

theorem LeavesRefusal.of_other {id : Nat} {c : Call}
    (h : ∀ approver memo, c.action ≠ .unapprove approver id memo) : LeavesRefusal id b c :=
  fun approver memo _ _ ha => absurd ha (h approver memo)

/-- A write to another motion, or one that keeps section 3. -/
theorem TurnedDown.put {id id' : Nat} {m : MotionInfo} (hb : TurnedDown b.motions id)
    (hm : id' = id → m.section = 3) : TurnedDown (b.motions.put id' m) id := by
  obtain ⟨m₀, hm₀, h3⟩ := hb
  by_cases hid : id' = id
  · exact ⟨m, by rw [hid, Table.find_put_self], hm hid⟩
  · exact ⟨m₀, by rw [Table.find_put_ne _ _ hid, hm₀], h3⟩

/-- **Step lemma.** A motion that is not closed stays turned down exactly when no vote against it
finds more than a third against it. -/
theorem Poll.turnedDown_iff {id : Nat} {c : Call} {motions : Table Nat MotionInfo}
    {approvers : Scoped Name Nat Ballot} (hb : TurnedDown b.motions id)
    (h : Poll b c.action motions approvers) (hopen : ¬c.action.ClosesMotion id) :
    TurnedDown motions id ↔ LeavesRefusal id b c := by
  obtain ⟨env, a, fx⟩ := c
  simp only at h hopen
  have h3 := hb
  obtain ⟨m₀, hm₀, h3⟩ := h3
  cases h with
  | handover | takecoin | agreecoin | unagreecoin | closecoin | updateconfig =>
    exact iff_of_true hb (.of_other fun _ _ e => by cases e)
  | propose hid hp h0 hnone hc =>
    have hne := (lt_availablePrimaryKey hid hm₀).ne'
    exact iff_of_true (hb.put fun e => absurd e hne) (.of_other fun _ _ e => by cases e)
  | @approve _ id' _ m ballot hm h0 hballot hr =>
    refine iff_of_true ?_ (.of_other fun _ _ e => by cases e)
    split
    · apply hb.put
      intro e
      subst e
      cases hm.symm.trans hm₀
      omega
    · exact hb
  | @unapprove approver id' memo m ballot hm hballot hr =>
    by_cases hid : id' = id
    · subst hid
      by_cases href : (ballot.refuse approver).Refused
      · rw [if_pos href]
        refine iff_of_false ?_ fun hl => hl approver memo m ballot rfl hm hballot href
        rintro ⟨m', hm', h3'⟩
        rw [Table.find_put_self] at hm'
        cases hm'
        cases h3'
      · rw [if_neg href]
        refine iff_of_true hb fun _ _ m' ballot' ha hm' hb' => ?_
        cases ha
        cases hm.symm.trans hm'
        cases hballot.symm.trans hb'
        exact href
    · refine iff_of_true ?_ (.of_other fun _ _ e => by cases e; exact hid rfl)
      split
      · exact hb.put fun e => absurd e hid
      · exact hb
  | @pay _ _ _ id' _ m q hm =>
    refine iff_of_true (hb.put fun e => ?_) (.of_other fun _ _ e => by cases e)
    subst e
    cases hm.symm.trans hm₀
    exact h3
  | turndown hm => exact iff_of_true (hb.put fun _ => rfl) (.of_other fun _ _ e => by cases e)
  | @closemotion id' memo m hm =>
    refine iff_of_true ⟨m₀, ?_, h3⟩ (.of_other fun _ _ e => by cases e)
    rw [Table.find_erase_ne _ fun e => hopen ⟨memo, by rw [e]⟩, hm₀]

/-- `turndown` puts the motion into section 3. -/
theorem Poll.turndown_turnedDown {id : Nat} {memo : String} {motions : Table Nat MotionInfo}
    {approvers : Scoped Name Nat Ballot} (h : Poll b (.turndown id memo) motions approvers) :
    TurnedDown motions id := by
  cases h with
  | turndown hm => exact ⟨_, Table.find_put_self _ _ _, rfl⟩

/-- From its `turndown` and until it is closed, a motion is in section 3 in every state exactly when
no vote against it finds more than a third against it. -/
theorem turned_down_stays_iff {c : Call} {id : Nat} {memo : String} {t : State}
    {tr : List (State × Call × State)} (hst : Step b c t) (hc : c.action = .turndown id memo)
    (h : Run Step t tr b') (hopen : ∀ e ∈ tr, ¬e.2.1.action.ClosesMotion id) :
    (∀ e ∈ tr, TurnedDown e.2.2.motions id) ↔ ∀ e ∈ tr, LeavesRefusal id e.1 e.2.1 := by
  have hpoll := exec_poll hst.1
  rw [hc] at hpoll
  exact (h.restrict hopen).always_iff (P := fun b => TurnedDown b.motions id)
    hpoll.turndown_turnedDown fun _ _ _ ht hst => (exec_poll hst.1.1).turnedDown_iff ht hst.2

/-- The motion of account 1 is turned down before any vote. -/
def turnedDown : State := proposed.next (.of eosioBudget 2) (.turndown 0 "")

theorem turnedDown_step : Step proposed ⟨.of eosioBudget 2, .turndown 0 "", []⟩ turnedDown :=
  State.next_step _ _ _ rfl (accepted_nil _)

/-- It stays so when it is turned down once more. -/
theorem turned_down_stays_iff_turnedDown : ∃ tr b', Run Step turnedDown tr b' ∧
    ∀ e ∈ tr, TurnedDown e.2.2.motions 0 := by
  have hr : Run Step turnedDown _ (turnedDown.next (.of eosioBudget 3) (.turndown 0 "")) :=
    .snoc .nil (State.next_step _ _ _ rfl (accepted_nil _))
  refine ⟨_, _, hr, (turned_down_stays_iff turnedDown_step rfl hr ?_).mpr ?_⟩
  all_goals
    simp only [List.nil_append, List.mem_singleton]
    rintro e rfl
  · rintro ⟨memo, h⟩
    cases h
  · exact .of_other fun _ _ h => by cases h

/-- A vote of the committee against it makes it a refused motion. -/
theorem turnedDown_refused : ¬∀ (b₀ b t b' : State) (c : Call) (id : Nat) (memo : String)
    (tr₀ tr : List (State × Call × State)), Deployed b₀ → Run Step b₀ tr₀ b → Step b c t →
    c.action = .turndown id memo → Run Step t tr b' →
    (∀ e ∈ tr, ¬e.2.1.action.ClosesMotion id) → ∀ e ∈ tr, TurnedDown e.2.2.motions id := by
  intro hall
  have hst : Step turnedDown ⟨pledgedEnv 3 3, .unapprove 3 0 "", []⟩
      (turnedDown.next (pledgedEnv 3 3) (.unapprove 3 0 "")) :=
    State.next_step _ _ _ rfl (accepted_nil _)
  have hall := hall _ _ _ _ _ 0 "" _ _ seated_deployed (.snoc .nil proposed_step) turnedDown_step
    rfl (.snoc .nil hst) (by
      simp only [List.nil_append, List.mem_singleton]
      rintro e rfl ⟨memo, h⟩
      cases h) _ (List.mem_singleton.mpr rfl)
  obtain ⟨m, hm, h3⟩ := hall
  cases hm
  cases h3

end Eosforce.Budget
