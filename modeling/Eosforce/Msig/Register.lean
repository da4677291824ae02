import Eosforce.Msig.Actions
import Mathlib.Logic.Function.Basic

/-!
# The contract as a register of ballots

What the contract is for: one ballot for each proposal, in which the requested levels vote for a
transaction, and in which a vote stops counting when its actor invalidates.

* `Vote`, `Ballot`, `Register`: the register, as functions of the proposal.
* `Register.apply`: what an action does to it.
* `Sound`: the tables of approvals have a row for a proposal exactly when the table of proposals
  does, in one of the two tables.
* `State.register`: the register that the tables stand for.
* `apply_register`: on sound tables an action does what it does to the register, with the same
  errors and the same transaction sent, and leaves sound tables.
-/

namespace Eosforce.Msig

open Fallible Keyed Lanes PackedTransaction

/-! ## The register -/

/-- A vote; one without a time comes from a row of the first version of the contract. -/
structure Vote where
  level : PermissionLevel
  time : Option Nat
  deriving DecidableEq

/-- A proposed transaction with the levels that have not voted and the votes. -/
structure Ballot (τ : Type) where
  trx : τ
  /-- Votes get a time. -/
  timed : Bool
  requested : List PermissionLevel
  provided : List Vote

/-- The proposer and the name of a proposal. -/
abbrev Key := Name × Name

/-- The ballots, and when an account has last invalidated. -/
structure Register (τ : Type) where
  ballots : Key → Option (Ballot τ)
  invalidated : Name → Option Nat

/-- A vote stands if its actor has never invalidated, or has voted since. -/
def Vote.stands (invalidated : Name → Option Nat) (v : Vote) : Bool :=
  (invalidated v.level.actor).all fun t => v.time.any (t < ·)

section

variable {τ : Type}

/-- The level votes. -/
def Ballot.vote (b : Ballot τ) (level : PermissionLevel) (now : Nat) : Ballot τ :=
  { b with
    requested := b.requested.erase level
    provided := b.provided ++ [⟨level, if b.timed then some now else none⟩] }

/-- The level takes back its first vote. -/
def Ballot.unvote (b : Ballot τ) (level : PermissionLevel) : Ballot τ :=
  { b with
    requested := b.requested ++ [level]
    provided := pop Vote.level level b.provided }

/-- The levels of the votes that stand. -/
def Ballot.counted (b : Ballot τ) (invalidated : Name → Option Nat) : List PermissionLevel :=
  (b.provided.filter (Vote.stands invalidated)).map (·.level)

/-- The register with another ballot for a proposal. -/
def Register.set (r : Register τ) (k : Key) (b : Option (Ballot τ)) : Register τ :=
  { r with ballots := Function.update r.ballots k b }

variable {η : Type} [PackedTransaction τ η] [DecidableEq η]

/-- What an action does to the register, and what it sends. -/
def Register.apply (ctx : Ctx τ) (r : Register τ) :
    Action τ η → Except String (Register τ × Option (Deferred τ))
  | .propose p n requested trx => do
    let expiration ← expiration trx
    requireActor ctx p
    check (ctx.currentTimeSec ≤ expiration) "transaction expired"
    check ((r.ballots (p, n)).isNone = true) "proposal with the same name exists"
    check (0 < ctx.checkTransactionAuthorization trx requested) "transaction authorization failed"
    pure (r.set (p, n) (some ⟨trx, true, requested, []⟩), none)
  | .approve p n level hash => do
    requireLevel ctx level
    let b ← fetch (r.ballots (p, n)) "proposal not found"
    check (∀ h ∈ hash, sha256 b.trx = h) "hash mismatch"
    check (level ∈ b.requested) "approval is not on the list of requested approvals"
    pure (r.set (p, n) (some (b.vote level ctx.currentTimePoint)), none)
  | .unapprove p n level => do
    requireLevel ctx level
    let b ← fetch (r.ballots (p, n)) "proposal not found"
    check (∃ v ∈ b.provided, v.level = level) "no approval previously granted"
    pure (r.set (p, n) (some (b.unvote level)), none)
  | .cancel p n canceler => do
    requireActor ctx canceler
    let b ← fetch (r.ballots (p, n)) "proposal not found"
    checkCancel ctx b.trx p canceler
    pure (r.set (p, n) none, none)
  | .exec p n executer => do
    requireActor ctx executer
    let b ← fetch (r.ballots (p, n)) "proposal not found"
    let expiration ← expiration b.trx
    check (ctx.currentTimeSec ≤ expiration) "transaction expired"
    check (0 < ctx.checkTransactionAuthorization b.trx (b.counted r.invalidated))
      "transaction authorization failed"
    ctx.sendDeferred ⟨senderId p n, executer, b.trx⟩
    pure (r.set (p, n) none, some ⟨senderId p n, executer, b.trx⟩)
  | .invalidate account => do
    requireActor ctx account
    pure ({ r with
      invalidated := Function.update r.invalidated account (some ctx.currentTimePoint) }, none)

/-! ## The tables -/

/-- What the three tables hold of one proposal. -/
inductive Paired : Option τ → Option ApprovalsInfo → Option OldApprovalsInfo → Prop
  | absent : Paired none none none
  | timed (trx : τ) (apps : ApprovalsInfo) : Paired (some trx) (some apps) none
  | old (trx : τ) (apps : OldApprovalsInfo) : Paired (some trx) none (some apps)

/-- The tables agree on which proposals there are. -/
def Sound (s : State τ) : Prop :=
  ∀ p n, Paired (s.proposals.find p n) (s.approvals.find p n) (s.oldApprovals.find p n)

theorem sound_empty : Sound ({} : State τ) := fun _ _ => .absent

/-- The ballot of a row of table `approvals2`. -/
def ApprovalsInfo.ballot (apps : ApprovalsInfo) (trx : τ) : Ballot τ where
  trx := trx
  timed := true
  requested := apps.requestedApprovals.map (·.level)
  provided := apps.providedApprovals.map fun a => ⟨a.level, some a.time⟩

/-- The ballot of a row of table `approvals`. -/
def OldApprovalsInfo.ballot (apps : OldApprovalsInfo) (trx : τ) : Ballot τ where
  trx := trx
  timed := false
  requested := apps.requestedApprovals
  provided := apps.providedApprovals.map fun level => ⟨level, none⟩

/-- The ballot of the rows of one proposal. -/
def ballotOf : Option τ → Option ApprovalsInfo → Option OldApprovalsInfo → Option (Ballot τ)
  | some trx, some apps, _ => some (apps.ballot trx)
  | some trx, none, some apps => some (apps.ballot trx)
  | _, _, _ => none

/-- The ballot of a proposal. -/
def State.ballot (s : State τ) (k : Key) : Option (Ballot τ) :=
  ballotOf (s.proposals.find k.1 k.2) (s.approvals.find k.1 k.2) (s.oldApprovals.find k.1 k.2)

/-- The register that the tables stand for. -/
def State.register (s : State τ) : Register τ where
  ballots := s.ballot
  invalidated := s.invalidations.find

/-! ## One proposal changes -/

/-- The tables differ in the rows of one proposal at most. -/
structure SameBut (p n : Name) (s s' : State τ) : Prop where
  proposals : ∀ p' n', ¬(p = p' ∧ n = n') → s'.proposals.find p' n' = s.proposals.find p' n'
  approvals : ∀ p' n', ¬(p = p' ∧ n = n') → s'.approvals.find p' n' = s.approvals.find p' n'
  oldApprovals : ∀ p' n', ¬(p = p' ∧ n = n') →
    s'.oldApprovals.find p' n' = s.oldApprovals.find p' n'
  invalidations : s'.invalidations = s.invalidations

/-- What the tables say after a change of one proposal. -/
theorem SameBut.register {p n : Name} {s s' : State τ} (h : SameBut p n s s') (hs : Sound s)
    (hp : Paired (s'.proposals.find p n) (s'.approvals.find p n) (s'.oldApprovals.find p n)) :
    Sound s' ∧ s'.register = s.register.set (p, n) (s'.ballot (p, n)) := by
  refine ⟨fun p' n' => ?_, ?_⟩
  · by_cases hk : p = p' ∧ n = n'
    · obtain ⟨rfl, rfl⟩ := hk
      exact hp
    · rw [h.proposals p' n' hk, h.approvals p' n' hk, h.oldApprovals p' n' hk]
      exact hs p' n'
  · have hballots : s'.ballot = Function.update s.ballot (p, n) (s'.ballot (p, n)) := by
      funext k
      by_cases hk : k = (p, n)
      · subst hk
        rw [Function.update_self]
      · have hk' : ¬(p = k.1 ∧ n = k.2) := fun e => hk (Prod.ext e.1.symm e.2.symm)
        rw [Function.update_of_ne hk]
        unfold State.ballot
        rw [h.proposals _ _ hk', h.approvals _ _ hk', h.oldApprovals _ _ hk']
    exact congrArg₂ Register.mk hballots (congrArg Table.find h.invalidations)

/-- The result of an action on the tables stands for one on the register. -/
def Stands (x : State τ × Option (Deferred τ)) (y : Register τ × Option (Deferred τ)) : Prop :=
  Sound x.1 ∧ y = (x.1.register, x.2)

/-- The rows of a proposal, and its ballot. -/
theorem Sound.rows {s : State τ} (hs : Sound s) (p n : Name) :
    (s.proposals.find p n = none ∧ s.approvals.find p n = none ∧ s.oldApprovals.find p n = none ∧
      s.register.ballots (p, n) = none) ∨
    (∃ trx apps, s.proposals.find p n = some trx ∧ s.approvals.find p n = some apps ∧
      s.oldApprovals.find p n = none ∧ s.register.ballots (p, n) = some (apps.ballot trx)) ∨
    ∃ trx apps, s.proposals.find p n = some trx ∧ s.approvals.find p n = none ∧
      s.oldApprovals.find p n = some apps ∧ s.register.ballots (p, n) = some (apps.ballot trx) := by
  have hp := hs p n
  have hb : s.register.ballots (p, n) =
    ballotOf (s.proposals.find p n) (s.approvals.find p n) (s.oldApprovals.find p n) := rfl
  rw [hb]
  generalize s.proposals.find p n = a, s.approvals.find p n = b, s.oldApprovals.find p n = c at hp
  cases hp with
  | absent => exact .inl ⟨rfl, rfl, rfl, rfl⟩
  | timed trx apps => exact .inr (.inl ⟨trx, apps, rfl, rfl, rfl, rfl⟩)
  | old trx apps => exact .inr (.inr ⟨trx, apps, rfl, rfl, rfl, rfl⟩)

/-- The proposals are those of the register. -/
theorem Sound.proposal {s : State τ} (hs : Sound s) (p n : Name) :
    s.proposals.find p n = (s.register.ballots (p, n)).map (·.trx) := by
  rcases hs.rows p n with ⟨hp, -, -, hb⟩ | ⟨_, _, hp, -, -, hb⟩ | ⟨_, _, hp, -, -, hb⟩ <;>
    rw [hp, hb] <;> rfl

theorem SameBut.stands {p n : Name} {s s' : State τ} {x : Option (Deferred τ)}
    {b : Option (Ballot τ)} (h : SameBut p n s s') (hs : Sound s)
    (hp : Paired (s'.proposals.find p n) (s'.approvals.find p n) (s'.oldApprovals.find p n))
    (hb : ballotOf (s'.proposals.find p n) (s'.approvals.find p n) (s'.oldApprovals.find p n) = b) :
    Stands (s', x) (s.register.set (p, n) b, x) := by
  obtain ⟨hsound, hreg⟩ := h.register hs hp
  subst hb
  exact ⟨hsound, Prod.ext hreg.symm rfl⟩

/-! ## The actions -/

theorem propose_register {ctx : Ctx τ} {s : State τ} (hs : Sound s) (p n : Name)
    (requested : List PermissionLevel) (trx : τ) :
    Rel Stands (unsent (propose ctx s p n requested trx))
      (Register.apply ctx s.register (.propose p n requested trx)) := by
  unfold unsent propose Register.apply
  simp only [bind_assoc]
  refine .bind_same fun e _ => .bind_same fun _ _ => .bind_same fun _ _ => ?_
  rcases hs.rows p n with ⟨hp, ha, ho, hb⟩ | ⟨_, _, hp, -, -, hb⟩ | ⟨_, _, hp, -, -, hb⟩
  · rw [hp, hb]
    refine .bind_same fun _ _ => .bind_same fun _ _ => ?_
    have hp' : (s.proposals.scope p).find n = none := hp
    have ha' : (s.approvals.scope p).find n = none := ha
    rw [emplace_eq_ok.mpr ⟨hp', rfl⟩, emplace_eq_ok.mpr ⟨ha', rfl⟩]
    have hsame : SameBut p n s { s with
        proposals := s.proposals.put p n trx
        approvals := s.approvals.put p n
          { requestedApprovals := requested.map fun level => ⟨level, 0⟩ } } :=
      ⟨fun _ _ h => Scoped.find_put_ne _ _ h, fun _ _ h => Scoped.find_put_ne _ _ h,
        fun _ _ _ => rfl, rfl⟩
    refine .pure (hsame.stands hs ?_ ?_)
    · simp only [Scoped.find_put_self, ho]
      exact .timed _ _
    · simp only [Scoped.find_put_self, ballotOf, ApprovalsInfo.ballot, List.map_map, List.map_nil]
      rw [show (fun a : Approval => a.level) ∘ (fun level => ⟨level, 0⟩) = id from rfl, List.map_id]
  · rw [hp, hb]
    exact .error _
  · rw [hp, hb]
    exact .error _

/-- The checksum is checked on the ballot's transaction. -/
theorem checkHash_of_find {s : State τ} {p n : Name} {trx : τ} (hash : Option η)
    (hp : s.proposals.find p n = some trx) :
    checkHash s p n hash = check (∀ h ∈ hash, sha256 trx = h) "hash mismatch" := by
  unfold checkHash check
  cases hash with
  | none =>
    rw [if_pos (by simp)]
  | some h =>
    rw [hp]
    show (if sha256 trx = h then Except.ok () else _) = _
    simp only [Option.mem_some_iff, forall_eq']

theorem checkHash_absent {s : State τ} {p n : Name} (hash : Option η)
    (hp : s.proposals.find p n = none) :
    checkHash s p n hash = .ok () ∨ checkHash s p n hash = .error "proposal not found" := by
  unfold checkHash
  cases hash with
  | none => exact .inl rfl
  | some h =>
    rw [hp]
    exact .inr rfl

theorem approve_register {ctx : Ctx τ} {s : State τ} (hs : Sound s) (p n : Name)
    (level : PermissionLevel) (hash : Option η) :
    Rel Stands (unsent (approve ctx s p n level hash))
      (Register.apply ctx s.register (.approve p n level hash)) := by
  unfold unsent approve Register.apply
  simp only [bind_assoc]
  refine .bind_same fun _ _ => ?_
  rcases hs.rows p n with ⟨hp, ha, ho, hb⟩ | ⟨trx, apps, hp, ha, ho, hb⟩ |
    ⟨trx, apps, hp, ha, ho, hb⟩
  · rw [ha, ho, hb]
    rcases checkHash_absent hash hp with h | h
    · rw [h]
      exact .error _
    · rw [h]
      exact .error _
  · rw [ha, hb, checkHash_of_find hash hp]
    refine .bind_same fun _ _ => ?_
    simp only [bind_assoc]
    refine .check (by simp [ApprovalsInfo.ballot]) fun _ => .pure ?_
    refine SameBut.stands ⟨fun _ _ _ => rfl, fun _ _ h => Scoped.find_put_ne _ _ h,
      fun _ _ _ => rfl, rfl⟩ hs ?_ ?_
    · simp only [Scoped.find_put_self, hp, ho]
      exact .timed _ _
    · simp only [Scoped.find_put_self, hp, ballotOf, ApprovalsInfo.ballot, Ballot.vote, map_pop,
        List.map_append, List.map_cons, List.map_nil, ↓reduceIte]
  · rw [ha, ho, hb, checkHash_of_find hash hp]
    refine .bind_same fun _ _ => ?_
    simp only [bind_assoc]
    show Rel Stands (check _ _ >>= _) _
    refine .check Iff.rfl fun _ => .pure ?_
    refine SameBut.stands ⟨fun _ _ _ => rfl, fun _ _ _ => rfl,
      fun _ _ h => Scoped.find_put_ne _ _ h, rfl⟩ hs ?_ ?_
    · simp only [Scoped.find_put_self, hp, ha]
      exact .old _ _
    · simp only [Scoped.find_put_self, hp, ha, ballotOf, OldApprovalsInfo.ballot, Ballot.vote,
        List.map_append, List.map_cons, List.map_nil, Bool.false_eq_true, ↓reduceIte]

theorem unapprove_register {ctx : Ctx τ} {s : State τ} (hs : Sound s) (p n : Name)
    (level : PermissionLevel) :
    Rel Stands (unsent (unapprove ctx s p n level))
      (Register.apply ctx s.register (.unapprove p n level : Action τ η)) := by
  unfold unsent unapprove Register.apply
  simp only [bind_assoc]
  refine .bind_same fun _ _ => ?_
  rcases hs.rows p n with ⟨hp, ha, ho, hb⟩ | ⟨trx, apps, hp, ha, ho, hb⟩ |
    ⟨trx, apps, hp, ha, ho, hb⟩
  · rw [ha, ho, hb]
    exact .error _
  · rw [ha, hb]
    simp only [bind_assoc]
    refine .check (by simp [ApprovalsInfo.ballot]) fun _ => .pure ?_
    refine SameBut.stands ⟨fun _ _ _ => rfl, fun _ _ h => Scoped.find_put_ne _ _ h,
      fun _ _ _ => rfl, rfl⟩ hs ?_ ?_
    · simp only [Scoped.find_put_self, hp, ho]
      exact .timed _ _
    · simp only [Scoped.find_put_self, hp, ballotOf, ApprovalsInfo.ballot, Ballot.unvote, pop_map,
        List.map_append, List.map_cons, List.map_nil]
  · rw [ha, ho, hb]
    simp only [bind_assoc]
    show Rel Stands (check _ _ >>= _) (check _ _ >>= _)
    refine .check (by simp [OldApprovalsInfo.ballot]) fun _ => .pure ?_
    refine SameBut.stands ⟨fun _ _ _ => rfl, fun _ _ _ => rfl,
      fun _ _ h => Scoped.find_put_ne _ _ h, rfl⟩ hs ?_ ?_
    · simp only [Scoped.find_put_self, hp, ha]
      exact .old _ _
    · simp only [Scoped.find_put_self, hp, ha, ballotOf, OldApprovalsInfo.ballot, Ballot.unvote,
        pop_map, pop_id]

theorem cancel_register {ctx : Ctx τ} {s : State τ} (hs : Sound s) (p n canceler : Name) :
    Rel Stands (unsent (cancel ctx s p n canceler))
      (Register.apply ctx s.register (.cancel p n canceler : Action τ η)) := by
  unfold unsent cancel eraseApprovals Register.apply
  simp only [bind_assoc]
  refine .bind_same fun _ _ => ?_
  rcases hs.rows p n with ⟨hp, ha, ho, hb⟩ | ⟨trx, apps, hp, ha, ho, hb⟩ |
    ⟨trx, apps, hp, ha, ho, hb⟩
  · rw [hp, hb]
    exact .error _
  · rw [hp, ha, hb]
    refine .bind_same fun _ _ => .pure ?_
    refine SameBut.stands ⟨fun _ _ h => Scoped.find_erase_ne _ h,
      fun _ _ h => Scoped.find_erase_ne _ h, fun _ _ _ => rfl, rfl⟩ hs ?_ ?_
    · simp only [Scoped.find_erase_self, ho]
      exact .absent
    · simp only [Scoped.find_erase_self, ballotOf]
  · rw [hp, ha, ho, hb]
    refine .bind_same fun _ _ => .pure ?_
    refine SameBut.stands ⟨fun _ _ h => Scoped.find_erase_ne _ h, fun _ _ _ => rfl,
      fun _ _ h => Scoped.find_erase_ne _ h, rfl⟩ hs ?_ ?_
    · simp only [Scoped.find_erase_self, ha]
      exact .absent
    · simp only [Scoped.find_erase_self, ballotOf]

/-- The approvals of table `approvals2` that count are the votes that stand. -/
theorem ApprovalsInfo.counted_ballot (apps : ApprovalsInfo) (trx : τ) (t : Table Name Nat) :
    (apps.ballot trx).counted t.find = (apps.providedApprovals.filter fun p =>
      match t.find p.level.actor with
      | none => true
      | some lastInvalidationTime => lastInvalidationTime < p.time).map (·.level) := by
  unfold Ballot.counted ApprovalsInfo.ballot
  simp only [List.filter_map, List.map_map]
  refine congrArg₂ List.map rfl (List.filter_congr fun a _ => ?_)
  show Vote.stands t.find ⟨a.level, some a.time⟩ = _
  unfold Vote.stands
  cases t.find a.level.actor <;> rfl

/-- The approvals of the old table that count are the votes that stand. -/
theorem OldApprovalsInfo.counted_ballot (apps : OldApprovalsInfo) (trx : τ) (t : Table Name Nat) :
    (apps.ballot trx).counted t.find =
      apps.providedApprovals.filter fun level => (t.find level.actor).isNone := by
  unfold Ballot.counted OldApprovalsInfo.ballot
  simp only [List.filter_map, List.map_map]
  rw [show (fun v : Vote => v.level) ∘ (fun level => ⟨level, none⟩) = id from rfl, List.map_id]
  refine List.filter_congr fun level _ => ?_
  show Vote.stands t.find ⟨level, none⟩ = _
  unfold Vote.stands
  cases t.find level.actor <;> rfl

theorem exec_register {ctx : Ctx τ} {s : State τ} (hs : Sound s) (p n executer : Name) :
    Rel Stands (exec ctx s p n executer)
      (Register.apply ctx s.register (.exec p n executer : Action τ η)) := by
  unfold exec takeApprovals Register.apply
  refine .bind_same fun _ _ => ?_
  rcases hs.rows p n with ⟨hp, ha, ho, hb⟩ | ⟨trx, apps, hp, ha, ho, hb⟩ |
    ⟨trx, apps, hp, ha, ho, hb⟩
  · rw [hp, hb]
    exact .error _
  · rw [hp, ha, hb]
    show Rel Stands (expiration trx >>= _) (expiration trx >>= _)
    refine .bind_same fun _ _ => .bind_same fun _ _ => ?_
    rw [show s.register.invalidated = s.invalidations.find from rfl, apps.counted_ballot]
    show Rel Stands (check _ _ >>= _) (check _ _ >>= _)
    refine .check Iff.rfl fun _ => .bind_same fun _ _ => .pure ?_
    refine SameBut.stands ⟨fun _ _ h => Scoped.find_erase_ne _ h,
      fun _ _ h => Scoped.find_erase_ne _ h, fun _ _ _ => rfl, rfl⟩ hs ?_ ?_
    · simp only [Scoped.find_erase_self, ho]
      exact .absent
    · simp only [Scoped.find_erase_self, ballotOf]
  · rw [hp, ha, ho, hb]
    show Rel Stands (expiration trx >>= _) (expiration trx >>= _)
    refine .bind_same fun _ _ => .bind_same fun _ _ => ?_
    rw [show s.register.invalidated = s.invalidations.find from rfl, apps.counted_ballot]
    show Rel Stands (check _ _ >>= _) (check _ _ >>= _)
    refine .check Iff.rfl fun _ => .bind_same fun _ _ => .pure ?_
    refine SameBut.stands ⟨fun _ _ h => Scoped.find_erase_ne _ h, fun _ _ _ => rfl,
      fun _ _ h => Scoped.find_erase_ne _ h, rfl⟩ hs ?_ ?_
    · simp only [Scoped.find_erase_self, ha]
      exact .absent
    · simp only [Scoped.find_erase_self, ballotOf]

theorem invalidate_register {ctx : Ctx τ} {s : State τ} (hs : Sound s) (account : Name) :
    Rel Stands (unsent (invalidate ctx s account))
      (Register.apply ctx s.register (.invalidate account : Action τ η)) := by
  unfold unsent invalidate Register.apply
  simp only [bind_assoc]
  refine .bind_same fun _ _ => .pure ⟨hs, Prod.ext (congrArg (Register.mk s.ballot) ?_) rfl⟩
  funext a
  simp only [Table.find_put, Function.update_apply, State.register, eq_comm]

/-- **Refinement.** On sound tables an action does what it does to the register, fails with the
same error, and leaves sound tables. -/
theorem apply_register {ctx : Ctx τ} {s : State τ} (hs : Sound s) (a : Action τ η) :
    Rel Stands (apply ctx s a) (Register.apply ctx s.register a) := by
  cases a with
  | propose p n requested trx => exact propose_register hs p n requested trx
  | approve p n level hash => exact approve_register hs p n level hash
  | unapprove p n level => exact unapprove_register hs p n level
  | cancel p n canceler => exact cancel_register hs p n canceler
  | exec p n executer => exact exec_register hs p n executer
  | invalidate account => exact invalidate_register hs account

end

end Eosforce.Msig
