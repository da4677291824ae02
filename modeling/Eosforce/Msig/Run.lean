import Eosforce.Lib.Run
import Eosforce.Msig.Register

/-!
# Runs of the multisig contract

* `Call`, `Step`, `Trace`: the runs of the contract, with what each action sends.
* `Register.Step`, `Register.Change`: the runs of the register, and what a step of it does.
* `run_register`, `register_run`: the contract and the register make the same runs
  (`refines_register`).
* `proposals_accounted`: what was proposed was executed, was cancelled or is there.
* `Ends`, `proposal_stays`: how a proposal may end.
* `run_project`: what happens to a proposal does not depend on the actions about others.
-/

namespace Eosforce.Msig

open Fallible Keyed Lanes Runs PackedTransaction

/-- An action with its context and the transaction that it sends. -/
structure Call (τ η : Type) where
  ctx : Ctx τ
  act : Action τ η
  sent : Option (Deferred τ) := none

variable {τ η : Type} [PackedTransaction τ η] [DecidableEq η]

/-- A successful action. -/
def Step (s : State τ) (c : Call τ η) (s' : State τ) : Prop :=
  apply c.ctx s c.act = .ok (s', c.sent)

/-- A successful action on the register. -/
def Register.Step (r : Register τ) (c : Call τ η) (r' : Register τ) : Prop :=
  Register.apply c.ctx r c.act = .ok (r', c.sent)

/-- The steps of a run with the states around them. -/
abbrev Trace (τ η : Type) := List (State τ × Call τ η × State τ)

/-! ## The two models make the same runs -/

theorem Step.register {s s' : State τ} {c : Call τ η} (h : Step s c s') (hs : Sound s) :
    Sound s' ∧ Register.Step s.register c s'.register := by
  obtain ⟨y, hy, hsound, rfl⟩ := (apply_register hs c.act).of_ok h
  exact ⟨hsound, hy⟩

theorem Register.Step.tables {s : State τ} {r : Register τ} {c : Call τ η}
    (h : Register.Step s.register c r) (hs : Sound s) :
    ∃ s', Msig.Step s c s' ∧ Sound s' ∧ s'.register = r := by
  obtain ⟨⟨s', x⟩, hx, hsound, he⟩ := (apply_register hs c.act).of_ok' h
  obtain ⟨hr, hsent⟩ := Prod.mk.inj he
  refine ⟨s', ?_, hsound, hr.symm⟩
  unfold Msig.Step
  rw [show c.sent = x from hsent]
  exact hx

/-- A run of the contract keeps the tables sound. -/
theorem run_sound {s t : State τ} {tr : Trace τ η} (h : Run Step s tr t) (hs : Sound s) : Sound t :=
  (h.inv hs fun _ _ _ hI hst => (hst.register hI).1).1

/-- Every run of the contract is a run of the register with the same actions, which send the same
transactions. -/
theorem run_register {s t : State τ} {tr : Trace τ η} (h : Run Step s tr t) (hs : Sound s) :
    Run Register.Step s.register (image State.register tr) t.register :=
  (h.image hs fun _ _ _ hI hst => hst.register hI).2

/-- Every run of the register is the image of a run of the contract. -/
theorem register_run {s : State τ} {r : Register τ}
    {rtr : List (Register τ × Call τ η × Register τ)} (h : Run Register.Step s.register rtr r)
    (hs : Sound s) :
    ∃ (tr : Trace τ η) (t : State τ), Run Step s tr t ∧ Sound t ∧ t.register = r ∧
      image State.register tr = rtr :=
  h.preimage hs fun _ _ _ hI hst => hst.tables hI

/-! ### A run -/

/-- The state after an action that succeeds. -/
def State.next (s : State τ) (ctx : Ctx τ) (a : Action τ η) : State τ :=
  match apply ctx s a with
  | .ok (s', _) => s'
  | .error _ => s

theorem State.next_step (s : State τ) (ctx : Ctx τ) (a : Action τ η) (x : Option (Deferred τ))
    (h : (apply ctx s a).map Prod.snd = .ok x) : Step s ⟨ctx, a, x⟩ (s.next ctx a) := by
  unfold Step State.next
  show apply ctx s a = _
  cases hr : apply ctx s a with
  | error e =>
    rw [hr] at h
    cases h
  | ok r =>
    rw [hr] at h
    cases h
    rfl

/-- The bytes of the transactions below: the first four are the expiration. -/
instance : PackedTransaction (List Nat) (List Nat) where
  expiration
    | b₀ :: b₁ :: b₂ :: b₃ :: _ => .ok (b₀ + 256 * (b₁ + 256 * (b₂ + 256 * b₃)))
    | _ => .error "datastream attempted to read past the end"
  sha256 := id

/-- A transaction that expires after 100 seconds. -/
def order : List Nat := [100, 0, 0, 0, 7]

/-- An account with its permission 1 acts at a second; the transaction needs account 5. -/
def ctxOf (account second : Nat) : Ctx (List Nat) where
  auths := [⟨account, 1⟩]
  currentTimePoint := second * 1000000
  checkTransactionAuthorization _ levels := if ⟨5, 1⟩ ∈ levels then 1 else 0

/-- Account 6 proposes the transaction to accounts 5 and 7. -/
def proposing : Call (List Nat) (List Nat) := ⟨ctxOf 6 10, .propose 6 9 [⟨5, 1⟩, ⟨7, 1⟩] order, none⟩

def proposed : State (List Nat) := State.next {} proposing.ctx proposing.act

/-- Account 5 approves it. -/
def approving : Call (List Nat) (List Nat) := ⟨ctxOf 5 20, .approve 6 9 ⟨5, 1⟩ none, none⟩

def approved : State (List Nat) := proposed.next approving.ctx approving.act

/-- Account 8 executes it. -/
def executing : Call (List Nat) (List Nat) :=
  ⟨ctxOf 8 30, .exec 6 9 8, some ⟨senderId 6 9, 8, order⟩⟩

def executed : State (List Nat) := approved.next executing.ctx executing.act

def approvedTrace : Trace (List Nat) (List Nat) :=
  [({}, proposing, proposed), (proposed, approving, approved)]

theorem proposed_run : Run Step {} [({}, proposing, proposed)] proposed :=
  .snoc .nil (State.next_step _ _ _ none rfl)

theorem approved_run : Run Step {} approvedTrace approved :=
  .snoc proposed_run (State.next_step _ _ _ none rfl)

theorem executing_step : Step approved executing executed := State.next_step _ _ _ _ rfl

/-- **Refinement of runs.** From sound tables, the contract and the register make the same runs: the
same actions succeed, with the same transactions sent, and the tables stand for the register all
along. Where one fails, the other fails with the same error. -/
theorem refines_register {s : State τ} (hs : Sound s) :
    (∀ (tr : Trace τ η) (t : State τ), Run Step s tr t →
      Run Register.Step s.register (image State.register tr) t.register ∧
      ∀ (ctx : Ctx τ) (a : Action τ η), Rel Stands (apply ctx t a) (Register.apply ctx t.register a)) ∧
    ∀ (rtr : List (Register τ × Call τ η × Register τ)) (r : Register τ),
      Run Register.Step s.register rtr r →
        ∃ (tr : Trace τ η) (t : State τ), Run Step s tr t ∧ Sound t ∧ t.register = r ∧
          image State.register tr = rtr :=
  ⟨fun _ _ h => ⟨run_register h hs, fun _ a => apply_register (run_sound h hs) a⟩,
    fun _ _ h => register_run h hs⟩

theorem refines_register_approved :
    Run Register.Step ({} : State (List Nat)).register (image State.register approvedTrace)
      approved.register ∧
    Rel Stands (apply executing.ctx approved executing.act)
      (Register.apply executing.ctx approved.register executing.act) :=
  have h := (refines_register sound_empty).1 _ _ approved_run
  ⟨h.1, h.2 _ _⟩

/-! ## What a step does -/

/-- What an action does to the register, and what it found. -/
inductive Register.Change (ctx : Ctx τ) (r : Register τ) :
    Action τ η → Option (Deferred τ) → Register τ → Prop
  | propose {p n : Name} {requested : List PermissionLevel} {trx : τ} {e : Nat} :
    (∃ level ∈ ctx.auths, level.actor = p) → expiration trx = .ok e → ctx.currentTimeSec ≤ e →
    r.ballots (p, n) = none → 0 < ctx.checkTransactionAuthorization trx requested →
    Change ctx r (.propose p n requested trx) none
      (r.set (p, n) (some ⟨trx, true, requested, []⟩))
  | approve {p n : Name} {level : PermissionLevel} {hash : Option η} {b : Ballot τ} :
    level ∈ ctx.auths → r.ballots (p, n) = some b → (∀ h ∈ hash, sha256 b.trx = h) →
    level ∈ b.requested →
    Change ctx r (.approve p n level hash) none
      (r.set (p, n) (some (b.vote level ctx.currentTimePoint)))
  | unapprove {p n : Name} {level : PermissionLevel} {b : Ballot τ} :
    level ∈ ctx.auths → r.ballots (p, n) = some b → (∃ v ∈ b.provided, v.level = level) →
    Change ctx r (.unapprove p n level) none (r.set (p, n) (some (b.unvote level)))
  | cancel {p n canceler : Name} {b : Ballot τ} :
    (∃ level ∈ ctx.auths, level.actor = canceler) → r.ballots (p, n) = some b →
    (canceler ≠ p → ∃ e, expiration b.trx = .ok e ∧ e < ctx.currentTimeSec) →
    Change ctx r (.cancel p n canceler) none (r.set (p, n) none)
  | exec {p n executer : Name} {b : Ballot τ} {e : Nat} :
    (∃ level ∈ ctx.auths, level.actor = executer) → r.ballots (p, n) = some b →
    expiration b.trx = .ok e → ctx.currentTimeSec ≤ e →
    0 < ctx.checkTransactionAuthorization b.trx (b.counted r.invalidated) →
    ctx.sendDeferred ⟨senderId p n, executer, b.trx⟩ = .ok () →
    Change ctx r (.exec p n executer) (some ⟨senderId p n, executer, b.trx⟩) (r.set (p, n) none)
  | invalidate {account : Name} :
    (∃ level ∈ ctx.auths, level.actor = account) →
    Change ctx r (.invalidate account) none { r with
      invalidated := Function.update r.invalidated account (some ctx.currentTimePoint) }

omit [DecidableEq η] in
theorem checkCancel_eq_ok {ctx : Ctx τ} {trx : τ} {p canceler : Name} {u : Unit} :
    checkCancel ctx trx p canceler = .ok u ↔
      (canceler ≠ p → ∃ e, expiration trx = .ok e ∧ e < ctx.currentTimeSec) := by
  unfold checkCancel
  by_cases h : canceler = p
  · simp [h]
  · simp [h, bind_eq_ok, check_eq_ok]

/-- A successful action is such a change. -/
theorem Register.Step.change {r r' : Register τ} {c : Call τ η} (h : Register.Step r c r') :
    Register.Change c.ctx r c.act c.sent r' := by
  obtain ⟨ctx, act, sent⟩ := c
  unfold Register.Step Register.apply requireActor requireLevel at h
  cases act with
  | propose p n requested trx =>
    simp only [bind_eq_ok, check_eq_ok, pure_eq_ok, exists_const, Prod.mk.injEq,
      Option.isNone_iff_eq_none] at h
    obtain ⟨e, he, hauth, hle, hnone, hcheck, rfl, rfl⟩ := h
    exact .propose hauth he hle hnone hcheck
  | approve p n level hash =>
    simp only [bind_eq_ok, check_eq_ok, fetch_eq_ok, pure_eq_ok, exists_const, Prod.mk.injEq] at h
    obtain ⟨hauth, b, hb, hhash, hreq, rfl, rfl⟩ := h
    exact .approve hauth hb hhash hreq
  | unapprove p n level =>
    simp only [bind_eq_ok, check_eq_ok, fetch_eq_ok, pure_eq_ok, exists_const, Prod.mk.injEq] at h
    obtain ⟨hauth, b, hb, hprov, rfl, rfl⟩ := h
    exact .unapprove hauth hb hprov
  | cancel p n canceler =>
    simp only [bind_eq_ok, check_eq_ok, fetch_eq_ok, pure_eq_ok, exists_const, Prod.mk.injEq,
      checkCancel_eq_ok] at h
    obtain ⟨hauth, b, hb, hcancel, rfl, rfl⟩ := h
    exact .cancel hauth hb hcancel
  | exec p n executer =>
    simp only [bind_eq_ok, check_eq_ok, fetch_eq_ok, pure_eq_ok, exists_const, Prod.mk.injEq] at h
    obtain ⟨hauth, b, hb, e, he, hle, hcheck, _, hsend, rfl, rfl⟩ := h
    exact .exec hauth hb he hle hcheck hsend
  | invalidate account =>
    simp only [bind_eq_ok, check_eq_ok, pure_eq_ok, exists_const, Prod.mk.injEq] at h
    obtain ⟨hauth, rfl, rfl⟩ := h
    exact .invalidate hauth

/-- Such a change is a successful action. -/
theorem Register.Change.step {ctx : Ctx τ} {r r' : Register τ} {a : Action τ η}
    {x : Option (Deferred τ)} (h : Register.Change ctx r a x r') : Register.Step r ⟨ctx, a, x⟩ r' := by
  unfold Register.Step Register.apply requireActor requireLevel
  cases h with
  | propose hauth he hle hnone hcheck =>
    simp only [bind_eq_ok, check_eq_ok, pure_eq_ok, exists_const, and_true,
      Option.isNone_iff_eq_none]
    exact ⟨_, he, hauth, hle, hnone, hcheck⟩
  | approve hauth hb hhash hreq =>
    simp only [bind_eq_ok, check_eq_ok, fetch_eq_ok, pure_eq_ok, exists_const]
    exact ⟨hauth, _, hb, hhash, hreq, rfl⟩
  | unapprove hauth hb hprov =>
    simp only [bind_eq_ok, check_eq_ok, fetch_eq_ok, pure_eq_ok, exists_const]
    exact ⟨hauth, _, hb, hprov, rfl⟩
  | cancel hauth hb hcancel =>
    simp only [bind_eq_ok, check_eq_ok, fetch_eq_ok, pure_eq_ok, exists_const, checkCancel_eq_ok]
    exact ⟨hauth, _, hb, hcancel, trivial⟩
  | exec hauth hb he hle hcheck hsend =>
    simp only [bind_eq_ok, check_eq_ok, fetch_eq_ok, pure_eq_ok, exists_const]
    exact ⟨hauth, _, hb, _, he, hle, hcheck, (), hsend, rfl⟩
  | invalidate hauth =>
    simp only [bind_eq_ok, check_eq_ok, pure_eq_ok, exists_const, and_true]
    exact hauth

/-! ## One proposal -/

/-- The proposal of an action: `invalidate` has none. -/
def Action.key : Action τ η → Option Key
  | .propose p n _ _ => some (p, n)
  | .approve p n _ _ => some (p, n)
  | .unapprove p n _ => some (p, n)
  | .cancel p n _ => some (p, n)
  | .exec p n _ => some (p, n)
  | .invalidate _ => none

@[simp] theorem Register.set_self (r : Register τ) (k : Key) (b : Option (Ballot τ)) :
    (r.set k b).ballots k = b := Function.update_self _ _ _

theorem Register.set_ne (r : Register τ) {k k' : Key} (b : Option (Ballot τ)) (h : k ≠ k') :
    (r.set k' b).ballots k = r.ballots k := Function.update_of_ne h _ _

/-- An action leaves the ballots of other proposals as they are. -/
theorem Register.Step.frame {r r' : Register τ} {c : Call τ η} {k : Key} (h : Register.Step r c r')
    (hk : c.act.key ≠ some k) : r'.ballots k = r.ballots k := by
  obtain ⟨ctx, act, sent⟩ := c
  have hc := h.change
  cases hc with
  | invalidate hauth => rfl
  | _ => exact r.set_ne _ fun e => hk (congrArg some e.symm)

/-- Only `invalidate` changes the times of invalidation. -/
theorem Register.Step.invalidated {r r' : Register τ} {c : Call τ η} (h : Register.Step r c r') :
    r'.invalidated = match c.act with
      | .invalidate account => Function.update r.invalidated account (some c.ctx.currentTimePoint)
      | _ => r.invalidated := by
  obtain ⟨ctx, act, sent⟩ := c
  have hc := h.change
  cases hc <;> rfl

/-! ## Proposals begin and end -/

/-- The proposal is made. -/
def Action.begins (k : Key) : Action τ η → Bool
  | .propose p n _ _ => (p, n) = k
  | _ => false

/-- The proposal is executed. -/
def Action.executes (k : Key) : Action τ η → Bool
  | .exec p n _ => (p, n) = k
  | _ => false

/-- The proposal is cancelled. -/
def Action.cancels (k : Key) : Action τ η → Bool
  | .cancel p n _ => (p, n) = k
  | _ => false

/-- **Step lemma.** A proposal is there after an action if it was made, or was there and has not
ended; it is made only where it is not there, and ends only where it is. -/
theorem Register.Step.present {r r' : Register τ} {c : Call τ η} (h : Register.Step r c r')
    (k : Key) :
    (r.ballots k).isSome.toNat + (c.act.begins k).toNat =
      (r'.ballots k).isSome.toNat + ((c.act.executes k).toNat + (c.act.cancels k).toNat) := by
  by_cases hk : c.act.key = some k
  · obtain ⟨ctx, act, sent⟩ := c
    have hc := h.change
    cases hc with
    | propose _ _ _ hnone _ =>
      obtain rfl := Option.some.inj hk
      simp [Action.begins, Action.executes, Action.cancels, hnone]
    | approve _ hb _ _ =>
      obtain rfl := Option.some.inj hk
      simp [Action.begins, Action.executes, Action.cancels, hb]
    | unapprove _ hb _ =>
      obtain rfl := Option.some.inj hk
      simp [Action.begins, Action.executes, Action.cancels, hb]
    | cancel _ hb _ =>
      obtain rfl := Option.some.inj hk
      simp [Action.begins, Action.executes, Action.cancels, hb]
    | exec _ hb _ _ _ _ =>
      obtain rfl := Option.some.inj hk
      simp [Action.begins, Action.executes, Action.cancels, hb]
    | invalidate _ => cases hk
  · rw [h.frame hk]
    have hother : ∀ p n : Name, some (p, n) ≠ some k → ((p, n) = k) = False := fun p n hne =>
      eq_false fun e => hne (congrArg some e)
    cases hact : c.act <;> rw [hact] at hk
    case invalidate => simp [Action.begins, Action.executes, Action.cancels]
    all_goals simp [Action.begins, Action.executes, Action.cancels, hother _ _ hk]

/-- **Accounting.** What has been proposed is executed, cancelled or still there, and nothing else
is. -/
theorem proposals_accounted {s t : State τ} {tr : Trace τ η} (h : Run Step s tr t) (hs : Sound s)
    (p n : Name) :
    (s.proposals.find p n).isSome.toNat + tr.countP (fun e => e.2.1.act.begins (p, n)) =
      (t.proposals.find p n).isSome.toNat + (tr.countP (fun e => e.2.1.act.executes (p, n)) +
        tr.countP (fun e => e.2.1.act.cancels (p, n))) := by
  suffices hsuf : Sound t ∧
      (s.proposals.find p n).isSome.toNat + tr.countP (fun e => e.2.1.act.begins (p, n)) =
        (t.proposals.find p n).isSome.toNat + (tr.countP (fun e => e.2.1.act.executes (p, n)) +
          tr.countP (fun e => e.2.1.act.cancels (p, n))) from hsuf.2
  have hfind : ∀ {s : State τ}, Sound s →
      (s.register.ballots (p, n)).isSome = (s.proposals.find p n).isSome := fun hs => by
    rw [hs.proposal, Option.isSome_map]
  induction h with
  | nil => exact ⟨hs, rfl⟩
  | @snoc tr t u c _ hst ih =>
    obtain ⟨ht, heq⟩ := ih
    obtain ⟨hu, hst⟩ := hst.register ht
    have hstep := hst.present (p, n)
    rw [hfind ht, hfind hu] at hstep
    have hcount : ∀ f : Action τ η → Bool, (tr ++ [(t, c, u)]).countP (fun e => f e.2.1.act) =
        tr.countP (fun e => f e.2.1.act) + (f c.act).toNat := fun f => by
      rw [List.countP_append, List.countP_singleton]
      cases f c.act <;> rfl
    refine ⟨hu, ?_⟩
    rw [hcount (Action.begins (p, n)), hcount (Action.executes (p, n)),
      hcount (Action.cancels (p, n))]
    omega

theorem proposals_accounted_approved :
    (({} : State (List Nat)).proposals.find 6 9).isSome.toNat +
        approvedTrace.countP (fun e => e.2.1.act.begins (6, 9)) =
      (approved.proposals.find 6 9).isSome.toNat +
        (approvedTrace.countP (fun e => e.2.1.act.executes (6, 9)) +
          approvedTrace.countP (fun e => e.2.1.act.cancels (6, 9))) :=
  proposals_accounted approved_run sound_empty 6 9

/-- How a proposal may end: executed by an account that signs, before it expires; cancelled by its
proposer; or cancelled after it has expired. -/
inductive Ends (p n : Name) (trx : τ) (c : Call τ η) : Prop
  | exec {executer : Name} {e : Nat} :
    c.act = .exec p n executer → (∃ level ∈ c.ctx.auths, level.actor = executer) →
    expiration trx = .ok e → c.ctx.currentTimeSec ≤ e →
    c.sent = some ⟨senderId p n, executer, trx⟩ → Ends p n trx c
  | proposer :
    c.act = .cancel p n p → (∃ level ∈ c.ctx.auths, level.actor = p) → Ends p n trx c
  | expired {canceler : Name} {e : Nat} :
    c.act = .cancel p n canceler → (∃ level ∈ c.ctx.auths, level.actor = canceler) →
    expiration trx = .ok e → e < c.ctx.currentTimeSec → Ends p n trx c

/-- A ballot stays, with its transaction, until the proposal ends. -/
theorem Register.Step.stays {r r' : Register τ} {c : Call τ η} {p n : Name} {b : Ballot τ}
    (h : Register.Step r c r') (hb : r.ballots (p, n) = some b) :
    (∃ b', r'.ballots (p, n) = some b' ∧ b'.trx = b.trx) ∨ Ends p n b.trx c := by
  by_cases hk : c.act.key = some (p, n)
  · obtain ⟨ctx, act, sent⟩ := c
    have hc := h.change
    cases hc with
    | propose _ _ _ hnone _ =>
      obtain ⟨rfl, rfl⟩ := Prod.mk.inj (Option.some.inj hk)
      rw [hnone] at hb
      cases hb
    | approve _ hb' _ _ =>
      obtain ⟨rfl, rfl⟩ := Prod.mk.inj (Option.some.inj hk)
      obtain rfl := Option.some.inj (hb'.symm.trans hb)
      exact .inl ⟨_, r.set_self _ _, rfl⟩
    | unapprove _ hb' _ =>
      obtain ⟨rfl, rfl⟩ := Prod.mk.inj (Option.some.inj hk)
      obtain rfl := Option.some.inj (hb'.symm.trans hb)
      exact .inl ⟨_, r.set_self _ _, rfl⟩
    | @cancel p' n' canceler b' hauth hb' hcancel =>
      obtain ⟨rfl, rfl⟩ := Prod.mk.inj (Option.some.inj hk)
      obtain rfl := Option.some.inj (hb'.symm.trans hb)
      by_cases hself : canceler = p'
      · subst hself
        exact .inr (.proposer rfl hauth)
      · obtain ⟨e, he, hlt⟩ := hcancel hself
        exact .inr (.expired rfl hauth he hlt)
    | exec hauth hb' he hle _ _ =>
      obtain ⟨rfl, rfl⟩ := Prod.mk.inj (Option.some.inj hk)
      obtain rfl := Option.some.inj (hb'.symm.trans hb)
      exact .inr (.exec rfl hauth he hle rfl)
    | invalidate _ => cases hk
  · exact .inl ⟨b, (h.frame hk).trans hb, rfl⟩

/-- A proposal stays, with the transaction that was proposed, until it is executed before it
expires, or cancelled by its proposer or after it has expired. -/
theorem proposal_stays {s t : State τ} {tr : Trace τ η} (h : Run Step s tr t) (hs : Sound s)
    {p n : Name} {trx : τ} (hp : s.proposals.find p n = some trx) :
    t.proposals.find p n = some trx ∨
      ∃ e ∈ tr, e.1.proposals.find p n = some trx ∧ Ends p n trx e.2.1 := by
  suffices hsuf : Sound t ∧ (t.proposals.find p n = some trx ∨
      ∃ e ∈ tr, e.1.proposals.find p n = some trx ∧ Ends p n trx e.2.1) from hsuf.2
  induction h with
  | nil => exact ⟨hs, .inl hp⟩
  | @snoc tr t u c _ hst ih =>
    obtain ⟨ht, hih⟩ := ih
    obtain ⟨hu, hst⟩ := hst.register ht
    refine ⟨hu, ?_⟩
    rcases hih with hfind | ⟨e, he, hends⟩
    · have hb := hfind
      rw [ht.proposal, Option.map_eq_some_iff] at hb
      obtain ⟨b, hb, rfl⟩ := hb
      rcases hst.stays hb with ⟨b', hb', htrx⟩ | hends
      · exact .inl (by rw [hu.proposal, hb', Option.map_some, htrx])
      · exact .inr ⟨(t, c, u), by simp, hfind, hends⟩
    · exact .inr ⟨e, List.mem_append_left _ he, hends⟩

theorem proposal_stays_executed :
    executed.proposals.find 6 9 = some order ∨
      ∃ e ∈ [(proposed, approving, approved), (approved, executing, executed)],
        e.1.proposals.find 6 9 = some order ∧ Ends 6 9 order e.2.1 :=
  proposal_stays (.snoc (.snoc .nil (State.next_step _ _ _ none rfl)) executing_step)
    (run_sound proposed_run sound_empty) rfl

/-! ## Proposals do not interfere -/

/-- The action is about the proposal, or invalidates approvals of all proposals. -/
def Action.concerns (k : Key) (a : Action τ η) : Bool := a.key.all (· = k)

/-- The registers agree on a proposal and on the times of invalidation. -/
def Register.Agree (k : Key) (r r₀ : Register τ) : Prop :=
  r₀.ballots k = r.ballots k ∧ r₀.invalidated = r.invalidated

/-- An action about a proposal does the same wherever the registers agree on it. -/
theorem Register.Step.agree {r r' r₀ : Register τ} {c : Call τ η} {k : Key}
    (h : Register.Step r c r') (hr : Register.Agree k r r₀) (hc : c.act.concerns k = true) :
    ∃ r₀', Register.Step r₀ c r₀' ∧ Register.Agree k r' r₀' := by
  obtain ⟨hb₀, hi₀⟩ := hr
  obtain ⟨ctx, act, sent⟩ := c
  have hchange := h.change
  cases hchange with
  | propose hauth he hle hnone hcheck =>
    obtain rfl := of_decide_eq_true hc
    exact ⟨_, (Change.propose hauth he hle (hb₀.trans hnone) hcheck).step,
      (r₀.set_self _ _).trans (r.set_self _ _).symm, hi₀⟩
  | approve hauth hb hhash hreq =>
    obtain rfl := of_decide_eq_true hc
    exact ⟨_, (Change.approve hauth (hb₀.trans hb) hhash hreq).step,
      (r₀.set_self _ _).trans (r.set_self _ _).symm, hi₀⟩
  | unapprove hauth hb hprov =>
    obtain rfl := of_decide_eq_true hc
    exact ⟨_, (Change.unapprove hauth (hb₀.trans hb) hprov).step,
      (r₀.set_self _ _).trans (r.set_self _ _).symm, hi₀⟩
  | cancel hauth hb hcancel =>
    obtain rfl := of_decide_eq_true hc
    exact ⟨_, (Change.cancel hauth (hb₀.trans hb) hcancel).step,
      (r₀.set_self _ _).trans (r.set_self _ _).symm, hi₀⟩
  | exec hauth hb he hle hcheck hsend =>
    obtain rfl := of_decide_eq_true hc
    rw [← hi₀] at hcheck
    exact ⟨_, (Change.exec hauth (hb₀.trans hb) he hle hcheck hsend).step,
      (r₀.set_self _ _).trans (r.set_self _ _).symm, hi₀⟩
  | invalidate hauth =>
    exact ⟨_, (Change.invalidate hauth).step, hb₀, by simp only [hi₀]⟩

/-- The other actions leave what the registers agree on. -/
theorem Register.Step.skip {r r' r₀ : Register τ} {c : Call τ η} {k : Key} (h : Register.Step r c r')
    (hr : Register.Agree k r r₀) (hc : c.act.concerns k = false) : Register.Agree k r' r₀ := by
  obtain ⟨hb₀, hi₀⟩ := hr
  have hk : c.act.key ≠ some k := fun e => by simp [Action.concerns, e] at hc
  refine ⟨hb₀.trans (h.frame hk).symm, hi₀.trans ?_⟩
  rw [h.invalidated]
  cases hact : c.act with
  | invalidate account => simp [Action.concerns, hact, Action.key] at hc
  | _ => rfl

/-- **Noninterference.** The actions about one proposal and the invalidations of a run are a run of
their own: they send what they sent, and leave the proposal and the invalidations as the whole run
does. -/
theorem run_project {s t : State τ} {tr : Trace τ η} (h : Run Step s tr t) (hs : Sound s) (k : Key) :
    ∃ (tr₀ : Trace τ η) (t₀ : State τ), Run Step s tr₀ t₀ ∧
      labels tr₀ = (labels tr).filter (fun c => c.act.concerns k) ∧
      t₀.ballot k = t.ballot k ∧ t₀.invalidations = t.invalidations := by
  obtain ⟨rtr, r, hrun, ⟨hb, hi⟩, hl⟩ := (run_register h hs).project (V := Register.Agree k)
    (C := fun c => c.act.concerns k) ⟨rfl, rfl⟩ (fun _ _ _ _ hV hst hC => hst.agree hV hC)
    (fun _ _ _ _ hV hst hC => hst.skip hV hC)
  obtain ⟨tr₀, t₀, hrun₀, -, rfl, rfl⟩ := register_run hrun hs
  refine ⟨tr₀, t₀, hrun₀, ?_, hb, Table.ext_find fun a => congrFun hi a⟩
  rw [← labels_image State.register tr₀, hl, labels_image]

/-- Account 11 proposes the transaction under a name of its own. -/
def proposingToo : Call (List Nat) (List Nat) := ⟨ctxOf 11 15, .propose 11 9 [⟨5, 1⟩] order, none⟩

/-- Account 7 takes back what it approves from now on. -/
def invalidating : Call (List Nat) (List Nat) := ⟨ctxOf 7 18, .invalidate 7, none⟩

def bothProposed : State (List Nat) := proposed.next proposingToo.ctx proposingToo.act

def bothInvalidated : State (List Nat) := bothProposed.next invalidating.ctx invalidating.act

def bothApproved : State (List Nat) := bothInvalidated.next approving.ctx approving.act

def bothTrace : Trace (List Nat) (List Nat) :=
  [({}, proposing, proposed), (proposed, proposingToo, bothProposed),
    (bothProposed, invalidating, bothInvalidated), (bothInvalidated, approving, bothApproved)]

theorem bothTrace_run : Run Step {} bothTrace bothApproved :=
  ((proposed_run.snoc (State.next_step _ _ _ none rfl)).snoc (State.next_step _ _ _ none rfl)).snoc
    (State.next_step _ _ _ none rfl)

/-- The run without the proposal of account 11. -/
theorem run_project_approved :
    ∃ (tr₀ : Trace (List Nat) (List Nat)) (t₀ : State (List Nat)), Run Step {} tr₀ t₀ ∧
      labels tr₀ = [proposing, invalidating, approving] ∧
      t₀.ballot (6, 9) = bothApproved.ballot (6, 9) ∧
      t₀.invalidations = bothApproved.invalidations :=
  run_project bothTrace_run sound_empty (6, 9)

end Eosforce.Msig
