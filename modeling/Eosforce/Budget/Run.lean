import Eosforce.Budget.Actions
import Eosforce.Lib.Run
import Eosforce.System.Transfer

/-!
# Runs of the budget contract

* `Call`, `Step`: an action with the effects that it sends. A transfer is one that the system
  contract makes in some state of it.
* `Change`, `exec_change`: what an action does to the motions and the requests for tokens.
* `proposed`, `passed`, `requested`, `paid`: a run up to a payment.
-/

namespace Eosforce.Budget

open Fallible Keyed Runs

/-- An action in its context, with what it sends. -/
structure Call where
  env : Env
  action : Action
  effects : List Effect

/-- The system contract makes the transfers that are sent, in some state of its tables. -/
def Accepted (env : Env) (fx : List Effect) : Prop :=
  ∀ src dst quantity memo, .transfer src dst quantity memo ∈ fx → ∃ s r,
    System.transfer { env with auths := [eosioBudget] } s src dst quantity memo = .ok r

/-- An action that succeeds with all that it sends. -/
def Step (b : State) (c : Call) (b' : State) : Prop :=
  exec c.env b c.action = .ok (b', c.effects) ∧ Accepted c.env c.effects

/-- Before any motion and any request for tokens. -/
structure Genesis (b : State) : Prop where
  motions : b.motions = ∅
  takecoins : b.takecoins = ∅

/-- The action is a proposal. -/
def Action.proposes : Action → Bool
  | .propose _ _ _ _ => true
  | _ => false

/-- What an action does to the motions and to the requests for tokens, and what it sends. -/
inductive Change (b : State) : Action → Table Nat MotionInfo → Scoped Name Nat TakecoinInfo →
    List Effect → Prop
  /-- Nothing, or a vote that does not decide about its motion. -/
  | still {a : Action} (hprop : a.proposes = false) :
    Change b a b.motions b.takecoins []
  | propose {proposer : Name} {title content : String} {quantity : Asset} {id : Nat}
    {m : MotionInfo} (hid : availablePrimaryKey b.motions = .ok id) (hq : m.quantity = quantity)
    (hp : m.proposer = proposer) :
    Change b (.propose proposer title content quantity) (b.motions.put id m) b.takecoins []
  /-- The motion moves to another section. -/
  | decide {a : Action} {id : Nat} {m : MotionInfo} {n : Nat} (hprop : a.proposes = false)
    (hm : b.motions.find id = some m) :
    Change b a (b.motions.put id { m with «section» := n }) b.takecoins []
  | takecoin {proposer : Name} {id k : Nat} {content : String} {quantity : Asset} {m : MotionInfo}
    {t : TakecoinInfo} (hm : b.motions.find id = some m) (hp : m.proposer = proposer)
    (hk : b.takecoins.find proposer k = none) (hid : t.montionId = id)
    (hr : t.receiver = proposer) :
    Change b (.takecoin proposer id content quantity) b.motions (b.takecoins.put proposer k t) []
  /-- A vote about a request that pays nothing. -/
  | voteCoin {a : Action} {proposer : Name} {k n : Nat} {ballot : Ballot} {t : TakecoinInfo}
    (hprop : a.proposes = false) (ht : b.takecoins.find proposer k = some t)
    (h0 : t.section = 0) :
    Change b a b.motions (b.takecoins.put proposer k { t with ballot, «section» := n }) []
  /-- The deciding vote pays the request out of its motion. -/
  | pay {approver proposer : Name} {k : Nat} {memo : String} {ballot : Ballot} {t : TakecoinInfo}
    {m : MotionInfo} (ht : b.takecoins.find proposer k = some t) (h0 : t.section = 0)
    (hm : b.motions.find t.montionId = some m) (h1 : m.section = 1)
    (hs : m.quantity.symbol = t.quantity.symbol) (hle : t.quantity.amount ≤ m.quantity.amount) :
    Change b (.agreecoin approver proposer k memo)
      (b.motions.put t.montionId
        { m with quantity := ⟨m.quantity.amount - t.quantity.amount, m.quantity.symbol⟩ })
      (b.takecoins.put proposer k { t with ballot, «section» := 1 })
      [.transfer eosioBudget t.receiver t.quantity "budget take coin"]
  | closemotion {id : Nat} {memo : String} {m : MotionInfo} (hm : b.motions.find id = some m) :
    Change b (.closemotion id memo) (b.motions.erase id) b.takecoins []
  | closecoin {proposer : Name} {k : Nat} {memo : String} {t : TakecoinInfo}
    (ht : b.takecoins.find proposer k = some t) :
    Change b (.closecoin proposer k memo) b.motions (b.takecoins.erase proposer k) []

/-! ## Inversion -/

variable {env : Env} {b b' : State}

theorem motionUnderVote_ok {id : Nat} {m : MotionInfo} (h : motionUnderVote env b id = .ok m) :
    b.motions.find id = some m := by
  simp only [motionUnderVote, bind_eq_ok, fetch_eq_ok, check_eq_ok, pure_eq_ok] at h
  obtain ⟨_, hm, _, -, rfl⟩ := h
  exact hm

theorem takecoinUnderVote_ok {proposer : Name} {k : Nat} {approver : Name} {t : TakecoinInfo}
    (h : takecoinUnderVote env b proposer k approver = .ok t) :
    b.takecoins.find proposer k = some t ∧ t.section = 0 := by
  simp only [takecoinUnderVote, bind_eq_ok, fetch_eq_ok, check_eq_ok, pure_eq_ok] at h
  obtain ⟨_, ht, _, -, _, h0, _, -, rfl⟩ := h
  exact ⟨ht, h0⟩

/-- A vote about a motion moves it to another section or not. -/
theorem decideMotion_change {a : Action} (ha : a.proposes = false) {id : Nat}
    {m : MotionInfo} (hm : b.motions.find id = some m) (approvers : Scoped Name Nat Ballot)
    (decided : Bool) (n : Nat) :
    Change b a (decideMotion { b with approvers } id m decided n).motions
      (decideMotion { b with approvers } id m decided n).takecoins [] := by
  cases decided with
  | true => exact .decide ha hm
  | false => exact .still ha

theorem agreecoin_change {approver proposer : Name} {k : Nat} {memo : String} {fx : List Effect}
    (h : agreecoin env b approver proposer k memo = .ok (b', fx)) :
    Change b (.agreecoin approver proposer k memo) b'.motions b'.takecoins fx := by
  simp only [agreecoin, bind_eq_ok] at h
  obtain ⟨_, -, t, ht, h⟩ := h
  obtain ⟨ht, h0⟩ := takecoinUnderVote_ok ht
  split at h
  · simp only [payTakecoin, bind_eq_ok, fetch_eq_ok, check_eq_ok, pure_eq_ok, exists_const,
      Asset.lt_eq_ok, Asset.sub_eq_ok, Prod.mk.injEq, Scoped.put_put] at h
    obtain ⟨m, hm, _, ⟨hs, rfl⟩, hle, h1, _, ⟨-, -, rfl⟩, rfl, rfl⟩ := h
    rw [decide_eq_false_iff_not, not_lt] at hle
    exact .pay ht h0 hm h1 hs hle
  · cases h
    have hc : Change b (.agreecoin approver proposer k memo) b.motions
        (b.takecoins.put proposer k { t with ballot := t.ballot.agree approver, «section» := 0 })
        [] := .voteCoin rfl ht h0
    rw [← h0] at hc
    exact hc

theorem unagreecoin_change {approver proposer : Name} {k : Nat} {memo : String}
    (h : unagreecoin env b approver proposer k memo = .ok b') :
    Change b (.unagreecoin approver proposer k memo) b'.motions b'.takecoins [] := by
  simp only [unagreecoin, bind_eq_ok, pure_eq_ok] at h
  obtain ⟨_, -, t, ht, rfl⟩ := h
  obtain ⟨ht, h0⟩ := takecoinUnderVote_ok ht
  split
  · exact .voteCoin rfl ht h0
  · have hc : Change b (.unagreecoin approver proposer k memo) b.motions
        (b.takecoins.put proposer k { t with ballot := t.ballot.refuse approver, «section» := 0 })
        [] := .voteCoin rfl ht h0
    rw [← h0] at hc
    exact hc

/-- What a successful action does. -/
theorem exec_change {a : Action} {fx : List Effect} (h : exec env b a = .ok (b', fx)) :
    Change b a b'.motions b'.takecoins fx := by
  cases a <;> simp only [exec, silent_eq_ok] at h
  case agreecoin => exact agreecoin_change h
  all_goals obtain ⟨h, rfl⟩ := h
  case unagreecoin => exact unagreecoin_change h
  case handover =>
    simp only [handover, bind_eq_ok, pure_eq_ok] at h
    obtain ⟨_, -, rfl⟩ := h
    exact .still rfl
  case updateconfig =>
    simp only [updateconfig, bind_eq_ok, pure_eq_ok] at h
    obtain ⟨_, -, rfl⟩ := h
    exact .still rfl
  case propose =>
    simp only [propose, bind_eq_ok, pure_eq_ok, emplace_eq_ok] at h
    obtain ⟨_, -, _, -, id, hid, _, ⟨-, rfl⟩, _, -, _, -, rfl⟩ := h
    exact .propose hid rfl rfl
  case approve =>
    simp only [approve, bind_eq_ok, pure_eq_ok] at h
    obtain ⟨_, -, m, hm, _, -, _, -, rfl⟩ := h
    exact decideMotion_change rfl (motionUnderVote_ok hm) _ _ _
  case unapprove =>
    simp only [unapprove, bind_eq_ok, pure_eq_ok] at h
    obtain ⟨_, -, m, hm, _, -, rfl⟩ := h
    exact decideMotion_change rfl (motionUnderVote_ok hm) _ _ _
  case takecoin =>
    simp only [takecoin, bind_eq_ok, fetch_eq_ok, check_eq_ok, pure_eq_ok, emplace_eq_ok] at h
    obtain ⟨_, -, _, -, m, hm, _, -, _, -, _, hp, _, -, _, -, _, -, _, -, k, -, _, ⟨hk, rfl⟩,
      rfl⟩ := h
    exact .takecoin hm hp hk rfl rfl
  case turndown =>
    simp only [turndown, bind_eq_ok, fetch_eq_ok, pure_eq_ok] at h
    obtain ⟨_, -, m, hm, rfl⟩ := h
    exact .decide rfl hm
  case closemotion =>
    simp only [closemotion, bind_eq_ok, fetch_eq_ok, pure_eq_ok] at h
    obtain ⟨m, hm, _, -, _, -, rfl⟩ := h
    exact .closemotion hm
  case closecoin =>
    simp only [closecoin, bind_eq_ok, check_eq_ok, pure_eq_ok, Option.isSome_iff_exists] at h
    obtain ⟨_, -, _, ⟨t, ht⟩, rfl⟩ := h
    exact .closecoin ht

/-! ## A motion that pays

Accounts 1 and 2 have a pledge, account 3 is the committee. -/

/-- The state after an action that succeeds. -/
def State.next (b : State) (env : Env) (a : Action) : State :=
  match exec env b a with
  | .ok (b', _) => b'
  | .error _ => b

theorem State.next_step (b : State) (env : Env) (a : Action) {fx : List Effect}
    (h : (exec env b a).map Prod.snd = .ok fx) (hfx : Accepted env fx) :
    Step b ⟨env, a, fx⟩ (b.next env a) := by
  refine ⟨?_, hfx⟩
  unfold State.next
  simp only
  cases hx : exec env b a with
  | error e => rw [hx] at h; cases h
  | ok r => rw [hx] at h; cases h; rfl

theorem accepted_nil (env : Env) : Accepted env [] := fun _ _ _ _ h => by cases h

/-- The context of an action where accounts 1 and 2 have a pledge. -/
def pledgedEnv (account : Name) (block : Nat) : Env :=
  { Env.of account block with
    pledges := ((∅ : Scoped Name Name Pledge.PledgeInfo).put 1 blockOutPledge
      ⟨⟨2000000, coreSymbol⟩, Asset.zero⟩).put 2 blockOutPledge ⟨⟨2000000, coreSymbol⟩, Asset.zero⟩ }

/-- The system contract where the budget has 100 tokens. -/
def treasury : System.State :=
  { accounts := ((∅ : Table Name System.AccountInfo).put 1 {}).put eosioBudget
      { available := ⟨1000000, coreSymbol⟩ } }

/-- The committee is account 3. -/
def seated : State := { committee := some [3] }

/-- Account 1 proposes to spend 10 tokens. -/
def proposed : State := seated.next (pledgedEnv 1 1) (.propose 1 "" "" ⟨100000, coreSymbol⟩)

def passed : State := proposed.next (pledgedEnv 3 2) (.approve 3 0 "")

/-- Account 1 requests 6 tokens. -/
def requested : State :=
  passed.next (pledgedEnv 1 403202) (.takecoin 1 0 "" ⟨60000, coreSymbol⟩)

theorem seated_genesis : Genesis seated := ⟨rfl, rfl⟩

theorem proposed_step : Step seated ⟨pledgedEnv 1 1, .propose 1 "" "" ⟨100000, coreSymbol⟩, []⟩
    proposed := State.next_step _ _ _ rfl (accepted_nil _)

theorem passed_step : Step proposed ⟨pledgedEnv 3 2, .approve 3 0 "", []⟩ passed :=
  State.next_step _ _ _ rfl (accepted_nil _)

theorem requested_step : Step passed
    ⟨pledgedEnv 1 403202, .takecoin 1 0 "" ⟨60000, coreSymbol⟩, []⟩ requested :=
  State.next_step _ _ _ rfl (accepted_nil _)

/-- The transfer of the request is one that the system contract makes. -/
theorem accepted_payment (block : Nat) : Accepted (pledgedEnv 3 block)
    [.transfer eosioBudget 1 ⟨60000, coreSymbol⟩ "budget take coin"] := by
  intro src dst quantity memo hm
  rw [List.mem_singleton] at hm
  cases hm
  exact ⟨treasury, _, rfl⟩

/-- The committee agrees to the request. -/
def paid : State := requested.next (pledgedEnv 3 403203) (.agreecoin 3 1 0 "")

theorem paid_step : Step requested ⟨pledgedEnv 3 403203, .agreecoin 3 1 0 "",
    [.transfer eosioBudget 1 ⟨60000, coreSymbol⟩ "budget take coin"]⟩ paid :=
  State.next_step _ _ _ rfl (accepted_payment _)

end Eosforce.Budget
