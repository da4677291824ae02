import Eosforce.Chain.Authority
import Eosforce.System.Issuance
import Mathlib.Algebra.Order.BigOperators.Group.List

/-!
# The supply of the core token

What the contracts do on one chain is, for the system contract, a run of its own actions, so what
holds in its reachable states holds in every world reached.

* `World.exec_own`: the work of an action in the system contract, then transfers that contracts send.
* `Reachable.system`: the system contract of a reachable world is in a reachable state.
* `supply_run`: in a run, core tokens come into being in blocks only, and exactly so many.
-/

namespace Eosforce.Chain

open Fallible Keyed Relation Runs

/-! ## The system contract in the world -/

/-- A transfer at a block. -/
def Sent (block : Nat) (s s' : System.State) : Prop :=
  ∃ env src dst quantity memo fx, env.currentBlockNum = block ∧
    System.exec env s (.transfer src dst quantity memo) = .ok (s', fx)

/-- What an action itself does to the tables of the system contract. -/
def Own (env : Env) (w : World) (s : System.State) : WorldAction → Prop
  | .system a => ∃ fx, System.exec (w.env env) w.system a = .ok (s, fx)
  | _ => s = w.system

section Actions

variable {env : Env} {w w' : World}

theorem World.transfer_sent {src dst : Name} {q : Asset} {memo : String}
    (h : w.transfer env src dst q memo = .ok w') :
    ∃ fx, System.exec (w.env env) w.system (.transfer src dst q memo) = .ok (w'.system, fx) := by
  simp only [World.transfer, Pledge.runTransfer, bind_eq_ok, pure_eq_ok] at h
  obtain ⟨c, ⟨⟨s, fx⟩, hs, hc⟩, rfl⟩ := h
  have hsys : c.system = s := by
    split at hc
    · simp only [bind_eq_ok, pure_eq_ok] at hc
      obtain ⟨_, -, rfl⟩ := hc
      rfl
    · cases hc
      rfl
  exact ⟨fx, by rw [hsys]; exact hs⟩

theorem World.send_sent {sender : Name} {e : Effect} (h : w.send env sender e = .ok w') :
    ReflTransGen (Sent env.currentBlockNum) w.system w'.system := by
  cases e with
  | transfer src dst q memo =>
    obtain ⟨fx, hx⟩ := World.transfer_sent h
    exact .single ⟨w.env { env with auths := [sender] }, src, dst, q, memo, fx, rfl, hx⟩
  | deduction | dealreward =>
    simp only [World.send, bind_eq_ok, pure_eq_ok] at h
    obtain ⟨_, -, rfl⟩ := h
    exact .refl
  | setProposedProducers | setNeedCheckRamLimit | requireRecipient =>
    cases h
    exact .refl

/-- What an action does to the system contract: its own work, then the transfers that the contracts
send. -/
theorem World.exec_own {a : WorldAction} (h : w.exec env a = .ok w') :
    ∃ s, Own env w s a ∧ ReflTransGen (Sent env.currentBlockNum) s w'.system := by
  rcases exec_cases h with ⟨src, dst, quantity, memo, rfl, h⟩ | ⟨u, sender, fx, hhead, h⟩
  · exact ⟨w'.system, World.transfer_sent h, .refl⟩
  · have hsent : ReflTransGen (Sent env.currentBlockNum) u.system w'.system :=
      foldlM_inv (P := fun t : World => ReflTransGen (Sent env.currentBlockNum) u.system t.system)
        .refl (fun _ _ _ _ hI hs => hI.trans (World.send_sent hs)) h
    refine ⟨u.system, ?_, hsent⟩
    cases hhead with
    | system _ hx => exact ⟨_, hx⟩
    | pledge | budget | freeze => rfl

end Actions

/-! ## Reachable worlds -/

/-- A world before any action of the system contract and of `eosio.pledge`. -/
structure Genesis (w : World) : Prop where
  system : System.Genesis w.system
  pledge : Pledge.Genesis ⟨w.system, w.pledge⟩

/-- The worlds that actions of the contracts lead to. -/
def Reachable (p : Point) : Prop := ∃ w tr, Genesis w ∧ Run Step ⟨w, 0⟩ tr p

theorem Reachable.step {p q : Point} {x : Env × WorldAction} (h : Reachable p)
    (hs : Step p x q) : Reachable q := by
  obtain ⟨w, tr, hg, hr⟩ := h
  exact ⟨w, _, hg, hr.snoc hs⟩

/-- A block with too few producers does nothing. -/
theorem idle_step {s : System.State} {height : Nat} (env : Env)
    (h : height ≤ env.currentBlockNum) :
    System.Step ⟨s, height⟩ ({ env with activeProducers := [] }, .onblock 0 0)
      ⟨s, env.currentBlockNum⟩ :=
  ⟨h, rfl, [], rfl⟩

/-- What an action itself does is a step of the system contract. -/
theorem Own.step {env : Env} {w : World} {s : System.State} {a : WorldAction} {height : Nat}
    (ho : Own env w s a) (h : height ≤ env.currentBlockNum) :
    ∃ b, System.Step ⟨w.system, height⟩ b ⟨s, env.currentBlockNum⟩ := by
  cases a with
  | system a => exact ⟨(w.env env, a), h, rfl, ho⟩
  | pledge | budget | freeze =>
    obtain rfl : s = w.system := ho
    exact ⟨_, idle_step env h⟩

/-- Transfers at the block of a reachable state lead to reachable states. -/
theorem Sent.reachable {block : Nat} {s s' : System.State} (h : ReflTransGen (Sent block) s s')
    (hs : System.Reachable ⟨s, block⟩) : System.Reachable ⟨s', block⟩ := by
  induction h with
  | refl => exact hs
  | tail _ hst ih =>
    obtain ⟨env, src, dst, q, memo, fx, rfl, hx⟩ := hst
    exact ih.step (a := (env, .transfer src dst q memo)) ⟨le_refl _, rfl, fx, hx⟩

/-- The system contract of a reachable world is in a reachable state. -/
theorem Reachable.system {p : Point} (h : Reachable p) :
    System.Reachable ⟨p.world.system, p.height⟩ := by
  obtain ⟨w, tr, hg, hr⟩ := h
  refine (hr.inv (I := fun t => System.Reachable ⟨t.world.system, t.height⟩)
    ⟨w.system, [], hg.system, .nil⟩ fun t x u hI hs => ?_).1
  obtain ⟨hheight, hu, hx⟩ := hs
  obtain ⟨s, ho, hsent⟩ := World.exec_own hx
  obtain ⟨b, hb⟩ := ho.step hheight
  rw [hu]
  exact Sent.reachable hsent (hI.step hb)

/-! ## One action -/

/-- The step is a block that rewards a counted stake. -/
def paysVotes (e : Point × (Env × WorldAction) × Point) : Bool :=
  match e.2.1.2 with
  | .system (.onblock _ _) => decide (System.numOfTopBps ≤ e.2.1.1.activeProducers.length) &&
    decide (0 < System.globalStake e.1.world.system)
  | _ => false

/-- The units that the settlement in a step creates. -/
def settled (e : Point × (Env × WorldAction) × Point) : Int :=
  System.settledReward e.1.world.system e.2.2.world.system

/-- The block up to which the block-out rewards are settled. -/
def settledTo (p : Point) : Nat := System.settledTo ⟨p.world.system, p.height⟩

/-- Transfers create nothing. -/
theorem Sent.total {block : Nat} {s s' : System.State} (h : ReflTransGen (Sent block) s s')
    (hc : System.Coins s.ledger) : System.Coins s'.ledger ∧
      System.coreTotal s' = System.coreTotal s ∧ System.lastSettled s' = System.lastSettled s := by
  induction h with
  | refl => exact ⟨hc, rfl, rfl⟩
  | tail _ hst ih =>
    obtain ⟨hcoins, htotal, hlast⟩ := ih
    obtain ⟨env, src, dst, q, memo, fx, -, hx⟩ := hst
    have hch := System.exec_change hx
    exact ⟨hch.coins hcoins, (hch.coreTotal hcoins rfl).trans htotal,
      (System.exec_lastSettled (fun _ _ e => by cases e) hx).trans hlast⟩

/-- The units that an action itself creates in the system contract. -/
theorem Own.total {env : Env} {w : World} {s : System.State} {a : WorldAction} {height : Nat}
    {q : Point} (ho : Own env w s a) (hr : System.Reachable ⟨w.system, height⟩) :
    System.coreTotal s = System.coreTotal w.system +
      (if paysVotes (⟨w, height⟩, (env, a), q) = true then 45000 else 0) +
      System.settledReward w.system s := by
  cases a with
  | pledge | budget | freeze =>
    obtain rfl : s = w.system := ho
    rw [System.settledReward_same rfl]
    simp [paysVotes]
  | system a =>
    obtain ⟨fx, hx⟩ := ho
    rw [System.exec_issues hr.coins hr.stakeWithin hr.totalStaked_nonneg hx]
    have hissue : a.voteIssue (w.env env) w.system =
        if paysVotes (⟨w, height⟩, (env, .system a), q) = true then 45000 else 0 := by
      cases a with
      | onblock b v =>
        simp only [System.Action.voteIssue, System.voteIssue, paysVotes, World.env,
          Bool.and_eq_true, decide_eq_true_eq]
        by_cases hact : System.numOfTopBps ≤ env.activeProducers.length <;> simp [hact]
      | _ => rfl
    rw [hissue]

/-- What a step settles. -/
theorem Step.settles {p q : Point} {x : Env × WorldAction} (hr : Reachable p)
    (hp : settledTo p ≤ p.height) (h : Step p x q) : settledTo q ≤ q.height ∧
      0 ≤ settled (p, x, q) ∧
      settled (p, x, q) ≤ System.blockOutReward * ((settledTo q : Int) - settledTo p) := by
  obtain ⟨hheight, hq, hx⟩ := h
  obtain ⟨s, ho, hsent⟩ := World.exec_own hx
  obtain ⟨b, hb⟩ := ho.step hheight
  obtain ⟨-, -, hlast⟩ := Sent.total hsent (hr.system.step hb).coins
  have hset : settled (p, x, q) = System.settledReward p.world.system s := by
    simp only [settled, System.settledReward, hlast]
  have hto : settledTo q = System.settledTo ⟨s, x.1.currentBlockNum⟩ := by
    simp only [settledTo, System.settledTo, hlast, hq]
  rw [hset, hto, hq]
  exact hb.settles hp

/-! ## Runs -/

/-- Account 1 has 50 tokens, the contracts' accounts have none, and there is one bp. -/
def launched : World where
  system := {
    accounts := (((∅ : Table Name System.AccountInfo).put 1 ⟨⟨500000, coreSymbol⟩⟩).put
      budgetAccount {}).put pledgeAccount {}
    bps := (∅ : Table Name System.BpInfo).put 7 { commissionRate := 5000 } }
  pledge := {}
  budget := {}
  freeze := {}

theorem launched_genesis : Genesis launched where
  system := .of_rows ((((Table.all_empty _).put ⟨rfl, by decide⟩).put ⟨rfl, by decide⟩).put
    ⟨rfl, by decide⟩) ((Table.all_empty _).put ⟨rfl, rfl, rfl, rfl⟩)
  pledge := ⟨rfl, rfl, rfl, by decide⟩

/-- Account 1 votes for the bp. -/
def voteCall : Env × WorldAction := (Env.of 1 10, .system (.vote 1 7 ⟨20000, coreSymbol⟩))

def votedPoint : Point := ⟨launched.next voteCall.1 voteCall.2, 10⟩

end Eosforce.Chain
