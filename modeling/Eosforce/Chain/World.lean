import Eosforce.Budget.Actions
import Eosforce.Freeze.Actions
import Eosforce.Pledge.Chain
import Eosforce.System.Exec
import Mathlib.Logic.Relation

/-!
# The contracts on one chain

The system contract with `eosio.pledge`, `eosio.budget` and `eosio.freeze`: each reads the tables of
the others as they are, and what one sends runs in the contract that it names.

* `World`, `World.exec`: one action with the inline actions and notifications that it leads to.
* `Step`: an action at a block not below the height.
* `World.exec_cases`: an action is a transfer, or what one contract does to its tables (`Head`) and
  then the inline actions that it sends.
* `World.exec_system`: what an action of any contract does to the tables of the system contract is
  done by actions of the system contract in the same block (`SystemStep`).
-/

namespace Eosforce.Chain

open Fallible Relation

/-- The tables of the contracts. -/
structure World where
  system : System.State
  pledge : Pledge.State
  budget : Budget.State
  freeze : Freeze.State

namespace World

/-- The context of an action, with the tables of this world. -/
def env (w : World) (env : Env) : Env :=
  { env with pledges := w.pledge.pledge, freeze := w.freeze }

/-- A transfer with its notification of the pledge contract. -/
def transfer (env : Env) (w : World) (src dst : Name) (quantity : Asset) (memo : String) :
    Except String World := do
  let c ← Pledge.runTransfer (w.env env) ⟨w.system, w.pledge⟩ src dst quantity memo
  pure { w with system := c.system, pledge := c.pledge }

/-- An inline action, which has the authority of the contract that sends it. Proposed producers and
notified accounts change no contract; the node takes all proposed producers here. -/
def send (env : Env) (sender : Name) (w : World) : Effect → Except String World
  | .transfer src dst quantity memo => w.transfer { env with auths := [sender] } src dst quantity memo
  | .deduction pledgeName debitee quantity memo => do
    let pledge ← Pledge.deduction { w.env env with auths := [sender] } w.pledge pledgeName debitee
      quantity memo
    pure { w with pledge }
  | .dealreward pledgeName pledger rewarder memo => do
    let pledge ← Pledge.dealreward { w.env env with auths := [sender] } w.pledge pledgeName pledger
      rewarder memo
    pure { w with pledge }
  | _ => pure w

/-- The inline actions in the order of their sending. -/
def sendAll (env : Env) (sender : Name) (w : World) (fx : List Effect) : Except String World :=
  fx.foldlM (send env sender) w

end World

/-- The actions of the contracts. -/
inductive WorldAction where
  | system (a : System.Action)
  | pledge (a : Pledge.Action)
  | budget (a : Budget.Action)
  | freeze (a : Freeze.Action)

/-- What an action does, all that it sends included. -/
def World.exec (env : Env) (w : World) : WorldAction → Except String World
  | .system (.transfer src dst quantity memo) => w.transfer env src dst quantity memo
  | .system a => do
    let (system, fx) ← System.exec (w.env env) w.system a
    { w with system }.sendAll env systemAccount fx
  | .pledge a => do
    let (pledge, fx) ← Pledge.exec (w.env env) w.pledge a
    { w with pledge }.sendAll env pledgeAccount fx
  | .budget a => do
    let (budget, fx) ← Budget.exec (w.env env) w.budget a
    { w with budget }.sendAll env eosioBudget fx
  | .freeze a => do
    let freeze ← Freeze.exec (w.env env) w.freeze a
    pure { w with freeze }

/-- The world and the height of the last block that ran an action. -/
structure Point where
  world : World
  height : Nat

/-- One action, at a block not below the height. -/
def Step (p : Point) (a : Env × WorldAction) (q : Point) : Prop :=
  p.height ≤ a.1.currentBlockNum ∧ q.height = a.1.currentBlockNum ∧
    p.world.exec a.1 a.2 = .ok q.world

/-- The steps of a run with the worlds around them. -/
abbrev Trace := List (Point × (Env × WorldAction) × Point)

/-! ## What an action is made of -/

/-- What an action other than a transfer does before its inline actions, which the account `sender`
then sends. -/
inductive Head (env : Env) (w : World) : WorldAction → World → Name → List Effect → Prop
  | system {a : System.Action} {s : System.State} {fx : List Effect} :
    (∀ src dst quantity memo, a ≠ .transfer src dst quantity memo) →
    System.exec (w.env env) w.system a = .ok (s, fx) →
    Head env w (.system a) { w with system := s } systemAccount fx
  | pledge {a : Pledge.Action} {p : Pledge.State} {fx : List Effect} :
    Pledge.exec (w.env env) w.pledge a = .ok (p, fx) →
    Head env w (.pledge a) { w with pledge := p } pledgeAccount fx
  | budget {a : Budget.Action} {b : Budget.State} {fx : List Effect} :
    Budget.exec (w.env env) w.budget a = .ok (b, fx) →
    Head env w (.budget a) { w with budget := b } eosioBudget fx
  | freeze {a : Freeze.Action} {f : Freeze.State} :
    Freeze.exec (w.env env) w.freeze a = .ok f →
    Head env w (.freeze a) { w with freeze := f } systemAccount []

/-- A successful action is a transfer with its notification, or the work of one contract and then
the inline actions that it sends. -/
theorem World.exec_cases {env : Env} {w w' : World} {a : WorldAction}
    (h : w.exec env a = .ok w') :
    (∃ src dst quantity memo, a = .system (.transfer src dst quantity memo) ∧
      w.transfer env src dst quantity memo = .ok w') ∨
    ∃ u sender fx, Head env w a u sender fx ∧ u.sendAll env sender fx = .ok w' := by
  cases a with
  | freeze a =>
    simp only [World.exec, bind_eq_ok, pure_eq_ok] at h
    obtain ⟨f, hf, rfl⟩ := h
    exact .inr ⟨_, _, _, .freeze hf, rfl⟩
  | pledge a =>
    simp only [World.exec, bind_eq_ok] at h
    obtain ⟨r, hr, h⟩ := h
    exact .inr ⟨_, _, _, .pledge hr, h⟩
  | budget a =>
    simp only [World.exec, bind_eq_ok] at h
    obtain ⟨r, hr, h⟩ := h
    exact .inr ⟨_, _, _, .budget hr, h⟩
  | system a =>
    by_cases ht : ∃ src dst quantity memo, a = .transfer src dst quantity memo
    · obtain ⟨src, dst, quantity, memo, rfl⟩ := ht
      exact .inl ⟨src, dst, quantity, memo, rfl, h⟩
    · have he : w.exec env (.system a) = (System.exec (w.env env) w.system a >>= fun r =>
          { w with system := r.1 }.sendAll env systemAccount r.2) := by
        cases a <;> first | rfl | exact absurd ⟨_, _, _, _, rfl⟩ ht
      rw [he, bind_eq_ok] at h
      obtain ⟨r, hr, h⟩ := h
      exact .inr ⟨_, _, _, .system (fun _ _ _ _ e => ht ⟨_, _, _, _, e⟩) hr, h⟩

/-- What a contract sends with an action. -/
def sent {α : Type} : Except String (α × List Effect) → List Effect
  | .ok (_, fx) => fx
  | .error _ => []

theorem mem_sent {α : Type} {r : Except String (α × List Effect)} {x : Effect} (h : x ∈ sent r) :
    ∃ t fx, r = .ok (t, fx) ∧ x ∈ fx := by
  cases r with
  | ok r => exact ⟨r.1, r.2, rfl, h⟩
  | error => cases h

/-- The inline actions and notifications of an action. -/
def World.sends (env : Env) (w : World) : WorldAction → List Effect
  | .system a => sent (System.exec (w.env env) w.system a)
  | .pledge a => sent (Pledge.exec (w.env env) w.pledge a)
  | .budget a => sent (Budget.exec (w.env env) w.budget a)
  | .freeze _ => []

theorem Head.sends {env : Env} {w u : World} {a : WorldAction} {sender : Name} {fx : List Effect}
    (h : Head env w a u sender fx) : w.sends env a = fx := by
  cases h with
  | system _ hx | pledge hx | budget hx => rw [World.sends, hx]; rfl
  | freeze => rfl

/-! ## The actions of the system contract -/

/-- An action of the system contract at a block, where the freeze contract has these tables. -/
def SystemStep (block : Nat) (freeze : Freeze.State) (s s' : System.State) : Prop :=
  ∃ env a fx, env.currentBlockNum = block ∧ env.freeze = freeze ∧
    System.exec env s a = .ok (s', fx)

section SystemSteps

variable {env : Env} {w w' : World}

/-- The tables of the system contract in `w'` are those that its actions lead to from `w`. -/
def BySystem (block : Nat) (w w' : World) : Prop :=
  w'.freeze = w.freeze ∧ ReflTransGen (SystemStep block w.freeze) w.system w'.system

theorem BySystem.refl (block : Nat) (w : World) : BySystem block w w := ⟨rfl, .refl⟩

theorem BySystem.trans {block : Nat} {w v u : World} (h : BySystem block w v)
    (h' : BySystem block v u) : BySystem block w u :=
  ⟨h'.1.trans h.1, h.2.trans (h.1 ▸ h'.2)⟩

theorem World.transfer_bySystem {src dst : Name} {quantity : Asset} {memo : String}
    (h : w.transfer env src dst quantity memo = .ok w') : BySystem env.currentBlockNum w w' := by
  simp only [World.transfer, Pledge.runTransfer, bind_eq_ok, pure_eq_ok] at h
  obtain ⟨c, ⟨⟨system, fx⟩, hs, hc⟩, rfl⟩ := h
  have hsys : c.system = system := by
    split at hc
    · simp only [bind_eq_ok, pure_eq_ok] at hc
      obtain ⟨_, -, rfl⟩ := hc
      rfl
    · cases hc
      rfl
  refine ⟨rfl, .single ⟨w.env env, .transfer src dst quantity memo, fx, rfl, rfl, ?_⟩⟩
  show System.transfer _ _ _ _ _ _ = _
  rw [hs, hsys]

theorem World.send_bySystem {sender : Name} {e : Effect} (h : w.send env sender e = .ok w') :
    BySystem env.currentBlockNum w w' := by
  cases e with
  | transfer src dst quantity memo =>
    have hby : BySystem ({ env with auths := [sender] } : Env).currentBlockNum w w' :=
      transfer_bySystem h
    exact hby
  | deduction | dealreward =>
    simp only [World.send, bind_eq_ok, pure_eq_ok] at h
    obtain ⟨_, -, rfl⟩ := h
    exact ⟨rfl, .refl⟩
  | setProposedProducers | setNeedCheckRamLimit | requireRecipient =>
    cases h
    exact .refl _ _

theorem World.sendAll_bySystem {sender : Name} {fx : List Effect}
    (h : w.sendAll env sender fx = .ok w') : BySystem env.currentBlockNum w w' :=
  foldlM_inv (.refl _ w) (fun _ _ _ _ hI hs => hI.trans (send_bySystem hs)) h

/-- What an action of any contract does to the system contract is done by the actions of the system
contract, under the tables of the freeze contract before it. -/
theorem World.exec_system {a : WorldAction} (h : w.exec env a = .ok w') :
    ReflTransGen (SystemStep env.currentBlockNum w.freeze) w.system w'.system := by
  cases a with
  | freeze a =>
    simp only [World.exec, bind_eq_ok, pure_eq_ok] at h
    obtain ⟨_, -, rfl⟩ := h
    exact .refl
  | pledge a =>
    simp only [World.exec, bind_eq_ok] at h
    obtain ⟨_, -, h⟩ := h
    exact (sendAll_bySystem h).2
  | budget a =>
    simp only [World.exec, bind_eq_ok] at h
    obtain ⟨_, -, h⟩ := h
    exact (sendAll_bySystem h).2
  | system a =>
    by_cases ht : ∃ src dst quantity memo, a = .transfer src dst quantity memo
    · obtain ⟨src, dst, quantity, memo, rfl⟩ := ht
      exact (transfer_bySystem h).2
    · have he : w.exec env (.system a) = (System.exec (w.env env) w.system a >>= fun r =>
          { w with system := r.1 }.sendAll env systemAccount r.2) := by
        cases a <;> first | rfl | exact absurd ⟨_, _, _, _, rfl⟩ ht
      rw [he, bind_eq_ok] at h
      obtain ⟨r, hr, h⟩ := h
      exact .head ⟨w.env env, a, r.2, rfl, rfl, hr⟩ (sendAll_bySystem h).2

end SystemSteps

end Eosforce.Chain
