import Eosforce.Chain.World
import Eosforce.Freeze.Run
import Eosforce.System.Frozen

/-!
# Runs with a frozen account

`frozen_account_kept`: while `is_account_freezed` holds for an account, no action of the system
contract, of `eosio.pledge` or of `eosio.budget` takes its available tokens, its stakes or its
fix-time votes, the inline transfers of these contracts included.
-/

namespace Eosforce.Chain

open Keyed Relation Runs

/-- An action of the system contract that keeps what account `a` has. -/
def FrozenStep (a : Name) (s s' : System.State) : Prop :=
  ∃ env act fx, System.exec env s act = .ok (s', fx) ∧ System.Kept a s.ledger s'.ledger ∧
    System.Credits a s s'.ledger act

/-- The account is frozen when the step is taken. -/
def IsFrozen (a : Name) (e : Point × (Env × WorldAction) × Point) : Prop :=
  isAccountFreezed e.1.world.freeze a e.2.1.1.currentBlockNum = true

theorem SystemStep.frozen {block : Nat} {freeze : Freeze.State} {s s' : System.State} {a : Name}
    (hf : isAccountFreezed freeze a block = true) (h : SystemStep block freeze s s') :
    FrozenStep a s s' := by
  obtain ⟨env, act, fx, rfl, rfl, hx⟩ := h
  obtain ⟨hk, hc⟩ := System.exec_frozen (show env.freezed a = true from hf) hx
  exact ⟨env, act, fx, hx, hk, hc⟩

theorem FrozenStep.kept {a : Name} {s s' : System.State} (h : ReflTransGen (FrozenStep a) s s') :
    System.Kept a s.ledger s'.ledger := by
  induction h with
  | refl => exact .refl _ _
  | tail _ hst ih =>
    obtain ⟨_, _, _, -, hk, -⟩ := hst
    exact ih.trans hk

/-- **Step lemma.** Every action under which the account is frozen is made of such actions. -/
theorem Step.frozen {p q : Point} {x : Env × WorldAction} {a : Name} (h : Step p x q)
    (hf : IsFrozen a (p, x, q)) : ReflTransGen (FrozenStep a) p.world.system q.world.system :=
  ReflTransGen.mono (fun _ _ hs => SystemStep.frozen hf hs) _ _ (World.exec_system h.2.2)

/-- **Freeze.** In a run in which an account is frozen at every step, its available tokens do not
fall, the stakes of its votes stay as they are, and its fix-time votes are old ones for their bps. Each
step consists of actions of the system contract that keep this and that add to the available tokens
only what leaves unstaking, rewards and transfers from others. -/
theorem frozen_account_kept {p q : Point} {tr : Trace} {a : Name} (h : Run Step p tr q)
    (hf : ∀ e ∈ tr, IsFrozen a e) :
    System.Kept a p.world.system.ledger q.world.system.ledger ∧
    ∀ e ∈ tr, ReflTransGen (FrozenStep a) e.1.world.system e.2.2.world.system := by
  have hrun := h.restrict hf
  have hinv := hrun.inv (I := fun t => System.Kept a p.world.system.ledger t.world.system.ledger)
    (.refl _ _) fun t x u ht hs => ht.trans (FrozenStep.kept (hs.1.frozen hs.2))
  exact ⟨hinv.1, fun e he => (hinv.2 e he).2.1.1.frozen (hf e he)⟩

/-! ## A payment to a frozen account -/

/-- Account 5 has 100 units, account 7 is frozen. -/
def frozenWorld : World where
  system := { accounts := ((∅ : Table Name System.AccountInfo).put 5
    { available := ⟨100, coreSymbol⟩ }).put 7 {} }
  pledge := {}
  budget := {}
  freeze := Freeze.activated

/-- The world after an action that succeeds. -/
def World.next (w : World) (env : Env) (a : WorldAction) : World :=
  match w.exec env a with
  | .ok w' => w'
  | .error _ => w

theorem World.next_step (w : World) (height : Nat) (env : Env) (a : WorldAction)
    (hheight : height ≤ env.currentBlockNum) (h : (w.exec env a).isOk = true) :
    Step ⟨w, height⟩ (env, a) ⟨w.next env a, env.currentBlockNum⟩ := by
  refine ⟨hheight, rfl, ?_⟩
  unfold World.next
  show w.exec env a = _
  cases he : w.exec env a with
  | error e =>
    rw [he] at h
    cases h
  | ok r => rfl

/-- Account 5 pays account 7. -/
def paidWorld : World :=
  frozenWorld.next (Env.of 5 6) (.system (.transfer 5 7 ⟨100, coreSymbol⟩ ""))

theorem frozen_account_kept_paid :
    System.Kept 7 frozenWorld.system.ledger paidWorld.system.ledger := by
  have hst := World.next_step frozenWorld 5 (Env.of 5 6)
    (.system (.transfer 5 7 ⟨100, coreSymbol⟩ "")) (by decide) rfl
  refine (frozen_account_kept (Run.nil.snoc hst) fun e he => ?_).1
  obtain rfl := List.mem_singleton.mp he
  exact (by decide : isAccountFreezed Freeze.activated 7 6 = true)

end Eosforce.Chain
