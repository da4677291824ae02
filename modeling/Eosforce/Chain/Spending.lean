import Eosforce.Budget.Run
import Eosforce.Chain.Solvency

/-!
# What the budget contract spends

The tokens of `eosio.budget` leave it as payments of requests that the committee agreed to, and in no
other way, unless the account itself signs.

* `Agreed`: a vote that decides a request, where the request may be paid.
* `exec_pays`: an action of the budget contract sends nothing, or pays such a request.
* `budget_spends`: the tokens of the account over a run of all contracts.
-/

namespace Eosforce.Chain

open Fallible Keyed Runs
open Eosforce.Pledge (balance)

/-! ## The decision about a request -/

/-- The approver's vote decides the request `k` of a proposer: it is asked for and signed, before the
deadline of the request; more than two thirds agree with it; and the motion of the request has passed
and covers the quantity. -/
structure Agreed (env : Env) (b : Budget.State) (approver proposer : Name) (k : Nat)
    (t : Budget.TakecoinInfo) : Prop where
  signed : approver ∈ env.auths
  request : b.takecoins.find proposer k = some t
  undecided : t.section = 0
  inTime : env.currentBlockNum < t.endBlockNum
  asked : approver ∈ t.ballot.requested
  passed : (t.ballot.agree approver).Passed
  covered : ∃ m, b.motions.find t.montionId = some m ∧ m.section = 1 ∧
    t.quantity.amount ≤ m.quantity.amount

/-- An action of the budget contract sends nothing, or it is the vote that decides a request and pays
it. -/
theorem exec_pays {env : Env} {b b' : Budget.State} {a : Budget.Action} {fx : List Effect}
    (h : Budget.exec env b a = .ok (b', fx)) : fx = [] ∨
      ∃ approver proposer k memo t, a = .agreecoin approver proposer k memo ∧
        Agreed env b approver proposer k t ∧
        fx = [.transfer eosioBudget t.receiver t.quantity "budget take coin"] := by
  have hch := Budget.exec_change h
  generalize b'.motions = motions, b'.takecoins = takecoins at hch
  cases hch with
  | @pay approver proposer k memo ballot t m ht h0 hm h1 hs hle =>
    refine .inr ⟨approver, proposer, k, memo, t, rfl, ?_, rfl⟩
    simp only [Budget.exec, Budget.agreecoin, bind_eq_ok] at h
    obtain ⟨_, hauth, t', ht', h⟩ := h
    simp only [Budget.takecoinUnderVote, bind_eq_ok, fetch_eq_ok, check_eq_ok, pure_eq_ok] at ht'
    obtain ⟨_, ht'', _, hend, _, -, _, hr, rfl⟩ := ht'
    obtain rfl := Option.some.inj (ht.symm.trans ht'')
    split at h
    · exact ⟨check_eq_ok.mp hauth, ht, h0, hend, hr, ‹_›, m, hm, h1, hle⟩
    · cases h
  | _ => exact .inl rfl

/-! ## One action -/

/-- The units that an inline action moves. -/
def payment : Effect → Int
  | .transfer _ _ q _ => q.amount
  | _ => 0

/-- What the budget contract pays with an action. -/
def World.spends (env : Env) (w : World) : WorldAction → Int
  | .budget a => ((w.sends env (.budget a)).map payment).sum
  | _ => 0

section Actions

variable {env : Env} {w w' : World}

/-- A transfer takes at most its quantity, which is not negative. -/
theorem World.transfer_balance {src dst : Name} {q : Asset} {memo : String} (v : Name)
    (h : w.transfer env src dst q memo = .ok w') :
    0 ≤ q.amount ∧ balance w.system v ≤ balance w'.system v + q.amount := by
  obtain ⟨fx, hx⟩ := World.transfer_sent h
  obtain ⟨hcoin, -, hbal⟩ := Pledge.transfer_spec hx
  have h0 := hcoin.2
  have hv := hbal v
  refine ⟨h0, ?_⟩
  split at hv <;> split at hv <;> omega

/-- What an action of the other contracts takes from the account: nothing. -/
theorem Head.spared {a : WorldAction} {u : World} {sender : Name} {fx : List Effect}
    (hself : eosioBudget ∉ env.auths) (h : Head env w a u sender fx)
    (hs : u.sendAll env sender fx = .ok w') (ha : ∀ b, a ≠ .budget b) :
    System.Untouched eosioBudget w.system.ledger w'.system.ledger := by
  have hsends : ∀ {sender : Name} {u : World}, eosioBudget ≠ sender →
      u.sendAll env sender fx = .ok w' →
      System.Untouched eosioBudget u.system.ledger w'.system.ledger := fun hne hs =>
    (World.sendAll_spared (D := fun _ => True) hne trivial hs).system
  cases h with
  | system _ hx =>
    refine System.Untouched.trans ?_ (hsends (show eosioBudget ≠ systemAccount by decide) hs)
    exact System.exec_untouched (show eosioBudget ∉ (w.env env).auths from hself) hx
  | @pledge a p fx hx =>
    exact hsends (u := { w with pledge := p }) (show eosioBudget ≠ pledgeAccount by decide) hs
  | @freeze a f hx =>
    exact hsends (u := { w with freeze := f }) (show eosioBudget ≠ systemAccount by decide) hs
  | budget => exact absurd rfl (ha _)

/-- **Step lemma.** An action that `eosio.budget` does not sign takes from it what the budget contract
pays, which is for a request that the committee agreed to. -/
theorem World.exec_spends {a : WorldAction} (hself : eosioBudget ∉ env.auths)
    (hc : System.Coins w'.system.ledger) (h : w.exec env a = .ok w') :
    balance w.system eosioBudget ≤ balance w'.system eosioBudget + w.spends env a ∧
      (w.spends env a ≠ 0 → ∃ approver proposer k memo t,
        a = .budget (.agreecoin approver proposer k memo) ∧
        Agreed (w.env env) w.budget approver proposer k t ∧
        w.spends env a = t.quantity.amount ∧ 0 < t.quantity.amount) := by
  rcases exec_cases h with ⟨src, dst, q, memo, rfl, ht⟩ | ⟨u, sender, fx, hhead, hs⟩
  · have hkept := (World.transfer_spared (D := fun _ => True) hself ht).system
    exact ⟨(balance_mono hc hkept).trans (le_of_eq (Int.add_zero _).symm), fun hne => absurd rfl hne⟩
  · by_cases hb : ∃ b, a = .budget b
    swap
    · have hkept := hhead.spared hself hs fun b e => hb ⟨b, e⟩
      have hzero : w.spends env a = 0 := by
        cases a with
        | budget b => exact absurd ⟨b, rfl⟩ hb
        | _ => rfl
      rw [hzero, Int.add_zero]
      exact ⟨balance_mono hc hkept, fun hne => absurd rfl hne⟩
    obtain ⟨a, rfl⟩ := hb
    have hsends := hhead.sends
    cases hhead with
    | @budget a b fx hx =>
      rcases exec_pays hx with rfl | ⟨approver, proposer, k, memo, t, rfl, hag, rfl⟩
      · cases hs
        simp only [World.spends, hsends, List.map_nil, List.sum_nil]
        exact ⟨le_of_eq (Int.add_zero _).symm, fun hne => absurd rfl hne⟩
      · simp only [World.sendAll, List.foldlM_cons, List.foldlM_nil, World.send, bind_eq_ok,
          pure_eq_ok] at hs
        obtain ⟨u, hu, rfl⟩ := hs
        obtain ⟨h0, hle⟩ := World.transfer_balance eosioBudget hu
        simp only [World.spends, hsends, List.map_cons, List.map_nil, payment, List.sum_cons,
          List.sum_nil, Int.add_zero]
        exact ⟨hle, fun hne => ⟨approver, proposer, k, memo, t, rfl, hag, rfl, by omega⟩⟩

end Actions

/-! ## Runs -/

/-- **Spending.** From a reachable world on, in every run of actions of all contracts in which nobody
signs as `eosio.budget`, its tokens fall at most by what the budget contract pays, and each payment is
made by the vote that decides a request: the request is undecided, before its deadline, and asks for
the vote; the approver signs it; more than two thirds of the committee's ballot agree; and the motion
has passed and covers the quantity. -/
theorem budget_spends {p q : Point} {tr : Trace} (hp : Reachable p) (h : Run Step p tr q)
    (hself : ∀ e ∈ tr, eosioBudget ∉ e.2.1.1.auths) :
    balance p.world.system eosioBudget ≤ balance q.world.system eosioBudget +
      (tr.map fun e => e.1.world.spends e.2.1.1 e.2.1.2).sum ∧
    ∀ e ∈ tr, e.1.world.spends e.2.1.1 e.2.1.2 ≠ 0 → ∃ approver proposer k memo t,
      e.2.1.2 = .budget (.agreecoin approver proposer k memo) ∧
      Agreed (e.1.world.env e.2.1.1) e.1.world.budget approver proposer k t ∧
      e.1.world.spends e.2.1.1 e.2.1.2 = t.quantity.amount ∧ 0 < t.quantity.amount := by
  have hrun := h.restrict hself
  have hreach : ∀ t x u, Reachable t →
      (Step t x u ∧ eosioBudget ∉ x.1.auths) → Reachable u := fun _ _ _ ht hs => ht.step hs.1
  constructor
  · exact hrun.falls (q := fun t => balance t.world.system eosioBudget)
      (d := fun e => e.1.world.spends e.2.1.1 e.2.1.2) hp hreach fun _ _ _ ht hs =>
        (World.exec_spends hs.2 (hreach _ _ _ ht hs).system.coins hs.1.2.2).1
  · intro e he
    obtain ⟨-, ⟨⟨-, -, hx⟩, hauth⟩, hq⟩ := (hrun.inv hp hreach).2 e he
    exact (World.exec_spends hauth hq.system.coins hx).2

/-! ## A payment -/

/-- The budget has 100 tokens, and a request for six of them waits for the vote of account 3. -/
def awaiting : World where
  system := Budget.treasury
  pledge := {}
  budget := Budget.requested
  freeze := {}

theorem awaiting_genesis : Genesis awaiting where
  system := .of_rows (((Table.all_empty _).put ⟨rfl, by decide⟩).put ⟨rfl, by decide⟩)
    (Table.all_empty _)
  pledge := ⟨rfl, rfl, rfl, by decide⟩

/-- The vote of account 3. -/
def agreeCall : Env × WorldAction := (Env.of 3 403203, .budget (.agreecoin 3 1 0 ""))

def agreedPoint : Point := ⟨awaiting.next agreeCall.1 agreeCall.2, 403203⟩

/-- At most the six tokens leave the budget, by the vote of account 3. -/
theorem budget_spends_agreed :
    1000000 ≤ balance agreedPoint.world.system eosioBudget + 60000 ∧
      ∃ t, Agreed (awaiting.env agreeCall.1) awaiting.budget 3 1 0 t ∧ t.quantity.amount = 60000 := by
  have hagree : Step ⟨awaiting, 0⟩ agreeCall agreedPoint :=
    World.next_step awaiting 0 agreeCall.1 agreeCall.2 (by decide) (by decide +kernel)
  have hr : Reachable ⟨awaiting, 0⟩ := ⟨awaiting, [], awaiting_genesis, .nil⟩
  obtain ⟨hfall, hpays⟩ := budget_spends hr (Run.nil.snoc hagree) fun e he => by
    obtain rfl := List.mem_singleton.mp he
    decide
  have hpaid : awaiting.spends agreeCall.1 agreeCall.2 = 60000 := by decide +kernel
  constructor
  · rw [List.nil_append, List.map_singleton, List.sum_singleton, hpaid] at hfall
    exact hfall
  · have hpay := hpays (⟨awaiting, 0⟩, agreeCall, agreedPoint) (by simp)
    simp only [hpaid] at hpay
    obtain ⟨approver, proposer, k, memo, t, hact, hagreed, hq, -⟩ := hpay (by decide)
    cases hact
    exact ⟨t, hagreed, hq.symm⟩

end Eosforce.Chain
