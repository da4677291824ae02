import Eosforce.Budget.Run

/-!
# What a motion pays

* `chargedId`, `charge`: the motion that an `agreecoin` charges, and the amount that is sent.
* `Call.sentFor`: how many transfers an action sends for a request.
* `motion_accounted`: from its proposal to its close, a motion holds what was proposed less what was
  charged to it; it pays in section 1 only; and a request is paid once.
-/

namespace Eosforce.Budget

open Fallible Keyed Runs

/-- The amount that the transfers send. -/
def transferred (fx : List Effect) : Int :=
  (fx.map fun
    | .transfer _ _ quantity _ => quantity.amount
    | _ => 0).sum

/-- The id of the motion whose tokens an `agreecoin` is about. -/
def chargedId (b : State) : Action → Option Nat
  | .agreecoin _ proposer id _ => (b.takecoins.find proposer id).map (·.montionId)
  | _ => none

/-- What a step sends out of motion `id`. -/
def charge (id : Nat) (e : State × Call × State) : Int :=
  if chargedId e.1 e.2.1.action = some id then transferred e.2.1.effects else 0

/-- How many transfers an action sends for request `k` of the proposer. -/
def Call.sentFor (c : Call) (proposer : Name) (k : Nat) : Nat :=
  match c.action with
  | .agreecoin _ p id _ => if p = proposer ∧ id = k then c.effects.length else 0
  | _ => 0

/-- The action closes motion `id`. -/
def Action.ClosesMotion (a : Action) (id : Nat) : Prop := ∃ memo, a = .closemotion id memo

/-- The action closes request `k` of the proposer. -/
def Action.ClosesCoin (a : Action) (proposer : Name) (k : Nat) : Prop :=
  ∃ memo, a = .closecoin proposer k memo

/-- Request `k` of the proposer is paid. -/
def Paid (takecoins : Scoped Name Nat TakecoinInfo) (proposer : Name) (k : Nat) : Prop :=
  ∃ t, takecoins.find proposer k = some t ∧ t.section = 1

variable {b b' : State} {a : Action} {motions : Table Nat MotionInfo}
  {takecoins : Scoped Name Nat TakecoinInfo} {fx : List Effect}

/-! ## One action -/

theorem charge_of_silent {c : Call} (id : Nat) (h : c.effects = []) : charge id (b, c, b') = 0 := by
  simp only [charge, h]
  split <;> rfl

theorem sentFor_of_silent {c : Call} (proposer : Name) (k : Nat) (h : c.effects = []) :
    c.sentFor proposer k = 0 := by
  unfold Call.sentFor
  split
  · simp [h]
  · rfl

/-- What a motion becomes where `x` is charged to it. -/
structure Charged (m m' : MotionInfo) (x : Int) : Prop where
  symbol : m'.quantity.symbol = m.quantity.symbol
  amount : m'.quantity.amount = m.quantity.amount - x
  /-- The motion is not overdrawn. -/
  nonneg : 0 ≤ m.quantity.amount → 0 ≤ m'.quantity.amount

theorem Charged.refl (m : MotionInfo) : Charged m m 0 := ⟨rfl, by omega, id⟩

/-- A motion that stays open is charged what the action sends out of it. -/
theorem Change.charged {c : Call} {id : Nat} {m : MotionInfo} (b' : State)
    (hm : b.motions.find id = some m) (h : Change b c.action motions takecoins c.effects)
    (hopen : ¬c.action.ClosesMotion id) :
    ∃ m', motions.find id = some m' ∧ Charged m m' (charge id (b, c, b')) := by
  obtain ⟨env, a, fx⟩ := c
  simp only at h hopen
  cases h with
  | still | takecoin | voteCoin | closecoin =>
    rw [charge_of_silent id rfl]
    exact ⟨m, hm, .refl m⟩
  | propose hid hq hp =>
    rw [charge_of_silent id rfl]
    have hne := (lt_availablePrimaryKey hid hm).ne'
    exact ⟨m, by rw [Table.find_put_ne _ _ hne, hm], .refl m⟩
  | @decide _ id' m₀ n ha hm₀ =>
    rw [charge_of_silent id rfl]
    by_cases hid : id' = id
    · subst hid
      cases hm.symm.trans hm₀
      exact ⟨_, Table.find_put_self _ _ _, ⟨rfl, by simp, fun h => h⟩⟩
    · exact ⟨m, by rw [Table.find_put_ne _ _ hid, hm], .refl m⟩
  | @pay approver proposer k memo ballot t m₀ ht h0 hm₀ h1 hs hle =>
    have hcharged : chargedId b (.agreecoin approver proposer k memo) = some t.montionId := by
      rw [chargedId, ht, Option.map_some]
    simp only [charge, hcharged, Option.some.injEq]
    by_cases hid : t.montionId = id
    · subst hid
      cases hm.symm.trans hm₀
      refine ⟨_, Table.find_put_self _ _ _, ⟨rfl, ?_, fun _ => ?_⟩⟩
      · simp [transferred]
      · simp only
        omega
    · rw [if_neg hid]
      exact ⟨m, by rw [Table.find_put_ne _ _ hid, hm], .refl m⟩
  | @closemotion id' memo m₀ hm₀ =>
    rw [charge_of_silent id rfl]
    have hne : id' ≠ id := fun e => hopen ⟨memo, e ▸ rfl⟩
    exact ⟨m, by rw [Table.find_erase_ne _ hne, hm], .refl m⟩

/-- A transfer is one of an `agreecoin`, out of a motion that has passed. -/
theorem Change.transfer_passed (h : Change b a motions takecoins fx) {src dst : Name} {x : Asset}
    {memo : String} (hx : .transfer src dst x memo ∈ fx) :
    ∃ id m, chargedId b a = some id ∧ b.motions.find id = some m ∧ m.section = 1 ∧
      x.symbol = m.quantity.symbol := by
  cases h with
  | still | propose | decide | takecoin | voteCoin | closemotion | closecoin => cases hx
  | @pay approver proposer k memo ballot t m ht h0 hm h1 hs hle =>
    rw [List.mem_singleton] at hx
    cases hx
    exact ⟨t.montionId, m, by rw [chargedId, ht, Option.map_some], hm, h1, hs.symm⟩

/-- A paid request stays paid, and nothing more is sent for it. -/
theorem Change.paid {c : Call} {proposer : Name} {k : Nat} (hp : Paid b.takecoins proposer k)
    (h : Change b c.action motions takecoins c.effects) (hopen : ¬c.action.ClosesCoin proposer k) :
    c.sentFor proposer k = 0 ∧ Paid takecoins proposer k := by
  obtain ⟨t, ht, h1⟩ := hp
  obtain ⟨env, a, fx⟩ := c
  simp only at h hopen
  cases h with
  | still | propose | decide | closemotion => exact ⟨sentFor_of_silent _ _ rfl, t, ht, h1⟩
  | @takecoin p id k' content quantity m t' hm hp hk hid hr =>
    refine ⟨rfl, t, ?_, h1⟩
    rw [Scoped.find_put_ne, ht]
    rintro ⟨rfl, rfl⟩
    rw [ht] at hk; cases hk
  | @voteCoin _ p k' n ballot t' ha ht' h0 =>
    refine ⟨sentFor_of_silent _ _ rfl, t, ?_, h1⟩
    rw [Scoped.find_put_ne, ht]
    rintro ⟨rfl, rfl⟩
    cases ht.symm.trans ht'
    omega
  | @pay approver p k' memo ballot t' m ht' h0 hm h1' hs hle =>
    have hne : ¬(p = proposer ∧ k' = k) := by
      rintro ⟨rfl, rfl⟩
      cases ht.symm.trans ht'
      omega
    exact ⟨by simp only [Call.sentFor, if_neg hne], t, by rw [Scoped.find_put_ne _ _ hne, ht], h1⟩
  | @closecoin p k' memo t' ht' =>
    refine ⟨rfl, t, ?_, h1⟩
    rw [Scoped.find_erase, if_neg, ht]
    rintro ⟨rfl, rfl⟩
    exact hopen ⟨memo, rfl⟩

/-- An action sends at most one transfer for a request, which is paid then. -/
theorem Change.sent_once {c : Call} (h : Change b c.action motions takecoins c.effects)
    (proposer : Name) (k : Nat) :
    c.sentFor proposer k = 0 ∨ c.sentFor proposer k = 1 ∧ Paid takecoins proposer k := by
  obtain ⟨env, a, fx⟩ := c
  simp only at h
  cases h with
  | still | propose | decide | takecoin | voteCoin | closemotion | closecoin =>
    exact .inl (sentFor_of_silent _ _ rfl)
  | @pay approver p k' memo ballot t m ht h0 hm h1 hs hle =>
    by_cases hk : p = proposer ∧ k' = k
    · obtain ⟨rfl, rfl⟩ := hk
      exact .inr ⟨by simp [Call.sentFor], _, Scoped.find_put_self _ _ _ _, rfl⟩
    · exact .inl (by simp only [Call.sentFor, if_neg hk])

/-- A proposal makes the motion with the available id. -/
theorem Change.proposed {proposer : Name} {title content : String} {quantity : Asset} {id : Nat}
    (h : Change b (.propose proposer title content quantity) motions takecoins fx)
    (hid : availablePrimaryKey b.motions = .ok id) :
    ∃ m, motions.find id = some m ∧ m.quantity = quantity := by
  cases h with
  | still ha | decide ha _ | voteCoin ha _ _ => cases ha
  | propose hid' hq hp =>
    cases hid.symm.trans hid'
    exact ⟨_, Table.find_put_self _ _ _, hq⟩

/-! ## Runs -/

variable {tr : List (State × Call × State)}

/-- **Run lemma.** An open motion is charged what the run sends out of it. -/
theorem run_charged {id : Nat} {m : MotionInfo} (hm : b.motions.find id = some m)
    (h : Run Step b tr b') (hopen : ∀ e ∈ tr, ¬e.2.1.action.ClosesMotion id) :
    ∃ m', b'.motions.find id = some m' ∧ Charged m m' (tr.map (charge id)).sum := by
  induction h with
  | nil => exact ⟨m, hm, .refl m⟩
  | @snoc tr t u c _ hst ih =>
    obtain ⟨m₁, hm₁, h₁⟩ := ih fun e he => hopen e (List.mem_append_left _ he)
    obtain ⟨m₂, hm₂, h₂⟩ := (exec_change hst.1).charged u hm₁ (hopen (t, c, u) (by simp))
    refine ⟨m₂, hm₂, h₂.symbol.trans h₁.symbol, ?_, fun h => h₂.nonneg (h₁.nonneg h)⟩
    rw [h₂.amount, h₁.amount, List.map_append, List.sum_append, List.map_singleton,
      List.sum_singleton]
    omega

/-- A request is paid once. -/
theorem run_sent_once {proposer : Name} {k : Nat} (h : Run Step b tr b')
    (hopen : ∀ e ∈ tr, ¬e.2.1.action.ClosesCoin proposer k) :
    (tr.map fun e => e.2.1.sentFor proposer k).sum ≤ 1 :=
  (h.restrict hopen).at_most_once (D := fun b => Paid b.takecoins proposer k)
    (fun _ _ _ hst hp => (exec_change hst.1.1).paid hp hst.2)
    (fun _ _ _ hst => (exec_change hst.1.1).sent_once proposer k)

/-- From its proposal and until it is closed, a motion holds what was proposed less what `agreecoin`
sent out of it, and is not overdrawn. A transfer is only sent out of a motion in section 1. A
request that is not closed is paid at most once. -/
theorem motion_accounted {b₁ : State} (hr : Run Step b₁ tr b') :
    (∀ c proposer title content quantity id, Step b c b₁ →
      c.action = .propose proposer title content quantity →
      availablePrimaryKey b.motions = .ok id → (∀ e ∈ tr, ¬e.2.1.action.ClosesMotion id) →
      ∃ m, b'.motions.find id = some m ∧ m.quantity.symbol = quantity.symbol ∧
        (tr.map (charge id)).sum + m.quantity.amount = quantity.amount ∧
        (0 ≤ quantity.amount → 0 ≤ m.quantity.amount)) ∧
    (∀ e ∈ tr, ∀ src dst x memo, .transfer src dst x memo ∈ e.2.1.effects →
      ∃ id m, chargedId e.1 e.2.1.action = some id ∧ e.1.motions.find id = some m ∧
        m.section = 1 ∧ x.symbol = m.quantity.symbol) ∧
    ∀ proposer k, (∀ e ∈ tr, ¬e.2.1.action.ClosesCoin proposer k) →
      (tr.map fun e => e.2.1.sentFor proposer k).sum ≤ 1 := by
  refine ⟨fun c proposer title content quantity id hst hc hid hopen => ?_,
    fun e he src dst x memo hx => ?_, fun proposer k hopen => run_sent_once hr hopen⟩
  · have hch := exec_change hst.1
    rw [hc] at hch
    obtain ⟨m₁, hm₁, rfl⟩ := hch.proposed hid
    obtain ⟨m, hm, hcharged⟩ := run_charged hm₁ hr hopen
    have hamount := hcharged.amount
    exact ⟨m, hm, hcharged.symbol, by omega, hcharged.nonneg⟩
  · exact (exec_change (hr.steps e he).1).transfer_passed hx

/-- A motion over 10 tokens that has paid a request for 6. -/
theorem motion_accounted_paid : ∃ tr m, Run Step proposed tr paid ∧
    paid.motions.find 0 = some m ∧ (tr.map (charge 0)).sum + m.quantity.amount = 100000 ∧
    0 ≤ m.quantity.amount ∧ m.quantity.amount = 40000 ∧
    (tr.map fun e => e.2.1.sentFor 1 0).sum ≤ 1 ∧
    ∃ id m, chargedId requested (.agreecoin 3 1 0 "") = some id ∧
      requested.motions.find id = some m ∧ m.section = 1 ∧ coreSymbol = m.quantity.symbol := by
  have hr : Run Step proposed _ paid := .snoc (.snoc (.snoc .nil passed_step) requested_step)
    paid_step
  obtain ⟨hsum, hpassed, honce⟩ := motion_accounted hr
  obtain ⟨m, hm, -, hsum, h0⟩ := hsum _ 1 "" "" ⟨100000, coreSymbol⟩ 0 proposed_step rfl rfl (by
    simp only [List.nil_append, List.cons_append, List.mem_cons, List.not_mem_nil, or_false]
    rintro e (rfl | rfl | rfl) ⟨memo, h⟩ <;> cases h)
  have honce := honce 1 0 (by
    simp only [List.nil_append, List.cons_append, List.mem_cons, List.not_mem_nil, or_false]
    rintro e (rfl | rfl | rfl) ⟨memo, h⟩ <;> cases h)
  have hpassed := hpassed _ (List.mem_append_right _ (List.mem_singleton.mpr rfl)) _ _ _ _
    (List.mem_singleton.mpr rfl)
  refine ⟨_, m, hr, hm, hsum, h0 (by decide), ?_, honce, hpassed⟩
  cases hm
  rfl

end Eosforce.Budget
