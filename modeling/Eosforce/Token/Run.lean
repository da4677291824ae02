import Eosforce.Lib.Run
import Eosforce.Token.Supply

/-!
# Runs of the token contract

A transaction is a sequence of actions with the inline transfers that they send; it leaves no trace
when one of them fails. Contracts that are notified of a transfer may send actions of their own, so
an action may come between an `issue` and its transfer.

* `Chain`, `Event`, `Chain.exec`: the contract in a transaction.
* `Step`, `Reachable`: the runs. The states inside a transaction are reached too.
* `supply_accounted`: in every state reached, the supply of each token is the sum of its balances.
-/

namespace Eosforce.Token

open Fallible Keyed Runs

/-- The contract in a transaction. -/
structure Chain where
  /-- The tables before the transaction. -/
  committed : State := {}
  tables : State := {}
  /-- The inline transfers to run. -/
  pending : List Effect := []

inductive Event where
  /-- An action of the transaction, or one that a notified contract sends. -/
  | act (ctx : Ctx) (a : Action)
  /-- The next inline transfer. -/
  | inline (ctx : Ctx)
  /-- The transaction fails. -/
  | abort
  /-- The transaction ends. -/
  | commit

/-- The notifications do not change the tables. -/
def inlines (fx : List Effect) : List Effect :=
  fx.filter fun
    | .transfer .. => true
    | _ => false

/-- An action with what it sends: the inline actions of an action run before those sent earlier. -/
def Chain.run (c : Chain) (ctx : Ctx) (a : Action) : Except String Chain := do
  let (tables, fx) ← exec ctx c.tables a
  pure { c with tables, pending := inlines fx ++ c.pending }

/-- What an event does. -/
def Chain.exec (c : Chain) : Event → Except String Chain
  | .act ctx a => c.run ctx a
  | .inline ctx =>
    match c.pending with
    | .transfer src dst quantity memo :: pending =>
      { c with pending }.run { ctx with auths := [src] } (.transfer src dst quantity memo)
    | _ => .error "no inline action"
  | .abort => pure { c with tables := c.committed, pending := [] }
  | .commit => do
    check (c.pending = []) "an inline action is left"
    pure { c with committed := c.tables }

def Step (c : Chain) (e : Event) (c' : Chain) : Prop := c.exec e = .ok c'

/-- The states that events lead to, from empty tables. -/
def Reachable (c : Chain) : Prop := ∃ tr, Run Step {} tr c

/-! ## The invariant -/

/-- The tables are backed, and so are those that a failing transaction leaves. -/
structure Chain.Backed (c : Chain) : Prop where
  committed : Token.Backed c.committed
  tables : Token.Backed c.tables

theorem backed_empty : Backed {} where
  stat := Table.all_empty _
  balances := Scoped.all_empty _

theorem Chain.run_backed {c c' : Chain} {ctx : Ctx} {a : Action} (hc : c.Backed)
    (h : c.run ctx a = .ok c') : c'.Backed := by
  simp only [Chain.run, bind_eq_ok, pure_eq_ok, Prod.exists] at h
  obtain ⟨tables, fx, hexec, rfl⟩ := h
  exact ⟨hc.committed, (exec_change hexec).backed hc.tables⟩

/-- **Step lemma.** -/
theorem Step.backed {c c' : Chain} {e : Event} (hc : c.Backed) (h : Step c e c') : c'.Backed := by
  unfold Step Chain.exec at h
  cases e with
  | act ctx a => exact Chain.run_backed hc h
  | inline ctx =>
    simp only at h
    split at h
    · rename_i pending _
      exact Chain.run_backed (c := { c with pending }) ⟨hc.committed, hc.tables⟩ h
    · cases h
  | abort =>
    cases pure_eq_ok.mp h
    exact ⟨hc.committed, hc.committed⟩
  | commit =>
    simp only [bind_eq_ok, check_eq_ok, pure_eq_ok, exists_const] at h
    obtain ⟨-, rfl⟩ := h
    exact ⟨hc.tables, hc.tables⟩

theorem Reachable.backed {c : Chain} (h : Reachable c) : c.Backed := by
  obtain ⟨tr, h⟩ := h
  exact (h.inv ⟨backed_empty, backed_empty⟩ fun _ _ _ => Step.backed).1

/-! ## The supply -/

/-- In every state reached, inside a transaction or not, the supply of each token is the sum of its
balances and between zero and the maximum. Its balances are not negative and have its symbol, and
there are no balances but those of tokens. -/
theorem supply_accounted {c : Chain} (h : Reachable c) :
    (∀ code st, c.tables.stat.find code = some st →
      held c.tables.accounts code = st.supply.amount ∧
      0 ≤ st.supply.amount ∧ st.supply.amount ≤ st.maxSupply.amount ∧
      st.supply.symbol.code = code ∧ st.maxSupply.symbol = st.supply.symbol ∧
      ∀ owner b, c.tables.accounts.find owner code = some b →
        0 ≤ b.amount ∧ b.symbol = st.supply.symbol) ∧
    ∀ owner code b, c.tables.accounts.find owner code = some b →
      ∃ st, c.tables.stat.find code = some st := by
  have hs := h.backed.tables
  refine ⟨fun code st hst => ?_, fun owner code b hb => ?_⟩
  · have hstat := hs.stat code st hst
    refine ⟨hstat.supply, hs.supply_nonneg hst, hstat.le_max, hstat.code, hstat.maxSymbol,
      fun owner b hb => ?_⟩
    obtain ⟨hnonneg, hsym⟩ := hs.balances owner code b hb
    rw [symbolOf_of_find hst, Option.some.injEq] at hsym
    exact ⟨hnonneg, hsym.symm⟩
  · obtain ⟨st, hst, -⟩ := Option.map_eq_some_iff.mp (hs.balances owner code b hb).2
    exact ⟨st, hst⟩

/-- The token of the run below. -/
def abc : Symbol := ⟨symbolCode "ABC", 4⟩

/-- Account 5 has created a token. -/
def created : Chain where
  tables := { stat := (∅ : Table Nat CurrencyStats).put abc.code ⟨⟨0, abc⟩, ⟨1000, abc⟩, 5⟩ }

/-- It issues 100 tokens to account 6: the transfer has still to run. -/
def issuing : Chain where
  tables :=
    { stat := (∅ : Table Nat CurrencyStats).put abc.code ⟨⟨100, abc⟩, ⟨1000, abc⟩, 5⟩
      accounts := (∅ : Scoped Name Nat Asset).put 5 abc.code ⟨100, abc⟩ }
  pending := [.transfer 5 6 ⟨100, abc⟩ ""]

theorem issuing_reachable : Reachable issuing := by
  have hcreate : Step {} (.act (Ctx.of 5) (.create 5 ⟨1000, abc⟩)) created := rfl
  have hissue : Step created (.act (Ctx.of 5) (.issue 6 ⟨100, abc⟩ "")) issuing := rfl
  exact ⟨_, .snoc (.snoc .nil hcreate) hissue⟩

theorem supply_accounted_issuing :
    held issuing.tables.accounts abc.code = 100 ∧ ∀ owner b,
      issuing.tables.accounts.find owner abc.code = some b → 0 ≤ b.amount ∧ b.symbol = abc := by
  obtain ⟨hheld, -, -, -, -, hbal⟩ := (supply_accounted issuing_reachable).1 abc.code _ rfl
  exact ⟨hheld, hbal⟩

end Eosforce.Token
