import Eosforce.Lib.Run

/-!
# Transactions

A machine that makes its steps inside transactions: what a transaction did is kept when it ends and
dropped when it fails.

* `Txn`, `TxnStep`: the states and the events of such a machine, over the steps of another.
* `Log`, `log`: the calls of the transactions that ended, and those of the one that runs.
* `Run.serial`: the state kept is the one that the logged calls lead to, made one after another with
  no transactions; failed transactions leave no trace.
-/

namespace Runs

variable {σ α : Type} {step : σ → α → σ → Prop}

/-- The state that a failing transaction leaves, and the state inside the transaction. -/
structure Txn (σ : Type) where
  committed : σ
  current : σ

inductive TxnEvent (α : Type) where
  | call (a : α)
  | abort
  | commit

inductive TxnStep (step : σ → α → σ → Prop) (t : Txn σ) : TxnEvent α → Txn σ → Prop
  | call {a : α} {s : σ} : step t.current a s → TxnStep step t (.call a) ⟨t.committed, s⟩
  | abort : TxnStep step t .abort ⟨t.committed, t.committed⟩
  | commit : TxnStep step t .commit ⟨t.current, t.current⟩

/-- The calls of the transactions that ended, and those of the one that runs. -/
structure Log (α : Type) where
  committed : List α := []
  current : List α := []

def Log.add (l : Log α) : TxnEvent α → Log α
  | .call a => { l with current := l.current ++ [a] }
  | .abort => { l with current := [] }
  | .commit => { committed := l.committed ++ l.current }

def log (events : List (TxnEvent α)) : Log α := events.foldl Log.add {}

theorem log_snoc (events : List (TxnEvent α)) (e : TxnEvent α) :
    log (events ++ [e]) = (log events).add e := by
  rw [log, List.foldl_append]
  rfl

/-- Only calls that were made are logged. -/
theorem mem_log {events : List (TxnEvent α)} {a : α}
    (h : a ∈ (log events).committed ∨ a ∈ (log events).current) : .call a ∈ events := by
  induction events using List.reverseRecOn with
  | nil => rcases h with h | h <;> cases h
  | append_singleton events e ih =>
    rw [log_snoc] at h
    apply List.mem_append.mpr
    cases e with
    | call b =>
      rcases h with h | h
      · exact .inl (ih (.inl h))
      · rcases List.mem_append.mp h with h | h
        · exact .inl (ih (.inr h))
        · rw [List.mem_singleton.mp h]
          exact .inr (List.mem_singleton.mpr rfl)
    | abort =>
      rcases h with h | h
      · exact .inl (ih (.inl h))
      · cases h
    | commit =>
      rcases h with h | h
      · exact .inl (ih (List.mem_append.mp h))
      · cases h

/-- **Serial runs.** The logged calls lead to the state kept, and from there the calls of the
transaction that runs lead to the state inside it. -/
theorem Run.serial {s : σ} {t : Txn σ} {tr : List (Txn σ × TxnEvent α × Txn σ)}
    (h : Run (TxnStep step) ⟨s, s⟩ tr t) :
    (∃ l, Run step s l t.committed ∧ labels l = (log (labels tr)).committed) ∧
      ∃ l, Run step t.committed l t.current ∧ labels l = (log (labels tr)).current := by
  induction h with
  | nil => exact ⟨⟨[], .nil, rfl⟩, [], .nil, rfl⟩
  | @snoc tr t u e _ hst ih =>
    obtain ⟨⟨l, hl, hlog⟩, l', hl', hlog'⟩ := ih
    rw [labels_append, show labels [(t, e, u)] = [e] from rfl, log_snoc]
    cases hst with
    | call hs =>
      refine ⟨⟨l, hl, hlog⟩, _, hl'.snoc hs, ?_⟩
      rw [labels_append, hlog']
      rfl
    | abort => exact ⟨⟨l, hl, hlog⟩, [], .nil, rfl⟩
    | commit =>
      refine ⟨⟨_, hl.append hl', ?_⟩, [], .nil, rfl⟩
      rw [labels_append, hlog, hlog']
      rfl

/-- **Simulation.** A run is a run of another machine, where each step is one of its steps. -/
theorem Run.simulate {ρ β : Type} {step' : ρ → β → ρ → Prop} (f : σ → ρ) (g : σ → α → β)
    (hstep : ∀ t a u, step t a u → step' (f t) (g t a) (f u)) {s t : σ}
    {tr : List (σ × α × σ)} (h : Run step s tr t) :
    Run step' (f s) (tr.map fun e => (f e.1, g e.1 e.2.1, f e.2.2)) (f t) := by
  induction h with
  | nil => exact .nil
  | snoc _ hst ih =>
    rw [List.map_append, List.map_singleton]
    exact ih.snoc (hstep _ _ _ hst)

end Runs
