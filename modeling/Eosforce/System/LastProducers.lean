import Eosforce.System.Restore

/-!
# The last producers

The row `lastproducer` is a ring of 120 slots. Its first write makes the row, with the first slot
written; each later one writes the slot of its index.

* `IndexOf`, `Run.indexOf`: the index is the number of counted blocks, modulo the size.
* `RefinesLast`: the slots hold the last producers, the newest before the index.
* `lastproducer_refines`: the row of every run refines its counted blocks, so that `removepunish`
  finds those that made one of the last 120.
-/

namespace Eosforce.System

open Runs Rings

/-! ## The index -/

/-- The index of the row is that of the slot after the last written one. -/
def IndexOf (tr : Trace) (row : Option LastProducer) : Prop :=
  ∀ r ∈ row, r.nextIndex = (countedBlocks tr).length % maxLastProducerSize

theorem countedBlocks_append (tr tr' : Trace) :
    countedBlocks (tr ++ tr') = countedBlocks tr ++ countedBlocks tr' := List.filterMap_append

theorem countedBlocks_single {e : Point × (Env × Action) × Point} :
    countedBlocks [e] = (countedBlock e.2.1).toList := by
  cases he : countedBlock e.2.1 <;> simp [countedBlocks, he]

/-- **Step lemma.** A counted block moves the index by one slot. -/
theorem IndexOf.step {tr : Trace} {p q : Point} {a : Env × Action}
    (hring : RingOf tr p.state.lastproducer) (hI : IndexOf tr p.state.lastproducer)
    (h : Step p a q) : IndexOf (tr ++ [(p, a, q)]) q.state.lastproducer := by
  obtain ⟨-, -, fx, hx⟩ := h
  rw [exec_lastproducer hx]
  unfold IndexOf
  rw [countedBlocks_append, countedBlocks_single]
  cases hc : countedBlock (a.1, a.2) with
  | none =>
    rw [Option.toList_none, List.append_nil]
    exact hI
  | some b =>
    rw [Option.toList_some, List.length_append, List.length_singleton]
    intro r hr
    unfold recordProducer at hr
    cases hrow : p.state.lastproducer with
    | none =>
      rw [hrow] at hr hring
      obtain rfl := Option.some.inj hr
      have hnil : countedBlocks tr = [] := hring
      rw [hnil]
      rfl
    | some r₀ =>
      rw [hrow] at hr
      obtain rfl := Option.some.inj hr
      have hi := hI r₀ hrow
      have hsize : maxLastProducerSize = 120 := rfl
      show u32 (r₀.nextIndex + 1) % maxLastProducerSize = _
      rw [hsize] at hi ⊢
      rw [u32_of_lt (by omega)]
      omega

/-- In a run that starts without the row, the index counts the blocks. -/
theorem Run.indexOf {tr : Trace} {p q : Point} (hp : p.state.lastproducer = none)
    (h : Run Step p tr q) : IndexOf tr q.state.lastproducer := by
  refine (h.history (I := fun tr t => RingOf tr t.state.lastproducer ∧
    IndexOf tr t.state.lastproducer) ⟨?_, ?_⟩ fun _ _ _ _ hI hs =>
      ⟨hI.1.step hs, IndexOf.step hI.1 hI.2 hs⟩).2
  · rw [hp]
    exact rfl
  · rw [hp]
    exact nofun

/-! ## The slots -/

/-- The row holds the last of the blocks: the index is one of its slots, and the entry before it is
the newest. -/
structure RefinesLast (blocks : List Name) (r : LastProducer) : Prop where
  size : r.producers.length = maxLastProducerSize
  index : r.nextIndex < maxLastProducerSize
  entries : ∀ k < min blocks.length maxLastProducerSize,
    r.producers[(blocks.length - 1 - k) % maxLastProducerSize]? = blocks.reverse[k]?

theorem RingOf.refinesLast {tr : Trace} {r : LastProducer} (hring : RingOf tr (some r))
    (hindex : IndexOf tr (some r)) : RefinesLast (countedBlocks tr) r := by
  obtain ⟨hlen, hring⟩ := hring
  have hi : r.nextIndex = (countedBlocks tr).length % maxLastProducerSize := hindex r rfl
  have hsize : maxLastProducerSize = 120 := rfl
  refine ⟨hlen, hlen ▸ hring.slot, fun k hk => ?_⟩
  have hnew := hring.newest (show k < r.producers.length by omega)
  have hslot : (r.nextIndex + r.producers.length - 1 - k) % r.producers.length =
      ((countedBlocks tr).length - 1 - k) % maxLastProducerSize := by
    rw [hi, hlen, hsize]
    rw [hsize] at hk
    omega
  rw [hslot] at hnew
  rw [hnew, ringHistory, List.reverse_append]
  exact List.getElem?_append_left (by rw [List.length_reverse]; omega)

/-- In every run that starts without the row, once a block is counted: the row holds the last 120
producers, the index is always one of its slots, and a bp with a name passes the membership test of
`removepunish` exactly if it made one of the last 120 counted blocks. -/
theorem lastproducer_refines {tr : Trace} {p q : Point} (hp : p.state.lastproducer = none)
    (h : Run Step p tr q) (hn : 1 ≤ (countedBlocks tr).length) :
    ∃ r, q.state.lastproducer = some r ∧ RefinesLast (countedBlocks tr) r ∧ ∀ b, b ≠ 0 →
      (b ∈ r.producers ↔ b ∈ recent maxLastProducerSize (countedBlocks tr)) ∧
      ∀ env : Env, b ∈ env.auths → statusOf q.state.bpmonitor b = .lackPledge →
        ((∃ s', removepunish env q.state b = .ok s') ↔
          b ∈ recent maxLastProducerSize (countedBlocks tr)) := by
  have hring := Run.ringOf_of_none hp h
  have hindex := Run.indexOf hp h
  cases hrow : q.state.lastproducer with
  | none =>
    rw [hrow] at hring
    have hnil : countedBlocks tr = [] := hring
    rw [hnil] at hn
    cases hn
  | some r =>
    rw [hrow] at hring hindex
    refine ⟨r, rfl, hring.refinesLast hindex, fun b hb => ?_⟩
    have hmem : b ∈ r.producers ↔ b ∈ recent maxLastProducerSize (countedBlocks tr) := by
      rw [hring.mem_iff, lastBlocks, ringHistory]
      exact mem_recent_replicate hb _
    refine ⟨hmem, fun env hauth hst => ?_⟩
    rw [removepunish_ok_iff, ← hmem]
    constructor
    · rintro ⟨-, -, r', hr', hin⟩
      cases hrow.symm.trans hr'
      exact hin
    · exact fun hin => ⟨hauth, hst, r, hrow, hin⟩

/-- The first two blocks of `drained`, of the producers 1 and 0. -/
theorem lastproducer_refines_drained : ∃ r, (drained 2).state.lastproducer = some r ∧
    RefinesLast [1, 0] r ∧ 1 ∈ r.producers := by
  have hok : ∀ n < 2, (drained n).height ≤ (Env.block (n + 1)).currentBlockNum ∧
      (exec (Env.block (n + 1)) (drained n).state
        (.onblock (if n = 0 then 1 else 0) 1)).isOk = true := by decide +kernel
  have hrun : Run Step (drained 0) _ (drained 2) :=
    .snoc (.snoc .nil (Point.next_step _ _ _ (hok 0 (by decide)).1 (hok 0 (by decide)).2))
      (Point.next_step _ _ _ (hok 1 (by decide)).1 (hok 1 (by decide)).2)
  obtain ⟨r, hr, href, hmem⟩ := lastproducer_refines rfl hrun (Nat.le_add_left 1 1)
  exact ⟨r, hr, href, (hmem 1 (by decide)).1.mpr (by decide)⟩

end Eosforce.System
