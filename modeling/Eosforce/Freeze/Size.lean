import Eosforce.Freeze.Run

/-!
# The counter of a freezed table

`freezed_size` is a `uint32_t` beside the `freezed` rows of a committer.

* `addAccounts_size`: the loop of `addfreezed` counts the rows that it adds, whatever names the list
  repeats.
* `Counted`, `freezed_size_counts`: each counter is the number of rows modulo `2 ^ 32`, in every
  state reached. No row is subtracted from a counter of zero while there are fewer rows than that.
* `freezed_size_wraps`: `2 ^ 32` rows are reached, with a counter of zero.
-/

namespace Eosforce.Freeze

open Fallible Keyed Runs

variable {env : Env} {s s' : State}

/-- Each counter is the number of rows modulo `2 ^ 32`; without a counter there are no rows. -/
def Counted (s : State) : Prop :=
  ∀ c, ((s.freezedstat.find c).getD {}).freezedSize = u32 (s.freezed.scope c).size

/-- The committer whose counter the action decrements. -/
def decremented (s : State) : Action → Option Name
  | .delfreezed committer _ _ => some committer
  | .actconfirmed _ => s.gfstate
  | _ => none

/-! ## One action -/

/-- The loop of `addfreezed` counts the rows that it adds. -/
theorem addAccounts_size (t : Table Name Nat) (l : List Name) :
    (addAccounts t l).1.size = t.size + (addAccounts t l).2 := by
  apply List.foldlRecOn (motive := fun r : Table Name Nat × Nat => r.1.size = t.size + r.2) l
    addAccount rfl
  intro r hr a _
  unfold addAccount
  by_cases ha : r.1.find a = none
  · rw [if_pos (by rw [ha]; rfl), Table.size_put_of_none _ ha, hr]
    rfl
  · rw [if_neg (by simpa using ha)]
    exact hr

theorem Counted.of_find (h : Counted s) {c : Name} {f : FreezedTableState}
    (hf : s.freezedstat.find c = some f) : f.freezedSize = u32 (s.freezed.scope c).size := by
  have hc := h c
  rwa [hf, Option.getD_some] at hc

/-- A stat row written with its table. -/
theorem Counted.put (h : Counted s) {c : Name} {f : FreezedTableState} {t : Table Name Nat}
    (hf : f.freezedSize = u32 t.size) (acts : Table Name Unit) :
    Counted { s with
      freezed := s.freezed.setScope c t
      freezedstat := s.freezedstat.put c f
      actaccounts := acts } := by
  intro c'
  show (((s.freezedstat.put c f).find c').getD {}).freezedSize =
    u32 ((s.freezed.setScope c t).scope c').size
  rw [Table.find_put, Scoped.scope_setScope]
  by_cases hc : c = c'
  · rw [if_pos hc, if_pos hc]
    exact hf
  · rw [if_neg hc, if_neg hc]
    exact h c'

/-- A stat row written with the counter that was there. -/
theorem Counted.put_stat (h : Counted s) {c : Name} {f f' : FreezedTableState}
    (hf : s.freezedstat.find c = some f) (hs : f'.freezedSize = f.freezedSize)
    (g : Option Name) :
    Counted { s with freezedstat := s.freezedstat.put c f', gfstate := g } := by
  intro c'
  show (((s.freezedstat.put c f').find c').getD {}).freezedSize = u32 (s.freezed.scope c').size
  rw [Table.find_put]
  by_cases hc : c = c'
  · subst hc
    rw [if_pos rfl, Option.getD_some, hs]
    exact h.of_find hf
  · rw [if_neg hc]
    exact h c'

/-- A counter after a row has been erased. -/
theorem Counted.erased (h : Counted s) {c a : Name} {f : FreezedTableState} {n : Nat}
    (hf : s.freezedstat.find c = some f) (ha : s.freezed.find c a = some n) :
    u32sub f.freezedSize 1 = u32 ((s.freezed.scope c).erase a).size := by
  have hsize := Table.size_erase_of_find ha
  have hc := h.of_find hf
  unfold u32sub u32OfInt u32 at *
  omega

/-- **Step lemma.** -/
theorem Change.counted {a : Action} (h : Change env s a s') (hs : Counted s) : Counted s' := by
  cases h with
  | @addfreezed c l memo hauth hact hst =>
    refine hs.put ?_ _
    have hc := hs c
    have hadd := addAccounts_size (s.freezed.scope c) l
    simp only
    unfold u32 at *
    omega
  | @delfreezed c a memo f n hact hf hst hn => exact hs.put (hs.erased hf hn) _
  | lock hact hf | unlock hauth hact hf | actfreezed hauth hact hf =>
    refine hs.put_stat hf ?_ _
    rfl
  | confirmact hauth hact => exact hs
  | @actconfirmed c a f n hauth hg hconf hf hn => exact hs.put (hs.erased hf hn) _

/-- The row that a decrement is about was there. -/
theorem Change.decremented {a : Action} (h : Change env s a s') {c : Name}
    (hc : decremented s a = some c) :
    ∃ f x n, s.freezedstat.find c = some f ∧ s.freezed.find c x = some n := by
  cases h with
  | addfreezed | lock | unlock | actfreezed | confirmact => cases hc
  | delfreezed hact hf hst hn =>
    cases hc
    exact ⟨_, _, _, hf, hn⟩
  | actconfirmed hauth hg hconf hf hn =>
    cases hg.symm.trans hc
    exact ⟨_, _, _, hf, hn⟩

/-! ## Runs -/

/-- Every state reached is counted. -/
theorem Reachable.counted (h : Reachable s) : Counted s := by
  obtain ⟨tr, h⟩ := h
  exact (h.inv (I := Counted) (fun c => rfl) fun _ _ _ ht hst => (exec_change hst.2).counted ht).1

/-- In every state that is reached, the counter of a committer is the number of its rows modulo
`2 ^ 32`. While there are fewer rows, it is the number itself, and no action that succeeds
decrements a counter of zero. -/
theorem freezed_size_counts (h : Reachable s) :
    (∀ c f, s.freezedstat.find c = some f →
      f.freezedSize = (s.freezed.scope c).size % 2 ^ 32 ∧
      ((s.freezed.scope c).size < 2 ^ 32 → f.freezedSize = (s.freezed.scope c).size)) ∧
    ∀ a s', Step s a s' → ∀ c, decremented s a.2 = some c → ∃ f, s.freezedstat.find c = some f ∧
      ((s.freezed.scope c).size < 2 ^ 32 → 0 < f.freezedSize) := by
  have hs := h.counted
  refine ⟨fun c f hf => ⟨hs.of_find hf, fun hlt => ?_⟩, fun a s' hst c hc => ?_⟩
  · rw [hs.of_find hf, u32_of_lt hlt]
  · obtain ⟨f, x, n, hf, hn⟩ := (exec_change hst.2).decremented hc
    refine ⟨f, hf, fun hlt => ?_⟩
    have hsize := Table.size_erase_of_find hn
    rw [hs.of_find hf, u32_of_lt hlt]
    omega

/-- Account 7 leaves a table of two accounts. -/
theorem freezed_size_counts_left : ∃ f, activated.freezedstat.find 5 = some f ∧
    f.freezedSize = (activated.freezed.scope 5).size ∧ 0 < f.freezedSize := by
  have hr : Reachable activated := ⟨_, .snoc confirmed_run activated_step⟩
  obtain ⟨hcount, hdec⟩ := freezed_size_counts hr
  obtain ⟨f, hf, hpos⟩ := hdec _ _ left_step 5 rfl
  exact ⟨f, hf, (hcount 5 f hf).2 (by decide), hpos (by decide)⟩

/-! ### A table of `2 ^ 32` accounts -/

/-- Committer 5 has `k` rows, of accounts up to `k`. -/
structure Filled (s : State) (k : Nat) : Prop where
  reachable : Reachable s
  gfstate : s.gfstate = none
  committing : Committing s 5
  find_none : ∀ a > k, (s.freezed.scope 5).find a = none
  size : (s.freezed.scope 5).size = k
  stat : 0 < k → ∃ f, s.freezedstat.find 5 = some f

/-- One more account is listed. -/
theorem Filled.add {k : Nat} (h : Filled s k) : ∃ s', Filled s' (k + 1) := by
  have hadd : addAccounts (s.freezed.scope 5) [k + 1] = ((s.freezed.scope 5).put (k + 1) 0, 1) := by
    show addAccount (s.freezed.scope 5, 0) (k + 1) = _
    unfold addAccount
    rw [if_pos (by rw [h.find_none _ (Nat.lt_succ_self k)]; rfl)]
  have hexec : ∃ s', exec (Env.of 5 1) s (.addfreezed 5 [k + 1] "") = .ok s' ∧
      s'.gfstate = none ∧ Committing s' 5 ∧
      s'.freezed.scope 5 = (s.freezed.scope 5).put (k + 1) 0 ∧
      ∃ f, s'.freezedstat.find 5 = some f := by
    simp only [exec, addfreezed, requireAuth, bind_eq_ok, check_eq_ok, pure_eq_ok, exists_const]
    refine ⟨_, ⟨?_, ?_, ?_, h.committing, rfl⟩, h.gfstate, ?_, ?_, _, Table.find_put_self _ _ _⟩
    · exact List.mem_singleton.mpr rfl
    · simp
    · simp [NotActivited, h.gfstate]
    · intro f hf
      rw [Table.find_put_self] at hf
      cases hf
      cases hst : s.freezedstat.find 5 with
      | none => rfl
      | some f => exact h.committing f hst
    · rw [hadd, Scoped.scope_setScope_self]
  obtain ⟨s', hexec, hg, hc, hscope, hstat⟩ := hexec
  obtain ⟨tr, hr⟩ := h.reachable
  have hauth : 0 ∉ (Env.of 5 1).auths := by decide
  have hst : Step s (Env.of 5 1, .addfreezed 5 [k + 1] "") s' := ⟨hauth, hexec⟩
  refine ⟨s', ⟨_, .snoc hr hst⟩, hg, hc, fun a ha => ?_, ?_, fun _ => hstat⟩
  · rw [hscope, Table.find_put_ne _ _ (show k + 1 ≠ a by omega)]
    exact h.find_none a (by omega)
  · rw [hscope, Table.size_put_of_none _ (h.find_none _ (Nat.lt_succ_self k)), h.size]

/-- Accounts are listed one by one. -/
theorem filled (k : Nat) : ∃ s, Filled s k := by
  induction k with
  | zero => exact ⟨{}, ⟨_, .nil⟩, rfl, nofun, fun _ _ => rfl, rfl, nofun⟩
  | succ k ih =>
    obtain ⟨s, hs⟩ := ih
    exact hs.add

/-- After `2 ^ 32` accounts the counter is zero. -/
theorem freezed_size_wraps : ¬∀ s, Reachable s → ∀ c f, s.freezedstat.find c = some f →
    f.freezedSize = (s.freezed.scope c).size := by
  intro hall
  obtain ⟨s, hs⟩ := filled (2 ^ 32)
  obtain ⟨f, hf⟩ := hs.stat (by omega)
  have hc := hs.reachable.counted.of_find hf
  rw [hall s hs.reachable 5 f hf, hs.size] at hc
  exact absurd hc (by decide)

end Eosforce.Freeze
