import Eosforce.Freeze.Run

/-!
# The edits of a freezed table

* `Action.edit`: an action adds an account to the table of a committer, or deletes it.
* `listed_history`: until its table is active, a committer's table lists the accounts that the last
  edit has added; only the committer edits it.
-/

namespace Eosforce.Freeze

open Fallible Keyed Runs

variable {env : Env} {s s' : State}

/-- Whether the action adds (`true`) or deletes (`false`) the account in the committer's table. -/
def Action.edit (c a : Name) : Action → Option Bool
  | .addfreezed c' l _ => if c' = c ∧ a ∈ l then some true else none
  | .delfreezed c' a' _ => if c' = c ∧ a' = a then some false else none
  | _ => none

/-- The account is in the committer's table. -/
def State.listed (s : State) (c a : Name) : Bool := (s.freezed.find c a).isSome

/-- The edits of an account, in the order of the run. -/
def edits (c a : Name) (tr : Trace) : List Bool := (labels tr).filterMap fun x => x.2.edit c a

theorem addAccount_isSome (r : Table Name Nat × Nat) (f a : Name) :
    ((addAccount r f).1.find a).isSome = (decide (f = a) || (r.1.find a).isSome) := by
  unfold addAccount
  split
  · rw [Table.find_put]
    by_cases h : f = a <;> simp [h]
  · rename_i h
    by_cases hfa : f = a
    · subst hfa
      simpa [Option.isSome_iff_ne_none] using h
    · simp [hfa]

/-- The table that `addfreezed` makes lists what it listed and the accounts. -/
theorem addAccounts_isSome (t : Table Name Nat) (l : List Name) (a : Name) :
    ((addAccounts t l).1.find a).isSome = (decide (a ∈ l) || (t.find a).isSome) := by
  unfold addAccounts
  suffices hsuf : ∀ r : Table Name Nat × Nat,
      ((l.foldl addAccount r).1.find a).isSome = (decide (a ∈ l) || (r.1.find a).isSome) from
    hsuf (t, 0)
  induction l with
  | nil => simp
  | cons f l ih =>
    intro r
    rw [List.foldl_cons, ih, addAccount_isSome, ← Bool.or_assoc]
    congr 1
    by_cases h : f = a
    · simp [h]
    · simp [h, Ne.symm h]

/-- The table of a committer stays the active one. -/
theorem Change.gfstate {a : Action} (h : Change env s a s') (hs : Sound s) {c : Name}
    (hg : s.gfstate = some c) : s'.gfstate = some c := by
  cases h with
  | actfreezed _ hact _ _ =>
    rw [hs.notActivited_iff.mp hact] at hg
    cases hg
  | _ => exact hg

/-- **Step lemma.** A committer whose table is not active lists an account as the edit says, or else
as before. -/
theorem Change.listed {x : Action} (h : Change env s x s') {c : Name} (hg : s'.gfstate ≠ some c)
    (a : Name) : s'.listed c a = (x.edit c a).getD (s.listed c a) := by
  unfold State.listed
  cases h with
  | @addfreezed c' l memo _ _ _ =>
    simp only [Action.edit, Scoped.find_setScope]
    by_cases hc : c' = c
    · subst hc
      rw [if_pos rfl, addAccounts_isSome]
      by_cases ha : a ∈ l
      · simp [ha]
      · simp [ha, Scoped.find]
    · simp [hc]
  | @delfreezed c' a' memo f n _ _ _ _ =>
    simp only [Action.edit, Scoped.find_erase]
    by_cases hk : c' = c ∧ a' = a
    · simp [hk]
    · simp [hk]
  | @actconfirmed c' a' f n _ hg' _ _ _ =>
    -- the account leaves the active table, which is not this one
    have hc : c' ≠ c := fun e => hg (e ▸ hg')
    simp [Action.edit, Scoped.find_erase, hc]
  | _ => rfl

theorem listed_of_run {t : State} {tr : Trace} (h : Run Step s tr t) (hs : Sound s) {c : Name}
    (hg : t.gfstate ≠ some c) (a : Name) :
    t.listed c a = (edits c a tr).getLast?.getD (s.listed c a) := by
  suffices hsuf : Sound t ∧ (t.gfstate ≠ some c →
      t.listed c a = (edits c a tr).getLast?.getD (s.listed c a)) from hsuf.2 hg
  clear hg
  induction h with
  | nil => exact ⟨hs, fun _ => rfl⟩
  | @snoc tr t u x _ hst ih =>
    obtain ⟨ht, ih⟩ := ih
    refine ⟨hst.sound ht, fun hg => ?_⟩
    have hc := exec_change hst.2
    rw [hc.listed hg a, ih fun e => hg (hc.gfstate ht e)]
    unfold edits
    rw [labels_append, List.filterMap_append]
    show _ = (_ ++ [x].filterMap _).getLast?.getD _
    rw [List.filterMap_cons]
    cases hx : x.2.edit c a with
    | none => simp
    | some b => simp

/-- An edit is signed by the committer. -/
theorem edit_auth {x : Action} {c a : Name} {b : Bool} (h : exec env s x = .ok s')
    (hx : x.edit c a = some b) : c ∈ env.auths := by
  cases x with
  | addfreezed c' l memo =>
    simp only [exec, addfreezed, requireAuth, bind_eq_ok, check_eq_ok, exists_const] at h
    simp only [Action.edit] at hx
    split at hx
    · rename_i hc
      exact hc.1 ▸ h.1
    · cases hx
  | delfreezed c' a' memo =>
    simp only [exec, delfreezed, requireAuth, bind_eq_ok, check_eq_ok, exists_const] at h
    simp only [Action.edit] at hx
    split at hx
    · rename_i hc
      exact hc.1 ▸ h.1
    · cases hx
  | _ => cases hx

/-- In every run, whatever other committers do in between, a table that is not active lists the
accounts of which the last edit was an addition, and its committer has signed each edit. -/
theorem listed_history {t : State} {tr : Trace} (h : Run Step {} tr t) {c : Name}
    (hg : t.gfstate ≠ some c) (a : Name) :
    ((t.freezed.find c a).isSome = true ↔ (edits c a tr).getLast? = some true) ∧
      ∀ e ∈ tr, ∀ b, e.2.1.2.edit c a = some b → c ∈ e.2.1.1.auths := by
  refine ⟨?_, fun e he b hb => edit_auth (h.steps e he).2 hb⟩
  have hl := listed_of_run h sound_empty hg a
  unfold State.listed at hl
  rw [hl]
  cases (edits c a tr).getLast? with
  | none => simp
  | some b => simp

theorem listed_history_locked :
    ((locked.freezed.find 5 7).isSome = true ↔ (edits 5 7
      [({}, (Env.of 5 1, .addfreezed 5 [7, 8] ""), added),
        (added, (Env.of 5 2, .lockfreezed 5 true), locked)]).getLast? = some true) ∧
      ∀ e ∈ ([({}, (Env.of 5 1, .addfreezed 5 [7, 8] ""), added),
        (added, (Env.of 5 2, .lockfreezed 5 true), locked)] : Trace),
        ∀ b, e.2.1.2.edit 5 7 = some b → 5 ∈ e.2.1.1.auths :=
  listed_history locked_run (by decide) 7

end Eosforce.Freeze
