import Eosforce.Freeze.Actions
import Eosforce.Lib.Run

/-!
# Runs of the freeze contract

* `Change`, `exec_change`: what an action does to the tables.
* `Step`, `Trace`: the runs of the contract.
* `Sound`: at most one table is active, and it is the one of `gfstate`.
-/

namespace Eosforce.Freeze

open Fallible Keyed Runs

variable {env : Env} {s s' : State}

/-- What an action does, and what it found. -/
inductive Change (env : Env) (s : State) : Action → State → Prop
  | addfreezed {c : Name} {l : List Name} {memo : String} :
    c ∈ env.auths → NotActivited s → Committing s c →
    Change env s (.addfreezed c l memo)
      { s with
        freezed := s.freezed.setScope c (addAccounts (s.freezed.scope c) l).1
        freezedstat := s.freezedstat.put c { (s.freezedstat.find c).getD {} with
          lastCommitBlockNum := env.currentBlockNum
          freezedSize := u32 (((s.freezedstat.find c).getD {}).freezedSize +
            (addAccounts (s.freezed.scope c) l).2) } }
  | delfreezed {c a : Name} {memo : String} {f : FreezedTableState} {n : Nat} :
    NotActivited s → s.freezedstat.find c = some f → f.state = .committing →
    s.freezed.find c a = some n →
    Change env s (.delfreezed c a memo)
      { s with
        freezed := s.freezed.erase c a
        freezedstat := s.freezedstat.put c { f with
          lastCommitBlockNum := env.currentBlockNum
          freezedSize := u32sub f.freezedSize 1 } }
  | lock {c : Name} {f : FreezedTableState} :
    NotActivited s → s.freezedstat.find c = some f → f.state = .committing →
    Change env s (.lockfreezed c true)
      { s with freezedstat := s.freezedstat.put c { f with
          state := .locked
          lockedBlockNum := env.currentBlockNum } }
  | unlock {c : Name} {f : FreezedTableState} :
    systemAccount ∈ env.auths → NotActivited s → s.freezedstat.find c = some f → f.state = .locked →
    Change env s (.lockfreezed c false)
      { s with freezedstat := s.freezedstat.put c { f with
          state := .committing
          lockedBlockNum := env.currentBlockNum } }
  | actfreezed {c : Name} {f : FreezedTableState} :
    systemAccount ∈ env.auths → NotActivited s → s.freezedstat.find c = some f → f.state = .locked →
    Change env s (.actfreezed c)
      { s with
        freezedstat := s.freezedstat.put c { f with
          state := .actived
          activedBlockNum := env.currentBlockNum }
        gfstate := some c }
  | confirmact {a : Name} :
    a ∈ env.auths → NotActivited s →
    Change env s (.confirmact a) { s with actaccounts := s.actaccounts.put a () }
  | actconfirmed {c a : Name} {f : FreezedTableState} {n : Nat} :
    a ∈ env.auths → s.gfstate = some c → s.actaccounts.find a = some () →
    s.freezedstat.find c = some f → s.freezed.find c a = some n →
    Change env s (.actconfirmed a)
      { s with
        actaccounts := s.actaccounts.erase a
        freezed := s.freezed.erase c a
        freezedstat := s.freezedstat.put c { f with freezedSize := u32sub f.freezedSize 1 } }

theorem lockfreezed_change {c : Name} {isLocked : Bool} (h : lockfreezed env s c isLocked = .ok s') :
    Change env s (.lockfreezed c isLocked) s' := by
  simp only [lockfreezed, requireAuth, bind_eq_ok, check_eq_ok, fetch_eq_ok, pure_eq_ok,
    exists_const] at h
  obtain ⟨hauth, hact, f, hf, hna, hnb, hch, rfl⟩ := h
  cases isLocked with
  | true =>
    refine .lock hact hf ?_
    simpa using hch
  | false =>
    refine .unlock hauth hact hf ?_
    cases hst : f.state with
    | locked => rfl
    | committing => exact absurd hst (by simpa using hch)
    | actived => exact absurd hst hna
    | banned => exact absurd hst hnb

/-- A successful action is such a change. -/
theorem exec_change {a : Action} (h : exec env s a = .ok s') : Change env s a s' := by
  cases a with
  | addfreezed c l memo =>
    simp only [exec, addfreezed, requireAuth, bind_eq_ok, check_eq_ok, pure_eq_ok,
      exists_const] at h
    obtain ⟨hauth, -, hact, hc, rfl⟩ := h
    exact .addfreezed hauth hact hc
  | delfreezed c a memo =>
    simp only [exec, delfreezed, requireAuth, bind_eq_ok, check_eq_ok, fetch_eq_ok, pure_eq_ok,
      exists_const, Option.isSome_iff_exists] at h
    obtain ⟨-, hact, hc, ⟨n, hn⟩, f, hf, rfl⟩ := h
    exact .delfreezed hact hf (hc f hf) hn
  | lockfreezed c isLocked => exact lockfreezed_change h
  | actfreezed c =>
    simp only [exec, actfreezed, requireAuth, bind_eq_ok, check_eq_ok, fetch_eq_ok, pure_eq_ok,
      exists_const] at h
    obtain ⟨hauth, hact, f, hf, hst, rfl⟩ := h
    exact .actfreezed hauth hact hf hst
  | confirmact a =>
    simp only [exec, confirmact, requireAuth, bind_eq_ok, check_eq_ok, pure_eq_ok,
      exists_const] at h
    obtain ⟨hauth, hact, -, rfl⟩ := h
    exact .confirmact hauth hact
  | actconfirmed a =>
    simp only [exec, actconfirmed, requireAuth, bind_eq_ok, check_eq_ok, fetch_eq_ok, pure_eq_ok,
      exists_const, Option.isSome_iff_exists] at h
    obtain ⟨hauth, c, hc, -, ⟨⟨⟩, ha⟩, f, hf, ⟨n, hn⟩, rfl⟩ := h
    exact .actconfirmed hauth hc ha hf hn

/-! ## Runs -/

/-- An action, which no account of the empty name signs. -/
def Step (s : State) (a : Env × Action) (s' : State) : Prop :=
  0 ∉ a.1.auths ∧ exec a.1 s a.2 = .ok s'

/-- The steps of a run with the states around them. -/
abbrev Trace := List (State × (Env × Action) × State)

/-- A state that the actions lead to from empty tables. -/
def Reachable (s : State) : Prop := ∃ tr, Run Step {} tr s

/-- No committer has the empty name, the active table is the one of `gfstate`, and every account
is frozen for ever. -/
structure Sound (s : State) : Prop where
  named : s.freezedstat.find 0 = none
  actived : ∀ k f, s.freezedstat.find k = some f → (f.state = .actived ↔ s.gfstate = some k)
  committer : ∀ c, s.gfstate = some c → ∃ f, s.freezedstat.find c = some f
  freezed : s.freezed.All fun _ _ n => n = 0

/-- The loop of `addfreezed` adds accounts that are frozen for ever. -/
theorem addAccounts_all {t : Table Name Nat} (h : t.All fun _ n => n = 0) (l : List Name) :
    (addAccounts t l).1.All fun _ n => n = 0 := by
  apply List.foldlRecOn (motive := fun r : Table Name Nat × Nat => r.1.All fun _ n => n = 0) l
    addAccount h
  intro r hr a _
  unfold addAccount
  split
  · exact hr.put rfl
  · exact hr

theorem Sound.notActivited_iff (h : Sound s) : NotActivited s ↔ s.gfstate = none := by
  unfold NotActivited
  cases hg : s.gfstate with
  | none => simp
  | some c =>
    obtain ⟨f, hf⟩ := h.committer c hg
    refine iff_of_false (fun h0 : c = 0 => ?_) (by simp)
    rw [h0, h.named] at hf
    cases hf

/-- A row of the stat table is replaced by one that is as active as `gfstate` says. -/
theorem Sound.put {k : Name} {f : FreezedTableState} {fz : Scoped Name Name Nat}
    {acts : Table Name Unit} (h : Sound s) (hk : k ≠ 0)
    (hf : f.state = .actived ↔ s.gfstate = some k) (hfz : fz.All fun _ _ n => n = 0) :
    Sound { s with freezed := fz, freezedstat := s.freezedstat.put k f, actaccounts := acts } where
  named := by
    show (s.freezedstat.put k f).find 0 = none
    rw [Table.find_put_ne _ _ hk]
    exact h.named
  actived := by
    intro k' f' hf'
    rw [Table.find_put] at hf'
    split at hf'
    · subst_vars
      cases hf'
      exact hf
    · exact h.actived k' f' hf'
  committer := by
    intro c hc
    by_cases hck : k = c
    · exact ⟨f, hck ▸ Table.find_put_self _ _ _⟩
    · obtain ⟨f', hf'⟩ := h.committer c hc
      exact ⟨f', by rw [← hf']; exact Table.find_put_ne _ _ hck⟩
  freezed := hfz

theorem Sound.key_ne {c : Name} {f : FreezedTableState} (h : Sound s)
    (hf : s.freezedstat.find c = some f) : c ≠ 0 := by
  rintro rfl
  rw [h.named] at hf
  cases hf

/-- **Step lemma.** Every action keeps the tables sound. -/
theorem Step.sound {a : Env × Action} (h : Step s a s') (hs : Sound s) : Sound s' := by
  obtain ⟨hauth, h⟩ := h
  obtain ⟨env, a⟩ := a
  cases exec_change (a := a) h with
  | addfreezed hc hact hst =>
    have hnone := hs.notActivited_iff.mp hact
    refine hs.put (fun h0 => hauth (h0 ▸ hc)) ?_
      (hs.freezed.setScope (addAccounts_all (hs.freezed.scope _) _))
    rw [hnone]
    refine iff_of_false ?_ nofun
    rename_i c l memo
    cases hf : s.freezedstat.find c with
    | none => exact nofun
    | some f =>
      rw [Option.getD_some, hst f hf]
      exact nofun
  | delfreezed hact hf hst hn =>
    refine hs.put (hs.key_ne hf) ?_ ?_
    · rw [hs.notActivited_iff.mp hact, hst]
      exact iff_of_false nofun nofun
    · exact hs.freezed.setScope ((hs.freezed.scope _).erase _)
  | lock hact hf hst =>
    refine hs.put (hs.key_ne hf) ?_ hs.freezed
    rw [hs.notActivited_iff.mp hact]
    exact iff_of_false nofun nofun
  | unlock ha hact hf hst =>
    refine hs.put (hs.key_ne hf) ?_ hs.freezed
    rw [hs.notActivited_iff.mp hact]
    exact iff_of_false nofun nofun
  | @actfreezed c f ha hact hf hst =>
    have hnone := hs.notActivited_iff.mp hact
    refine ⟨?_, fun k f' hf' => ?_, fun c' hc' => ?_, hs.freezed⟩
    · show (s.freezedstat.put c _).find 0 = none
      rw [Table.find_put_ne _ _ (hs.key_ne hf)]
      exact hs.named
    · rw [Table.find_put] at hf'
      split at hf'
      · subst_vars
        cases hf'
        exact iff_of_true rfl rfl
      · rename_i hne
        refine iff_of_false (fun hact' => ?_) (fun he => hne (Option.some.inj he))
        rw [hs.actived k f' hf', hnone] at hact'
        cases hact'
    · obtain rfl := Option.some.inj hc'
      exact ⟨_, Table.find_put_self _ _ _⟩
  | confirmact ha hact => exact ⟨hs.named, hs.actived, hs.committer, hs.freezed⟩
  | @actconfirmed c a f n ha hg hconf hf hn =>
    have hiff : f.state = .actived ↔ s.gfstate = some c := hs.actived c f hf
    exact hs.put (hs.key_ne hf) hiff (hs.freezed.setScope ((hs.freezed.scope c).erase a))

theorem sound_empty : Sound {} :=
  ⟨rfl, nofun, nofun, Scoped.all_empty _⟩

/-- Every state of a run is sound. -/
theorem Reachable.sound (h : Reachable s) : Sound s := by
  obtain ⟨tr, h⟩ := h
  exact (h.inv sound_empty fun _ _ _ hs hst => hst.sound hs).1

/-! ## Runs that succeed -/

/-- The state after an action that succeeds. -/
def State.next (s : State) (env : Env) (a : Action) : State :=
  match exec env s a with
  | .ok s' => s'
  | .error _ => s

theorem State.next_step (s : State) (env : Env) (a : Action) (hauth : 0 ∉ env.auths)
    (h : (exec env s a).isOk = true) : Step s (env, a) (s.next env a) := by
  refine ⟨hauth, ?_⟩
  unfold State.next
  show exec env s a = _
  cases he : exec env s a with
  | error e =>
    rw [he] at h
    cases h
  | ok r => rfl

/-- Committer 5 lists the accounts 7 and 8. -/
def added : State := State.next {} (Env.of 5 1) (.addfreezed 5 [7, 8] "")

/-- It locks its table. -/
def locked : State := added.next (Env.of 5 2) (.lockfreezed 5 true)

/-- Account 7 confirms itself. -/
def confirmed : State := locked.next (Env.of 7 3) (.confirmact 7)

/-- The chain activates the table. -/
def activated : State := confirmed.next (Env.of systemAccount 4) (.actfreezed 5)

/-- Account 7 leaves it. -/
def left : State := activated.next (Env.of 7 5) (.actconfirmed 7)

theorem activated_step :
    Step confirmed (Env.of systemAccount 4, .actfreezed 5) activated :=
  State.next_step _ _ _ (by decide) rfl

theorem left_step : Step activated (Env.of 7 5, .actconfirmed 7) left :=
  State.next_step _ _ _ (by decide) rfl

theorem locked_run : Run Step {}
    [({}, (Env.of 5 1, .addfreezed 5 [7, 8] ""), added),
      (added, (Env.of 5 2, .lockfreezed 5 true), locked)] locked :=
  .snoc (.snoc .nil (State.next_step _ _ _ (by decide) rfl)) (State.next_step _ _ _ (by decide) rfl)

theorem confirmed_run : Run Step {}
    [({}, (Env.of 5 1, .addfreezed 5 [7, 8] ""), added),
      (added, (Env.of 5 2, .lockfreezed 5 true), locked),
      (locked, (Env.of 7 3, .confirmact 7), confirmed)] confirmed :=
  locked_run.snoc (State.next_step _ _ _ (by decide) rfl)

end Eosforce.Freeze
