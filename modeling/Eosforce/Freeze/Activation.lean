import Eosforce.Freeze.Run

/-!
# The activation of a freezed table

* `activated_for_ever`: once a table is active, it is so for ever, accounts only leave it, and only
  by themselves where they confirmed themselves before the activation.
* `activated_as_locked`: an activated table is the one that its committer locked last, and nobody
  but the chain could have changed it since.
-/

namespace Eosforce.Freeze

open Fallible Keyed Runs

variable {env : Env} {s s' : State}

/-! ## The accounts that are frozen -/

/-- The accounts that `is_account_freezed` reports at a block. -/
def freezedAccounts (s : State) (block : Nat) : Set Name := {a | isAccountFreezed s a block = true}

/-- The frozen accounts are those of the active table, at every block. -/
theorem Sound.mem_freezedAccounts (h : Sound s) {a : Name} {block : Nat} :
    a ∈ freezedAccounts s block ↔ ∃ c n, s.gfstate = some c ∧ s.freezed.find c a = some n := by
  show isAccountFreezed s a block = true ↔ _
  unfold isAccountFreezed
  cases hg : s.gfstate with
  | none => simp
  | some c =>
    obtain ⟨f, hf⟩ := h.committer c hg
    simp only [Option.getD_some, if_neg (h.key_ne hf), Option.some.injEq]
    cases hn : s.freezed.find c a with
    | none =>
      apply iff_of_false nofun
      rintro ⟨_, n, rfl, hn'⟩
      rw [hn] at hn'
      cases hn'
    | some n =>
      obtain rfl := h.freezed c a n hn
      exact iff_of_true (by simp) ⟨c, 0, rfl, hn⟩

/-- The account is frozen before the step and not after it. -/
def Leaves (a : Name) (e : State × (Env × Action) × State) : Prop :=
  ∃ n m, a ∈ freezedAccounts e.1 n ∧ a ∉ freezedAccounts e.2.2 m

/-- The account confirmed itself in a step of the trace. -/
def Confirmed (tr : Trace) (a : Name) : Prop :=
  ∃ z ∈ tr, z.2.1.2 = .confirmact a ∧ a ∈ z.2.1.1.auths

/-- The table of the committer is the active one, and no other is. -/
structure ActiveFor (c : Name) (s : State) : Prop where
  gfstate : s.gfstate = some c
  actived : ∃ f, s.freezedstat.find c = some f ∧ f.state = .actived
  only : ∀ k f, s.freezedstat.find k = some f → f.state = .actived → k = c

theorem Sound.activeFor {c : Name} (h : Sound s) (hg : s.gfstate = some c) : ActiveFor c s where
  gfstate := hg
  actived := by
    obtain ⟨f, hf⟩ := h.committer c hg
    exact ⟨f, hf, (h.actived c f hf).mpr hg⟩
  only := by
    intro k f hf hact
    have hk := (h.actived k f hf).mp hact
    exact Option.some.inj (hk.symm.trans hg)

/-- **Step lemma.** Under an active table the only action is that of an account that leaves it. -/
theorem Step.active {a : Env × Action} {c : Name} (h : Step s a s') (hs : Sound s)
    (hg : s.gfstate = some c) :
    ∃ b n, a.2 = .actconfirmed b ∧ b ∈ a.1.auths ∧ s.actaccounts.find b = some () ∧
      s.freezed.find c b = some n ∧ s'.gfstate = some c ∧
      s'.actaccounts = s.actaccounts.erase b ∧ s'.freezed = s.freezed.erase c b := by
  have hno : ¬NotActivited s := by
    rw [hs.notActivited_iff, hg]
    exact nofun
  obtain ⟨env, a⟩ := a
  cases exec_change (a := a) h.2 with
  | addfreezed _ hact => exact absurd hact hno
  | delfreezed hact => exact absurd hact hno
  | lock hact => exact absurd hact hno
  | unlock _ hact => exact absurd hact hno
  | actfreezed _ hact => exact absurd hact hno
  | confirmact _ hact => exact absurd hact hno
  | @actconfirmed c' b f n hb hg' hconf hf hn =>
    obtain rfl := Option.some.inj (hg'.symm.trans hg)
    exact ⟨b, n, rfl, hb, hconf, hn, hg, rfl, rfl⟩

/-- Each `actaccounts` row is of an account that confirmed itself. -/
theorem Run.confirmed {tr : Trace} (h : Run Step {} tr s) {a : Name}
    (ha : s.actaccounts.find a = some ()) : Confirmed tr a := by
  refine h.history (I := fun tr s => ∀ a, s.actaccounts.find a = some () → Confirmed tr a)
    nofun (fun tr t x u ih hst a ha => ?_) a ha
  have hold : t.actaccounts.find a = some () → Confirmed (tr ++ [(t, x, u)]) a := fun h => by
    obtain ⟨z, hz, hc⟩ := ih a h
    exact ⟨z, List.mem_append_left _ hz, hc⟩
  obtain ⟨env, x⟩ := x
  cases exec_change (a := x) hst.2 with
  | addfreezed | delfreezed | lock | unlock | actfreezed => exact hold ha
  | @confirmact b hb =>
    rw [Table.find_put] at ha
    split at ha
    · subst_vars
      exact ⟨_, List.mem_append_right _ (List.mem_singleton.mpr rfl), rfl, hb⟩
    · exact hold ha
  | actconfirmed =>
    rw [Table.find_erase] at ha
    split at ha
    · cases ha
    · exact hold ha

/-! ## The active table -/

/-- What a run keeps once the table of `c` is active, where `l` is the trace up to then. -/
structure ActiveInv (l : Trace) (c : Name) (s : State) : Prop where
  sound : Sound s
  gfstate : s.gfstate = some c
  confirmed : ∀ a, s.actaccounts.find a = some () → Confirmed l a

theorem ActiveInv.step {l : Trace} {c : Name} {a : Env × Action} (hI : ActiveInv l c s)
    (h : Step s a s') : ActiveInv l c s' := by
  obtain ⟨b, n, -, -, -, -, hg, hacts, -⟩ := h.active hI.sound hI.gfstate
  refine ⟨h.sound hI.sound, hg, fun a ha => hI.confirmed a ?_⟩
  rw [hacts, Table.find_erase] at ha
  split at ha
  · cases ha
  · exact ha

/-- After the activation the accounts that are frozen are the rows of the table. -/
theorem ActiveInv.mem_freezedAccounts {l : Trace} {c a : Name} {block : Nat} (hI : ActiveInv l c s) :
    a ∈ freezedAccounts s block ↔ ∃ n, s.freezed.find c a = some n := by
  rw [hI.sound.mem_freezedAccounts]
  constructor
  · rintro ⟨c', n, hg, hn⟩
    obtain rfl := Option.some.inj (hg.symm.trans hI.gfstate)
    exact ⟨n, hn⟩
  · exact fun ⟨n, hn⟩ => ⟨c, n, hI.gfstate, hn⟩

/-- An account that leaves does so itself, and confirmed itself before. -/
theorem ActiveInv.leaves {l : Trace} {c a : Name} {x : Env × Action} (hI : ActiveInv l c s)
    (h : Step s x s') (hl : Leaves a (s, x, s')) :
    x.2 = .actconfirmed a ∧ a ∈ x.1.auths ∧ Confirmed l a := by
  obtain ⟨n, m, hin, hout⟩ := hl
  obtain ⟨b, k, hx, hb, hconf, -, -, -, hfz⟩ := h.active hI.sound hI.gfstate
  rw [hI.mem_freezedAccounts] at hin
  rw [(hI.step h).mem_freezedAccounts] at hout
  obtain ⟨i, hi⟩ := hin
  by_cases hab : b = a
  · subst hab
    exact ⟨hx, hb, hI.confirmed _ hconf⟩
  · refine absurd ⟨i, ?_⟩ hout
    rw [hfz, Scoped.find_erase, if_neg fun e => hab e.2]
    exact hi

/-- No step makes an account frozen again. -/
theorem ActiveInv.shrinks {l : Trace} {c : Name} {x : Env × Action} (hI : ActiveInv l c s)
    (h : Step s x s') (n m : Nat) : freezedAccounts s' n ⊆ freezedAccounts s m := by
  intro a ha
  obtain ⟨b, k, -, -, -, -, -, -, hfz⟩ := h.active hI.sound hI.gfstate
  rw [(hI.step h).mem_freezedAccounts] at ha
  rw [hI.mem_freezedAccounts]
  obtain ⟨i, hi⟩ := ha
  rw [hfz, Scoped.find_erase] at hi
  split at hi
  · cases hi
  · exact ⟨i, hi⟩

/-- The activation of a table. -/
theorem Step.activeInv {tr : Trace} {a : Env × Action} {c : Name} (h : Run Step {} tr s)
    (hst : Step s a s') (ha : a.2 = .actfreezed c) : ActiveInv tr c s' := by
  have hs := hst.sound (Reachable.sound ⟨tr, h⟩)
  obtain ⟨env, a⟩ := a
  obtain rfl : a = .actfreezed c := ha
  cases exec_change (a := .actfreezed c) hst.2 with
  | actfreezed => exact ⟨hs, rfl, fun a ha => Run.confirmed h ha⟩

/-- **Activation.** After `actfreezed` has succeeded for a committer, its table is the active one and
the only one for ever; the set of the frozen accounts only shrinks; an account leaves it by its own
`actconfirmed` only, where it ran `confirmact` before the activation, and at most once. -/
theorem activated_for_ever {tr l l' : Trace} {e : State × (Env × Action) × State} {c : Name}
    {q : State} (h : Run Step {} tr q) (htr : tr = l ++ e :: l') (he : e.2.1.2 = .actfreezed c) :
    ActiveFor c e.2.2 ∧
    (∀ x ∈ l', ActiveFor c x.2.2 ∧ (∀ n m, freezedAccounts x.2.2 n ⊆ freezedAccounts x.1 m) ∧
      ∀ a, Leaves a x → x.2.1.2 = .actconfirmed a ∧ a ∈ x.2.1.1.auths ∧ Confirmed l a) ∧
    ∀ a m₁ x m₂, l' = m₁ ++ x :: m₂ → Leaves a x → ∀ y ∈ m₂, ¬Leaves a y := by
  subst htr
  obtain ⟨hl, hst, hl'⟩ := h.split_at
  have hI := hst.activeInv hl he
  have hinv := (hl'.inv hI fun _ _ _ ht hs => ht.step hs).2
  refine ⟨hI.sound.activeFor hI.gfstate, fun x hx => ?_, ?_⟩
  · obtain ⟨hx, hst, hx'⟩ := hinv x hx
    exact ⟨hx'.sound.activeFor hx'.gfstate, hx.shrinks hst, fun a ha => hx.leaves hst ha⟩
  · rintro a m₁ x m₂ rfl ⟨-, m, -, hout⟩ y hy ⟨n, -, hin, -⟩
    obtain ⟨-, -, hm₂⟩ := hl'.split_at
    -- once out, the account stays out
    have hstay := (hm₂.inv (I := fun t => ActiveInv l c t ∧ ∀ n, a ∉ freezedAccounts t n)
      ⟨(hinv x (by simp)).2.2, fun n hn => hout ?_⟩
      fun t z u ht hz => ⟨ht.1.step hz, fun n hn => ht.2 0 (ht.1.shrinks hz n 0 hn)⟩).2 y hy
    · exact hstay.1.2 n hin
    · have hx := (hinv x (by simp)).2.2
      rw [hx.mem_freezedAccounts] at hn ⊢
      exact hn

/-- Account 7 leaves the active table. -/
theorem activated_for_ever_left : ∃ tr, Run Step {} tr confirmed ∧ ActiveFor 5 activated ∧
    ActiveFor 5 left ∧ Leaves 7 (activated, (Env.of 7 5, .actconfirmed 7), left) ∧
    Confirmed tr 7 := by
  have hleaves : Leaves 7 (activated, (Env.of 7 5, .actconfirmed 7), left) :=
    ⟨4, 5, show isAccountFreezed activated 7 4 = true from rfl,
      fun h => absurd (show isAccountFreezed left 7 5 = true from h) (by decide)⟩
  obtain ⟨hact, hall, -⟩ := activated_for_ever
    ((confirmed_run.snoc activated_step).snoc left_step) (List.append_assoc _ _ _) rfl
  obtain ⟨hleft, -, hl⟩ := hall _ (List.mem_singleton.mpr rfl)
  exact ⟨_, confirmed_run, hact, hleft, hleaves, (hl 7 hleaves).2.2⟩

/-! ## The locked table -/

/-- The committer's table, its size and its state are the same in both states. -/
structure SameTable (c : Name) (s s' : State) : Prop where
  freezed : s'.freezed.scope c = s.freezed.scope c
  freezedSize : (s'.freezedstat.find c).map FreezedTableState.freezedSize =
    (s.freezedstat.find c).map FreezedTableState.freezedSize
  state : (s'.freezedstat.find c).map FreezedTableState.state =
    (s.freezedstat.find c).map FreezedTableState.state

theorem SameTable.refl (c : Name) (s : State) : SameTable c s s := ⟨rfl, rfl, rfl⟩

theorem SameTable.trans {c : Name} {s t u : State} (h : SameTable c s t) (h' : SameTable c t u) :
    SameTable c s u :=
  ⟨h'.freezed.trans h.freezed, h'.freezedSize.trans h.freezedSize, h'.state.trans h.state⟩

theorem SameTable.of_find {c : Name} (hz : s'.freezed.scope c = s.freezed.scope c)
    (hf : s'.freezedstat.find c = s.freezedstat.find c) : SameTable c s s' :=
  ⟨hz, by rw [hf], by rw [hf]⟩

/-- The committer's table is locked. -/
def Locked (c : Name) (s : State) : Prop := ∃ f, s.freezedstat.find c = some f ∧ f.state = .locked

/-- Committers whose tables are in different states are different. -/
theorem ne_of_state {c k : Name} {f f' : FreezedTableState} (hf : s.freezedstat.find c = some f)
    (hk : s.freezedstat.find k = some f') (hne : f'.state ≠ f.state) : k ≠ c := by
  rintro rfl
  rw [hf] at hk
  exact hne (congrArg _ (Option.some.inj hk.symm))

/-- A table is locked after a write where the written row says so, or was locked before. -/
theorem Locked.of_put {c k : Name} {f : FreezedTableState} (h : Locked c s')
    (hp : s'.freezedstat = s.freezedstat.put k f) : k = c ∧ f.state = .locked ∨ Locked c s := by
  obtain ⟨g, hg, hlock⟩ := h
  rw [hp, Table.find_put] at hg
  split at hg
  · rename_i hk
    obtain rfl := Option.some.inj hg
    exact .inl ⟨hk, hlock⟩
  · exact .inr ⟨g, hg, hlock⟩

/-- **Step lemma.** A locked table is not locked again, and without the chain's authority it stays as
it is. -/
theorem Step.locked {a : Env × Action} {c : Name} (h : Step s a s') (hs : Sound s)
    (hc : Locked c s) : a.2 ≠ .lockfreezed c true ∧
      (SameTable c s s' ∨ systemAccount ∈ a.1.auths ∧ ¬Locked c s') := by
  obtain ⟨f, hf, hlock⟩ := hc
  obtain ⟨env, a⟩ := a
  cases exec_change (a := a) h.2 with
  | @addfreezed k l memo hk hact hcom =>
    have hne : k ≠ c := by
      rintro rfl
      rw [hcom f hf] at hlock
      cases hlock
    refine ⟨nofun, .inl (.of_find ?_ (Table.find_put_ne _ _ hne))⟩
    exact (Scoped.scope_setScope _ _ _ _).trans (if_neg hne)
  | @delfreezed k a memo f' n hact hk hst hn =>
    have hne := ne_of_state hf hk (by rw [hst, hlock]; exact nofun)
    refine ⟨nofun, .inl (.of_find ?_ (Table.find_put_ne _ _ hne))⟩
    exact (Scoped.scope_setScope _ _ _ _).trans (if_neg hne)
  | @lock k f' hact hk hst =>
    have hne := ne_of_state hf hk (by rw [hst, hlock]; exact nofun)
    refine ⟨fun e => hne ?_, .inl (.of_find rfl (Table.find_put_ne _ _ hne))⟩
    simpa using e
  | @unlock k f' hauth hact hk hst =>
    refine ⟨nofun, ?_⟩
    by_cases hkc : k = c
    · refine .inr ⟨hauth, fun hu => ?_⟩
      subst hkc
      obtain ⟨g, hg, hgl⟩ := hu
      obtain rfl := Option.some.inj ((Table.find_put_self _ _ _).symm.trans hg)
      cases hgl
    · exact .inl (.of_find rfl (Table.find_put_ne _ _ hkc))
  | @actfreezed k f' hauth hact hk hst =>
    refine ⟨nofun, ?_⟩
    by_cases hkc : k = c
    · refine .inr ⟨hauth, fun hu => ?_⟩
      subst hkc
      obtain ⟨g, hg, hgl⟩ := hu
      obtain rfl := Option.some.inj ((Table.find_put_self _ _ _).symm.trans hg)
      cases hgl
    · exact .inl (.of_find rfl (Table.find_put_ne _ _ hkc))
  | confirmact => exact ⟨nofun, .inl (.of_find rfl rfl)⟩
  | @actconfirmed k a f' n ha hg hconf hk hn =>
    -- the active table is not the locked one
    have hne := ne_of_state hf hk (by rw [(hs.actived k f' hk).mpr hg, hlock]; exact nofun)
    refine ⟨nofun, .inl (.of_find ?_ (Table.find_put_ne _ _ hne))⟩
    exact (Scoped.scope_setScope _ _ _ _).trans (if_neg hne)

/-- **Step lemma.** Only its committer's `lockfreezed` locks a table, and it keeps the accounts. -/
theorem Step.locks {a : Env × Action} {c : Name} (h : Step s a s') (hc : ¬Locked c s)
    (hc' : Locked c s') :
    a.2 = .lockfreezed c true ∧ s'.freezed.scope c = s.freezed.scope c := by
  obtain ⟨env, a⟩ := a
  cases exec_change (a := a) h.2 with
  | @addfreezed k l memo hk hact hcom =>
    rcases hc'.of_put rfl with ⟨rfl, hl⟩ | hl
    · cases hf : s.freezedstat.find k with
      | none =>
        rw [hf] at hl
        cases hl
      | some f => exact absurd ⟨f, hf, by simpa [hf] using hl⟩ hc
    · exact absurd hl hc
  | @delfreezed k a memo f n hact hf hst hn =>
    rcases hc'.of_put rfl with ⟨rfl, hl⟩ | hl
    · exact absurd ⟨f, hf, hl⟩ hc
    · exact absurd hl hc
  | @lock k f hact hf hst =>
    rcases hc'.of_put rfl with ⟨rfl, -⟩ | hl
    · exact ⟨rfl, rfl⟩
    · exact absurd hl hc
  | unlock hauth hact hf hst =>
    rcases hc'.of_put rfl with ⟨-, hl⟩ | hl
    · cases hl
    · exact absurd hl hc
  | actfreezed hauth hact hf hst =>
    rcases hc'.of_put rfl with ⟨-, hl⟩ | hl
    · cases hl
    · exact absurd hl hc
  | confirmact => exact absurd hc' hc
  | @actconfirmed k a f n ha hg hconf hf hn =>
    rcases hc'.of_put rfl with ⟨rfl, hl⟩ | hl
    · exact absurd ⟨f, hf, hl⟩ hc
    · exact absurd hl hc

/-- What has happened since a table was locked: it is the table of that moment, in every state. -/
structure LockedSince (c : Name) (tr l₁ : Trace) (e : State × (Env × Action) × State) (l₂ : Trace) :
    Prop where
  eq : tr = l₁ ++ e :: l₂
  lock : e.2.1.2 = .lockfreezed c true
  last : ∀ x ∈ l₂, x.2.1.2 ≠ .lockfreezed c true
  accounts : e.2.2.freezed.scope c = e.1.freezed.scope c
  same : ∀ x ∈ l₂, SameTable c e.2.2 x.2.2

/-- A state of a run whose table of `c` is locked has the table of its last lock. -/
theorem Run.lockedSince {tr : Trace} (h : Run Step {} tr s) {c : Name} (hc : Locked c s) :
    ∃ l₁ e l₂, LockedSince c tr l₁ e l₂ ∧ SameTable c e.2.2 s := by
  refine (h.history (I := fun tr s => Sound s ∧
    (Locked c s → ∃ l₁ e l₂, LockedSince c tr l₁ e l₂ ∧ SameTable c e.2.2 s))
    ⟨sound_empty, fun ⟨_, hf, _⟩ => by cases hf⟩ (fun tr t a u ih hst => ?_)).2 hc
  refine ⟨hst.sound ih.1, fun hu => ?_⟩
  by_cases ht : Locked c t
  · obtain ⟨hnot, hsame | ⟨-, hno⟩⟩ := hst.locked ih.1 ht
    · obtain ⟨l₁, e, l₂, hl, he⟩ := ih.2 ht
      refine ⟨l₁, e, l₂ ++ [(t, a, u)], ⟨by rw [hl.eq]; simp, hl.lock, fun x hx => ?_, hl.accounts,
        fun x hx => ?_⟩, he.trans hsame⟩
      · rcases List.mem_append.mp hx with hx | hx
        · exact hl.last x hx
        · obtain rfl := List.mem_singleton.mp hx
          exact hnot
      · rcases List.mem_append.mp hx with hx | hx
        · exact hl.same x hx
        · obtain rfl := List.mem_singleton.mp hx
          exact he.trans hsame
    · exact absurd hu hno
  · obtain ⟨hlock, hacc⟩ := hst.locks ht hu
    exact ⟨tr, (t, a, u), [], ⟨rfl, hlock, by simp, hacc, by simp⟩, .refl _ _⟩

/-- **Lock.** When `actfreezed` succeeds for a committer, its table holds the accounts that it held
when its last `lockfreezed` succeeded. In every state since then the accounts, the size and the state
are those of the lock, and no action without the chain's authority would change them. -/
theorem activated_as_locked {tr : Trace} {c : Name} {q : State} (h : Run Step {} tr s)
    (hst : Step s (env, .actfreezed c) q) :
    ∃ l₁ e l₂, tr = l₁ ++ e :: l₂ ∧ e.2.1.2 = .lockfreezed c true ∧
      (∀ x ∈ l₂, x.2.1.2 ≠ .lockfreezed c true) ∧
      e.2.2.freezed.scope c = e.1.freezed.scope c ∧ s.freezed.scope c = e.2.2.freezed.scope c ∧
      ∀ x ∈ e :: l₂, SameTable c e.2.2 x.2.2 ∧
        ∀ a t, Step x.2.2 a t → systemAccount ∉ a.1.auths → SameTable c x.2.2 t := by
  have hlocked : Locked c s := by
    cases exec_change (a := .actfreezed c) hst.2 with
    | actfreezed _ _ hf hlock => exact ⟨_, hf, hlock⟩
  obtain ⟨l₁, e, l₂, hl, hs⟩ := Run.lockedSince h hlocked
  refine ⟨l₁, e, l₂, hl.eq, hl.lock, hl.last, hl.accounts, hs.freezed, fun x hx => ?_⟩
  have hsame : SameTable c e.2.2 x.2.2 := by
    rcases List.mem_cons.mp hx with rfl | hx
    · exact .refl _ _
    · exact hl.same x hx
  refine ⟨hsame, fun a t ht hauth => ?_⟩
  have hsound : Sound x.2.2 :=
    ((h.inv sound_empty fun _ _ _ ht hs => hs.sound ht).2 x
      (hl.eq ▸ List.mem_append_right _ hx)).2.2
  -- the state of the last lock is the one of `s`, which is locked
  have hlock : Locked c x.2.2 := by
    obtain ⟨f, hf, hfl⟩ := hlocked
    have hst := hsame.state.trans hs.state.symm
    rw [hf, Option.map_some, hfl] at hst
    obtain ⟨g, hg, hgl⟩ := Option.map_eq_some_iff.mp hst
    exact ⟨g, hg, hgl⟩
  rcases (ht.locked hsound hlock).2 with h | ⟨hsys, -⟩
  · exact h
  · exact absurd hsys hauth

/-- The table that is activated is the one that was locked. -/
theorem activated_as_locked_confirmed : ∃ tr l₁ e l₂, Run Step {} tr confirmed ∧
    tr = l₁ ++ e :: l₂ ∧ e.2.1.2 = .lockfreezed 5 true ∧
    confirmed.freezed.scope 5 = e.2.2.freezed.scope 5 := by
  obtain ⟨l₁, e, l₂, htr, hlock, -, -, hs, -⟩ := activated_as_locked confirmed_run activated_step
  exact ⟨_, l₁, e, l₂, confirmed_run, htr, hlock, hs⟩

end Eosforce.Freeze
